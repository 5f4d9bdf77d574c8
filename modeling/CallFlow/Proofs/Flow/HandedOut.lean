import CallFlow.Proofs.Flow.FreshIds
import CallFlow.Proofs.Flow.InPlace
import CallFlow.Proofs.Flow.Runs

/-
  The ids that new nodes get along a run of calls.

  A call that adds a node takes the smallest free number and
  stores the number after it, also if it then stops and does
  not hand out the id.  No other call changes the stored
  number or makes nodes.  So the numbers that a run hands out
  increase, and the nodes of a flow that was new have, apart
  from its first root, ids with smaller numbers than those
  that are handed out later on.

  Main declarations:
    * `Flow.Hands`
    * `Flow.hands_after`
    * `Flow.handedOut`
    * `Flow.Counted`
    * `Flow.HasPlace`
    * `Flow.add_eq_exhausted_iff`
    * `Flow.ids_handed_out_once`
-/

namespace CallFlow

namespace Flow

variable {t t' : Flow}

------------------------------------------------------------
-- Nodes After Linking
------------------------------------------------------------

/- Linking neither makes nor drops a node. -/
@[simp] theorem contains_linkChild
    (nodes : NameMap Node)
    (parent child x : String) :
    (linkChild nodes parent child).contains x =
      nodes.contains x := by
  unfold NameMap.contains
  rw [get?_linkChild]
  split <;> simp

/- Neither does unlinking. -/
@[simp] theorem contains_unlinkFrom?
    (nodes : NameMap Node)
    (parent : Option String)
    (child x : String) :
    (unlinkFrom? nodes parent child).contains x =
      nodes.contains x := by
  unfold NameMap.contains
  rw [get?_unlinkFrom?]
  split <;> simp

------------------------------------------------------------
-- Steps
------------------------------------------------------------

/-
  A step that may take an id.  If it does, this is the one
  with the smallest free number, it belongs to the only new
  node, and the number after it is stored.  If it does not,
  the stored number stays and there are no new nodes.
-/
def Hands
    (t t' : Flow) : Option String → Prop
  | some id =>
      ∃ k, IsLeast {k | t.Free k} k ∧ id = numbered k ∧
        t'.nextId.toNat = k + 1 ∧
          ∀ x, t'.contains x = true ↔
            t.contains x = true ∨ x = id
  | none =>
      t'.nextId = t.nextId ∧
        ∀ x, t'.contains x = true → t.contains x = true

/- Nothing is taken where nothing is done. -/
theorem Hands.refl
    (t : Flow) : t.Hands t none :=
  ⟨rfl, fun _ hx => hx⟩

/- An addition takes the id that it returns. -/
theorem hands_of_add
    {parent label id : String}
    {kind : StepKind}
    {key : Option Key}
    (h : t.add parent kind label key = .ok (t', id)) :
    t.Hands t' (some id) := by
  rcases add_eq_ok h with ⟨p, next, -, -, hFresh, -, rfl⟩
  rcases (t.freshId?_eq_iff _).mp hFresh with
    ⟨k, hLeast, hId, hNext⟩
  refine ⟨k, hLeast, hId, hNext, fun x => ?_⟩
  show (linkChild _ parent id).contains x = true ↔ _
  rw [contains_linkChild]
  unfold Flow.contains NameMap.contains
  rw [NameMap.get?_insert]
  by_cases hx : x = id <;> simp [hx]

/- A change takes nothing. -/
theorem hands_of_update
    {id : String}
    {patch : Patch}
    (h : t.update id patch = .ok t') : t.Hands t' none := by
  rcases update_eq_ok h with
    ⟨n, settings, key, hNode, -, -, -, rfl⟩
  refine ⟨rfl, fun x hx => ?_⟩
  by_cases hSame : x = id
  · rw [hSame]
    exact (t.contains_iff id).mpr ⟨n, hNode⟩
  · unfold Flow.contains NameMap.contains at hx
    rwa [NameMap.get?_insert, if_neg hSame] at hx

/- A move takes nothing. -/
theorem hands_of_move
    {id newParent : String}
    (h : t.move id newParent = .ok t') : t.Hands t' none := by
  rcases move_eq_ok h with
    ⟨n, p, -, -, -, -, -, ⟨-, rfl⟩ | ⟨-, -, -, rfl⟩⟩
  · exact .refl _
  · refine ⟨rfl, fun x hx => ?_⟩
    have hLinked :
        (linkChild (unlinkFrom? t.nodes n.parent id)
          newParent id).contains x = true := by
      unfold Flow.contains NameMap.contains at hx
      rw [NameMap.get?_modify] at hx
      unfold NameMap.contains
      split at hx
      · simpa using hx
      · exact hx
    rwa [contains_linkChild, contains_unlinkFrom?]
      at hLinked

/- A deletion takes nothing. -/
theorem hands_of_delete
    {id : String}
    {removed : List String}
    (h : t.delete id = .ok (t', removed)) :
    t.Hands t' none := by
  rcases delete_eq_ok h with ⟨n, -, -, -, -, rfl⟩
  refine ⟨rfl, fun x hx => ?_⟩
  have hUnlinked :
      (unlinkFrom? t.nodes n.parent id).contains x =
        true := by
    unfold Flow.contains NameMap.contains at hx
    rw [NameMap.get?_eraseAll] at hx
    split at hx
    · cases hx
    · exact hx
  rwa [contains_unlinkFrom?] at hUnlinked

/- An edit takes the id that it returns, if any. -/
theorem hands_of_apply
    {e : Edit}
    {made : Option String}
    (h : t.apply e = .ok (t', made)) : t.Hands t' made := by
  cases e with
  | add parent kind label key =>
      rcases bind_eq_ok_iff.mp h with ⟨⟨t₁, id⟩, hAdd, hDone⟩
      cases hDone
      exact hands_of_add hAdd
  | update id patch =>
      rcases bind_eq_ok_iff.mp h with ⟨t₁, hUpdate, hDone⟩
      cases hDone
      exact hands_of_update hUpdate
  | move id newParent =>
      rcases bind_eq_ok_iff.mp h with ⟨t₁, hMove, hDone⟩
      cases hDone
      exact hands_of_move hMove
  | delete id =>
      rcases bind_eq_ok_iff.mp h with
        ⟨⟨t₁, removed⟩, hDelete, hDone⟩
      cases hDone
      exact hands_of_delete hDelete

/- The version has no say in which numbers are free. -/
private theorem free_atVersion_iff
    {v : UInt64}
    {k : Nat} : (t.atVersion v).Free k ↔ t.Free k :=
  ⟨fun h => ⟨h.le, h.room, h.unused⟩,
    fun h => ⟨h.le, h.room, h.unused⟩⟩

/- An edit that stops may have taken an id before. -/
theorem exists_hands_of_stopped
    {e : Edit}
    {left : Flow}
    (h : t.apply e = .error (.stopped left)) :
    ∃ taken, t.Hands left taken := by
  rcases exists_apply_of_stopped h with
    ⟨-, -, made, hElsewhere⟩
  have hHands := hands_of_apply (hElsewhere 0 (by decide))
  refine ⟨made, ?_⟩
  cases made with
  | none => exact hHands
  | some id =>
      rcases hHands with ⟨k, hLeast, hId, hNext, hNodes⟩
      simp only [free_atVersion_iff] at hLeast
      exact ⟨k, hLeast, hId, hNext, hNodes⟩

/- Every call is such a step, and takes what it hands out. -/
theorem hands_after
    (t : Flow)
    (c : Call) :
    ∃ taken, t.Hands (t.after c) taken ∧
      ∀ id, t.given c = some id → taken = some id := by
  rcases t.after_cases c with
    ⟨hSame, hNone⟩ | ⟨e, hApply | ⟨hStopped, hNone⟩⟩
  · rw [hSame, hNone]
    exact ⟨none, .refl t, nofun⟩
  · exact ⟨_, hands_of_apply hApply, fun _ h => h⟩
  · rw [hNone]
    rcases exists_hands_of_stopped hStopped with
      ⟨taken, hHands⟩
    exact ⟨taken, hHands, nofun⟩

/- An id that a call hands out is one that it takes. -/
theorem hands_of_given
    {c : Call}
    {id : String}
    (h : t.given c = some id) :
    t.Hands (t.after c) (some id) := by
  rcases t.hands_after c with ⟨taken, hHands, hGiven⟩
  rw [hGiven id h] at hHands
  exact hHands

/- The stored number never gets smaller. -/
theorem Hands.nextId_le
    {made : Option String}
    (h : t.Hands t' made) :
    t.nextId.toNat ≤ t'.nextId.toNat := by
  cases made with
  | none => rw [h.1]
  | some id =>
      rcases h with ⟨k, hLeast, -, hNext, -⟩
      rw [hNext]
      exact Nat.le_succ_of_le hLeast.1.le

------------------------------------------------------------
-- Runs
------------------------------------------------------------

/- The ids that a run of calls hands out, in turn. -/
def handedOut
    (t : Flow) : List Call → List String
  | [] => []
  | c :: rest =>
      (t.given c).toList ++ (t.after c).handedOut rest

/- Calls after calls are one run. -/
theorem run_append
    (t : Flow)
    (calls calls' : List Call) :
    t.run (calls ++ calls') = (t.run calls).run calls' :=
  List.foldl_append

/- A run does not make the stored number smaller. -/
theorem nextId_le_run
    (t : Flow)
    (calls : List Call) :
    t.nextId.toNat ≤ (t.run calls).nextId.toNat := by
  induction calls generalizing t with
  | nil => exact Nat.le_refl _
  | cons c rest ih =>
      rcases t.hands_after c with ⟨taken, hHands, -⟩
      exact hHands.nextId_le.trans (ih (t.after c))

/- What a run hands out has numbers from the stored one on. -/
theorem exists_numbered_of_mem_handedOut
    {calls : List Call}
    {id : String}
    (h : id ∈ t.handedOut calls) :
    ∃ k, t.nextId.toNat ≤ k ∧ id = numbered k := by
  induction calls generalizing t with
  | nil => cases h
  | cons c rest ih =>
      rcases List.mem_append.mp h with hFirst | hLater
      · rw [Option.mem_toList] at hFirst
        rcases hands_of_given hFirst with
          ⟨k, hLeast, hId, -⟩
        exact ⟨k, hLeast.1.le, hId⟩
      · rcases t.hands_after c with ⟨taken, hHands, -⟩
        rcases ih hLater with ⟨k, hLe, hId⟩
        exact ⟨k, hHands.nextId_le.trans hLe, hId⟩

/- A run does not hand out an id twice. -/
theorem nodup_handedOut
    (t : Flow)
    (calls : List Call) : (t.handedOut calls).Nodup := by
  induction calls generalizing t with
  | nil => exact List.nodup_nil
  | cons c rest ih =>
      unfold handedOut
      cases hGiven : t.given c with
      | none => exact ih (t.after c)
      | some id =>
          refine List.nodup_cons.mpr ⟨?_, ih (t.after c)⟩
          intro hAgain
          rcases hands_of_given hGiven with
            ⟨k, -, rfl, hNext, -⟩
          rcases exists_numbered_of_mem_handedOut hAgain with
            ⟨k', hLe, hSame⟩
          have hNumber := numbered_injective hSame
          omega

------------------------------------------------------------
-- Runs From New Flows
------------------------------------------------------------

/- No node has an id with a number that is yet to come. -/
def Counted
    (t : Flow) : Prop :=
  ∀ k, t.nextId.toNat ≤ k → t.contains (numbered k) = false

/- In a new flow there is no number at all. -/
theorem counted_new
    (name : String) : (Flow.new name).Counted := by
  intro k _
  have hNotRoot : numbered k ≠ firstRootId := by
    intro hSame
    have hFirst := congrArg (·.toList.head?) hSame
    simp [numbered, firstRootId] at hFirst
  rw [contains_eq_isSome, get?_new, if_neg hNotRoot]
  rfl

/- A step counts what it hands out. -/
theorem Counted.step
    (h : t.Counted)
    {made : Option String}
    (hHands : t.Hands t' made) : t'.Counted := by
  intro k hLe
  have hOld : t.contains (numbered k) = false :=
    h k (hHands.nextId_le.trans hLe)
  rw [Bool.eq_false_iff] at hOld ⊢
  cases made with
  | none => exact fun hx => hOld (hHands.2 _ hx)
  | some id =>
      rcases hHands with ⟨j, -, rfl, hNext, hNodes⟩
      intro hx
      rcases (hNodes _).mp hx with hBefore | hSame
      · exact hOld hBefore
      · have hNumber := numbered_injective hSame
        omega

/- So does a run. -/
theorem Counted.run
    (h : t.Counted)
    (calls : List Call) : (t.run calls).Counted := by
  induction calls generalizing t with
  | nil => exact h
  | cons c rest ih =>
      rcases t.hands_after c with ⟨taken, hHands, -⟩
      exact ih (h.step hHands)

/- What is handed out later does not name an earlier node. -/
theorem Counted.not_contains_of_given
    (h : t.Counted)
    {calls : List Call}
    {c : Call}
    {id : String}
    (hGiven : (t.run calls).given c = some id) :
    t.contains id = false := by
  rcases hands_of_given hGiven with ⟨k, hLeast, rfl, -⟩
  exact h k ((t.nextId_le_run calls).trans hLeast.1.le)

------------------------------------------------------------
-- Additions
------------------------------------------------------------

/- A child with a key has a place below a node. -/
def HasPlace
    (t : Flow)
    (parent : String)
    (key : Option Key) : Prop :=
  (∃ p, t.get? parent = some p) ∧
    ∀ c ∈ t.childIds parent, t.hasKey key c = false

section Additions

variable {parent label : String}
variable {kind : StepKind}
variable {key : Option Key}

/- If there is a place, an addition depends on the next id. -/
theorem added_of_hasPlace
    (h : t.HasPlace parent key) :
    t.added parent kind label key =
      match t.freshId? with
      | none => .error (.idsExhausted t.name)
      | some (id, next) =>
          .ok
            ({ t with
                nodes :=
                  linkChild
                    (t.nodes.insert id
                      (.fresh kind label key (some parent)))
                    parent id
                nextId := next }, id) := by
  rcases h with ⟨⟨p, hParent⟩, hFree⟩
  have hKey : t.checkKey parent key none = .ok () :=
    checkKey_eq_ok_iff.mpr fun c hc _ => hFree c hc
  unfold added
  rw [node_eq_ok_iff.mpr hParent, hKey]
  rfl

/- An addition is rejected before anything is counted. -/
theorem add_eq_rejected_iff
    {err : EditError} :
    t.add parent kind label key = .error (.rejected err) ↔
      t.added parent kind label key = .error err := by
  unfold add
  rw [bind_eq_error_iff, mapError_eq_error_iff]
  constructor
  · rintro (⟨err', hAdded, ⟨⟩⟩ | ⟨r, -, h⟩)
    · exact hAdded
    · rcases bind_eq_error_iff.mp h with
        hCommit | ⟨_, _, ⟨⟩⟩
      rcases commit_eq_error_iff.mp hCommit with ⟨-, ⟨⟩⟩
  · exact fun hAdded => Or.inl ⟨err, hAdded, rfl⟩

/- A key is never rejected for want of an id. -/
theorem checkKey_ne_exhausted
    {ignored : Option String}
    {name : String} :
    t.checkKey parent key ignored ≠
      .error (.idsExhausted name) := by
  unfold checkKey
  split <;> nofun

/-
  An addition is rejected for want of an id exactly if there
  is a place but no free number.
-/
theorem add_eq_exhausted_iff
    (kind : StepKind)
    (label name : String) :
    t.add parent kind label key =
        .error (.rejected (.idsExhausted name)) ↔
      name = t.name ∧ t.HasPlace parent key ∧
        ¬ ∃ k, t.Free k := by
  rw [add_eq_rejected_iff]
  constructor
  · intro h
    have hPlace : t.HasPlace parent key := by
      unfold added at h
      rcases bind_eq_error_iff.mp h with
        hNode | ⟨p, hNode, h⟩
      · unfold node at hNode
        split at hNode <;> cases hNode
      · rcases bind_eq_error_iff.mp h with hKey | ⟨u, hKey, -⟩
        · exact absurd hKey checkKey_ne_exhausted
        · refine ⟨⟨p, node_eq_ok_iff.mp hNode⟩, ?_⟩
          intro c hc
          exact checkKey_eq_ok_iff.mp hKey c hc nofun
    rw [added_of_hasPlace hPlace] at h
    split at h
    · rename_i hNone
      cases h
      exact ⟨rfl, hPlace, (t.freshId?_eq_iff none).mp hNone⟩
    · cases h
  · rintro ⟨rfl, hPlace, hNone⟩
    rw [added_of_hasPlace hPlace,
      (t.freshId?_eq_iff none).mpr hNone]

/-
  If there is a free number, a place and a next version are
  all it takes.
-/
theorem exists_given_add
    (h : t.HasPlace parent key)
    (hFree : ∃ k, t.Free k)
    (hNext : t.HasNext) :
    ∃ id, t.given (.add parent kind label key) = some id := by
  rcases hFresh : t.freshId? with _ | ⟨id, next⟩
  · exact absurd hFree ((t.freshId?_eq_iff none).mp hFresh)
  · have hAdded : t.added parent kind label key = _ :=
      added_of_hasPlace h
    rw [hFresh] at hAdded
    obtain ⟨t', hAdd⟩ : ∃ t',
        t.add parent kind label key = .ok (t', id) :=
      ⟨_, bind_eq_ok_iff.mpr
        ⟨_, mapError_eq_ok_iff.mpr hAdded,
          bind_eq_ok_iff.mpr
            ⟨_, commit_eq_ok_iff.mpr ⟨hNext, rfl⟩, rfl⟩⟩⟩
    exact ⟨id, by simp only [given, hAdd]⟩

end Additions

/-
  The ids that runs hand out.  No run hands out an id twice,
  and in a run from a new flow an id that is handed out has
  never been that of a node.  In every flow on the way, the
  ids that are handed out are not in use, and they have the
  smallest free number, the one after which is stored.  The
  search for it takes one turn more than there are nodes at
  the most.  Where there is a place for a child, one is added
  if any number is free and the version is not the last one.
  If no number is free, the addition is rejected for want of
  an id and the stored flow is as it was.
-/
theorem ids_handed_out_once
    (t : Flow)
    (calls : List Call) :
    (t.handedOut calls).Nodup ∧
    (∀ name calls' c id,
      ((Flow.new name).run (calls ++ calls')).given c =
        some id →
          ((Flow.new name).run calls).contains id = false) ∧
    let s := t.run calls
    (∀ c id, s.given c = some id →
      s.contains id = false ∧
        ∃ k, IsLeast {k | s.Free k} k ∧ id = numbered k ∧
          (s.after c).nextId.toNat = k + 1) ∧
    (∀ turns, s.size < turns →
      s.search? turns s.nextId = some s.freshId?) ∧
    ∀ parent kind label key,
      (s.HasPlace parent key → (∃ k, s.Free k) →
        s.HasNext →
          ∃ id, s.given (.add parent kind label key) =
            some id) ∧
      ∀ name s',
        (Procedure.add parent kind label key).run s =
            .error (.rejected (.idsExhausted name)) s' ↔
          s' = s ∧ name = s.name ∧
            s.HasPlace parent key ∧ ¬ ∃ k, s.Free k := by
  refine ⟨t.nodup_handedOut calls, ?_, ?_⟩
  · intro name calls' c id hGiven
    rw [run_append] at hGiven
    exact ((counted_new name).run calls).not_contains_of_given
      hGiven
  intro s
  refine ⟨?_, fun turns => s.search?_eq, ?_⟩
  · intro c id hGiven
    rcases hands_of_given hGiven with
      ⟨k, hLeast, rfl, hNext, -⟩
    exact ⟨hLeast.1.unused, k, hLeast, rfl, hNext⟩
  · intro parent kind label key
    refine ⟨exists_given_add, fun name s' => ?_⟩
    rw [← add_eq_exhausted_iff kind label,
      Procedure.run_add]
    rcases s.add parent kind label key with e | ⟨s₁, id⟩
    · constructor
      · rintro ⟨⟩
        exact ⟨rfl, rfl⟩
      · rintro ⟨rfl, ⟨⟩⟩
        rfl
    · constructor
      · nofun
      · rintro ⟨-, ⟨⟩⟩

end Flow

end CallFlow
