import CallFlow.Proofs.Flow.Runs
import CallFlow.Proofs.Flow.Unchecked

/-
  Patches of one node, one after the other.

  What the second patch says hides what the first one said of
  the same field or setting, so both come to one patch.  The
  key is looked at anew by each patch, from the key that the
  node has by then.  A key that the second one does not look
  at is the one that the first one left, which was looked at
  before, or is the key from the beginning.

  Main declarations:
    * `Patch.merge`
    * `Patch.overwrite_overwrite`
    * `Flow.get?_of_update`
    * `Flow.allowsKey_merge`
    * `Flow.patches_merge`
-/

namespace CallFlow

------------------------------------------------------------
-- Merged Patches
------------------------------------------------------------

namespace Patch

/-
  Two patches in one.  What the second one says counts, and
  what the first one says where the second is silent.
-/
def merge
    (p q : Patch) : Patch where
  label := q.label.or p.label
  kind := q.kind.or p.kind
  settings := q.settings.onto p.settings
  key := q.key.or p.key

variable {p q : Patch}
variable {n : Node}

/- A patch that keeps the kind starts from what is there. -/
theorem settingsBefore_of_kindOf
    (h : p.kindOf n = n.kind) :
    p.settingsBefore n = n.settings :=
  if_pos h

/- If two patches keep a kind, so do both in one. -/
theorem kindOf_merge
    (hp : p.kindOf n = n.kind)
    (hq : q.kindOf n = n.kind) :
    (p.merge q).kindOf n = n.kind := by
  unfold kindOf merge at *
  rw [Option.getD_or, hp, hq]

/- Overwriting twice is overwriting by both in one. -/
theorem overwrite_overwrite
    (hp : p.kindOf n = n.kind)
    (hq : q.kindOf n = n.kind) :
    q.overwrite (p.overwrite n) = (p.merge q).overwrite n := by
  have hMerge := kindOf_merge hp hq
  have hLater :
      q.kindOf (p.overwrite n) = (p.overwrite n).kind := by
    show q.kind.getD (p.kindOf n) = p.kindOf n
    rw [hp]
    exact hq
  have hSettings :
      q.settings.entries.foldl Settings.overwrite
          (p.settings.entries.foldl Settings.overwrite
            n.settings) =
        (p.merge q).settings.entries.foldl Settings.overwrite
          n.settings := by
    apply NameMap.ext_get?
    intro name
    simp only [Settings.get?_foldl_overwrite_entries, merge,
      NameMap.get?_onto, Option.getD_or]
  unfold overwrite at *
  rw [hLater, hMerge, settingsBefore_of_kindOf hLater,
    settingsBefore_of_kindOf hp,
    settingsBefore_of_kindOf hMerge, hSettings]
  simp only [merge, Option.getD_or, hp]

/- What both patches may change, both in one may change. -/
theorem allows_merge
    {k : StepKind}
    (hp : ∀ entry ∈ p.settings.entries, k.Allows entry)
    (hq : ∀ entry ∈ q.settings.entries, k.Allows entry) :
    ∀ entry ∈ (p.merge q).settings.entries,
      k.Allows entry := by
  rintro ⟨name, value⟩ hEntry
  have hFound :=
    ((p.merge q).settings.mem_entries_iff name value).mp hEntry
  unfold merge at hFound
  rw [NameMap.get?_onto, Option.or_eq_some_iff] at hFound
  rcases hFound with hUpper | ⟨-, hLower⟩
  · exact hq _ ((q.settings.mem_entries_iff _ _).mpr hUpper)
  · exact hp _ ((p.settings.mem_entries_iff _ _).mpr hLower)

end Patch

------------------------------------------------------------
-- Changed Nodes
------------------------------------------------------------

namespace Flow

variable {t t' t₁ t₂ : Flow}
variable {id : String}
variable {n : Node}
variable {p q : Patch}

/- The nodes after a change: one of them is overwritten. -/
theorem get?_of_update
    (hNode : t.get? id = some n)
    (hUpdate : t.update id p = .ok t')
    (x : String) :
    t'.get? x =
      if x = id then some (p.overwrite n) else t.get? x := by
  rcases update_eq_ok_iff.mp hUpdate with
    ⟨m, hFound, -, -, -, rfl⟩
  rw [hNode] at hFound
  cases hFound
  exact t.nodes.get?_insert id x _

/- No list of children changes. -/
theorem childIds_of_update
    (hUpdate : t.update id p = .ok t')
    (x : String) : t'.childIds x = t.childIds x := by
  rcases update_eq_ok_iff.mp hUpdate with ⟨n, hNode, -⟩
  unfold childIds
  rw [get?_of_update hNode hUpdate]
  by_cases hHere : x = id
  · rw [if_pos hHere, hHere, hNode]
    rfl
  · rw [if_neg hHere]

/- No key changes but that of the node. -/
theorem hasKey_of_update
    (hUpdate : t.update id p = .ok t')
    {x : String}
    (hNe : x ≠ id)
    (key : Option Key) :
    t'.hasKey key x = t.hasKey key x := by
  rcases update_eq_ok_iff.mp hUpdate with ⟨n, hNode, -⟩
  unfold hasKey
  rw [get?_of_update hNode hUpdate, if_neg hNe]

/- So the same keys fit before and after. -/
theorem keyFits_of_update
    {parent : Option String}
    {key : Option Key}
    (hUpdate : t.update id p = .ok t')
    (hFits : t'.KeyFits id parent key) :
    t.KeyFits id parent key where
  top := hFits.top
  free := by
    intro a hParent c hChild hNe
    rw [← hasKey_of_update hUpdate hNe]
    rw [← childIds_of_update hUpdate] at hChild
    exact hFits.free a hParent c hChild hNe

/-
  The key that two patches leave is allowed at once.  If it is
  not looked at by the second patch, then the first one set
  it, or it has been the key from the beginning.
-/
theorem allowsKey_merge
    (hUpdate : t.update id p = .ok t₁)
    (hFirst : t.AllowsKey id n p.key)
    (hSecond : t₁.AllowsKey id (p.overwrite n) q.key) :
    t.AllowsKey id n (p.merge q).key := by
  intro key hKey hChanged
  rcases Option.or_eq_some_iff.mp hKey with
    hLater | ⟨-, hEarlier⟩
  · by_cases hStays : key = (p.overwrite n).key
    · have hSame : key = p.key.getD n.key := hStays
      cases hNamed : p.key with
      | none =>
          rw [hNamed] at hSame
          exact absurd hSame hChanged
      | some named =>
          rw [hNamed] at hSame
          exact hFirst key (hSame ▸ hNamed) hChanged
    · exact keyFits_of_update hUpdate
        (hSecond key hLater hStays)
  · exact hFirst key hEarlier hChanged

/-
  Two patches of a node that keep its kind, accepted one after
  the other.  Both in one are accepted by the flow from before
  and leave the same flow, only that the version is one on
  instead of two.
-/
theorem patches_merge
    (hNode : t.get? id = some n)
    (hp : p.kindOf n = n.kind)
    (hq : q.kindOf n = n.kind)
    (hFirst : t.update id p = .ok t₁)
    (hSecond : t₁.update id q = .ok t₂) :
    t.update id (p.merge q) =
        .ok { t₂ with version := t₁.version } ∧
      t₁.version = t.version + 1 ∧
      t₂.version = t₁.version + 1 := by
  have hLater : t₁.get? id = some (p.overwrite n) := by
    rw [get?_of_update hNode hFirst, if_pos rfl]
  rcases update_eq_ok_iff.mp hFirst with
    ⟨m, hFound, hSettings₁, hKey₁, hNext, hResult₁⟩
  rw [hNode] at hFound
  cases hFound
  rcases update_eq_ok_iff.mp hSecond with
    ⟨m, hFound, hSettings₂, hKey₂, -, hResult₂⟩
  rw [hLater] at hFound
  cases hFound
  have hKind : q.kindOf (p.overwrite n) = n.kind := by
    show q.kind.getD (p.kindOf n) = n.kind
    rw [hp]
    exact hq
  rw [hp] at hSettings₁
  rw [hKind] at hSettings₂
  refine ⟨update_eq_ok_iff.mpr
    ⟨n, hNode, ?_, allowsKey_merge hFirst hKey₁ hKey₂, hNext,
      ?_⟩, ?_, ?_⟩
  · rw [Patch.kindOf_merge hp hq]
    exact Patch.allows_merge hSettings₁ hSettings₂
  · rw [hResult₂, hResult₁,
      Patch.overwrite_overwrite hp hq]
    simp only [NameMap.insert_insert]
  · rw [hResult₁]
  · rw [hResult₂]

/-
  An entry for a key gets another key, other options and a
  label.  Then it gets its first key back, and the options are
  removed again.
-/
theorem patches_merge_restored :
    let t := (Flow.new "Hotline").run
      [.add firstRootId .agent "Sales" (some (.digit 1)),
        .add firstRootId .hangup "Bye" (some (.digit 2))]
    let n := Node.fresh .agent "Sales" (some (.digit 1))
      (some firstRootId)
    let p : Patch :=
      { Patch.empty with
        label := some "Office"
        settings := .ofList
          [("options", some (.text "tT")),
            ("queue", some (.text "sales"))]
        key := some (some .star) }
    let q : Patch :=
      { Patch.empty with
        settings := .ofList [("options", none)]
        key := some (some (.digit 1)) }
    let t₁ := t.after (.update "n1" p)
    let t₂ := t₁.after (.update "n1" q)
    t.Reachable ∧
      t.get? "n1" = some n ∧
      p.kindOf n = n.kind ∧ q.kindOf n = n.kind ∧
      t.update "n1" p = .ok t₁ ∧ t₁.update "n1" q = .ok t₂ ∧
      t.update "n1" (p.merge q) =
        .ok { t₂ with version := t₁.version } ∧
      (t₂.get? "n1").map Node.key = some (some (.digit 1)) ∧
      t₂.version = t.version + 2 := by
  intro t n p q t₁ t₂
  have hReachable : t.Reachable :=
    ⟨Flow.new "Hotline", _, Or.inl ⟨"Hotline", rfl⟩, rfl⟩
  have hNode : t.get? "n1" = some n := by decide +kernel
  have hFirst : t.update "n1" p = .ok t₁ := by rfl
  have hSecond : t₁.update "n1" q = .ok t₂ := by rfl
  exact
    ⟨hReachable, hNode, rfl, rfl, hFirst, hSecond,
      (patches_merge hNode rfl rfl hFirst hSecond).1,
      by decide +kernel, by decide +kernel⟩

end Flow

end CallFlow
