import CallFlow.Proofs.Flow.Ancestors
import CallFlow.Proofs.Flow.Committing

/-
  Edits without checks: what an edit writes, whether or not
  the flow that it leaves is any good.

  They say what the checks of an edit are for.  An edit that
  passes them writes what the unchecked edit does, apart from
  a move of a node under the parent that it has, which writes
  nothing.  A change of a node passes them exactly if each
  setting could be overwritten and the key fits.

  Main declarations:
    * `Patch.overwrite`
    * `Flow.unchecked`
    * `Edit.Known`
    * `StepKind.Allows`
    * `Flow.KeyFits`
    * `Flow.AllowsKey`
    * `Flow.update_eq_ok_iff`
    * `Flow.eq_unchecked_of_written`
    * `Flow.eq_unchecked_of_apply`
-/

namespace CallFlow

------------------------------------------------------------
-- Unchecked Edits
------------------------------------------------------------

/- Put a setting, or remove it, whatever its value is. -/
def Settings.overwrite
    (s : Settings)
    (entry : String × Option Value) : Settings :=
  match entry.2 with
  | some v => s.insert entry.1 v
  | none => s.erase entry.1

namespace Patch

/- The kind that a patch leaves a node with. -/
def kindOf
    (p : Patch)
    (n : Node) : StepKind :=
  p.kind.getD n.kind

/- The settings that a patch starts from. -/
def settingsBefore
    (p : Patch)
    (n : Node) : Settings :=
  if p.kindOf n = n.kind then n.settings
  else (p.kindOf n).initialSettings

/- Overwrite the fields of a node that a patch names. -/
def overwrite
    (p : Patch)
    (n : Node) : Node :=
  { n with
    kind := p.kindOf n
    label := p.label.getD n.label
    settings :=
      p.settings.entries.foldl Settings.overwrite
        (p.settingsBefore n)
    key := p.key.getD n.key }

end Patch

namespace Flow

/- What an edit writes if nothing is checked for it. -/
def unchecked
    (t : Flow) : Edit → Flow
  | .add parent kind label key =>
      match t.freshId? with
      | none => t
      | some (id, next) =>
          let nodes :=
            t.nodes.insert id
              (Node.fresh kind label key (some parent))
          { t with
            nodes := linkChild nodes parent id
            nextId := next }
  | .update id p =>
      { t with nodes := t.nodes.modify id p.overwrite }
  | .move id newParent =>
      let left := unlinkFrom? t.nodes (t.parentId? id) id
      { t with
        nodes :=
          (linkChild left newParent id).modify id fun n =>
            { n with parent := some newParent } }
  | .delete id =>
      let left := unlinkFrom? t.nodes (t.parentId? id) id
      { t with
        nodes := left.eraseAll (id :: t.descendants id) }

end Flow

/-
  An edit speaks of nodes that a flow has: an id is left for
  a node to be added, and settings to be removed are known
  to the kind that a patch leaves.
-/
def Edit.Known
    (t : Flow) : Edit → Prop
  | .add parent _ _ _ =>
      t.contains parent = true ∧ t.freshId?.isSome = true
  | .update id p =>
      ∃ n, t.get? id = some n ∧
        ∀ name, p.settings.get? name = some none →
          ((p.kindOf n).param? name).isSome = true
  | .move id newParent =>
      t.contains id = true ∧ t.contains newParent = true
  | .delete id => t.contains id = true

------------------------------------------------------------
-- Overwritten Settings
------------------------------------------------------------

namespace Settings

/- Looking up after one setting was overwritten. -/
theorem get?_overwrite
    (s : Settings)
    (entry : String × Option Value)
    (name : String) :
    (s.overwrite entry).get? name =
      if name = entry.1 then entry.2 else s.get? name := by
  rcases entry with ⟨changed, value⟩
  cases value with
  | some v => exact s.get?_insert changed name v
  | none => exact s.get?_erase changed name

/- Settings that are not named are not overwritten. -/
private theorem get?_foldl_overwrite_of_forall_ne
    {entries : List (String × Option Value)}
    {name : String}
    (h : ∀ entry ∈ entries, entry.1 ≠ name)
    (s : Settings) :
    (entries.foldl overwrite s).get? name =
      s.get? name := by
  induction entries generalizing s with
  | nil => rfl
  | cons entry rest ih =>
      have hRest : ∀ other ∈ rest, other.1 ≠ name :=
        fun other hOther =>
          h other (List.mem_cons_of_mem _ hOther)
      have hFirst := h entry List.mem_cons_self
      rw [List.foldl_cons, ih hRest, get?_overwrite,
        if_neg (Ne.symm hFirst)]

/- A setting that is named is overwritten for good. -/
theorem get?_foldl_overwrite
    {entries : List (String × Option Value)}
    {name : String}
    {value : Option Value}
    (hOrdered : Entries.Ordered entries)
    (hMem : (name, value) ∈ entries)
    (s : Settings) :
    (entries.foldl overwrite s).get? name = value := by
  induction entries generalizing s with
  | nil => cases hMem
  | cons entry rest ih =>
      rcases List.pairwise_cons.mp hOrdered with
        ⟨hHead, hRest⟩
      rw [List.foldl_cons]
      rcases List.mem_cons.mp hMem with hHere | hLater
      · subst hHere
        have hNe : ∀ other ∈ rest, other.1 ≠ name :=
          fun other hOther =>
            Ne.symm (String.ne_of_lt (hHead other hOther))
        rw [get?_foldl_overwrite_of_forall_ne hNe,
          get?_overwrite, if_pos rfl]
      · exact ih hRest hLater _

end Settings

/- Looking up after a whole map was overwritten. -/
theorem Settings.get?_foldl_overwrite_entries
    (changes : NameMap (Option Value))
    (s : Settings)
    (name : String) :
    (changes.entries.foldl overwrite s).get? name =
      (changes.get? name).getD (s.get? name) := by
  cases hChange : changes.get? name with
  | none =>
      refine get?_foldl_overwrite_of_forall_ne ?_ s
      rintro ⟨other, value⟩ hEntry rfl
      rw [(changes.mem_entries_iff other value).mp hEntry]
        at hChange
      cases hChange
  | some value =>
      exact get?_foldl_overwrite changes.ordered
        ((changes.mem_entries_iff name value).mpr hChange) s

------------------------------------------------------------
-- Allowed Changes
------------------------------------------------------------

/-
  A change of a setting that a kind allows: the value could be
  written, or what is removed is a setting of the kind.
-/
def StepKind.Allows
    (k : StepKind)
    (entry : String × Option Value) : Prop :=
  match entry.2 with
  | some v => k.check entry.1 v = .ok ()
  | none => (k.param? entry.1).isSome = true

/- Changes that are allowed overwrite a setting. -/
theorem StepKind.change_eq_ok_iff
    {k : StepKind}
    {s s' : Settings}
    {entry : String × Option Value} :
    k.change s entry = .ok s' ↔
      k.Allows entry ∧ s' = s.overwrite entry := by
  rcases entry with ⟨name, value⟩
  cases value with
  | some v =>
      unfold change Allows
      rw [bind_eq_ok_iff]
      constructor
      · rintro ⟨u, hCheck, hDone⟩
        cases hDone
        exact ⟨hCheck, rfl⟩
      · rintro ⟨hCheck, rfl⟩
        exact ⟨(), hCheck, rfl⟩
  | none =>
      unfold change Allows
      simp only
      split
      · rename_i hParam
        constructor
        · rintro ⟨⟩
          exact ⟨hParam, rfl⟩
        · rintro ⟨-, rfl⟩
          rfl
      · rename_i hParam
        exact iff_of_false nofun fun h => hParam h.1

/- They are made in turn, if all of them are allowed. -/
theorem StepKind.foldlM_change_eq_ok_iff
    {k : StepKind}
    {entries : List (String × Option Value)}
    {s s' : Settings} :
    entries.foldlM k.change s = .ok s' ↔
      (∀ entry ∈ entries, k.Allows entry) ∧
        s' = entries.foldl Settings.overwrite s := by
  induction entries generalizing s with
  | nil =>
      rw [List.foldlM_nil, List.foldl_nil]
      constructor
      · rintro ⟨⟩
        exact ⟨nofun, rfl⟩
      · rintro ⟨-, rfl⟩
        rfl
  | cons entry rest ih =>
      rw [List.foldlM_cons, bind_eq_ok_iff,
        List.forall_mem_cons, List.foldl_cons]
      simp only [change_eq_ok_iff, ih]
      constructor
      · rintro ⟨next, ⟨hFirst, rfl⟩, hRest, hDone⟩
        exact ⟨⟨hFirst, hRest⟩, hDone⟩
      · rintro ⟨⟨hFirst, hRest⟩, hDone⟩
        exact ⟨_, ⟨hFirst, rfl⟩, hRest, hDone⟩

namespace Flow

/- The settings after a patch are the overwritten ones. -/
theorem patchedSettings_eq_ok_iff
    {n : Node}
    {p : Patch}
    {settings : Settings} :
    patchedSettings n p = .ok settings ↔
      (∀ entry ∈ p.settings.entries,
        (p.kindOf n).Allows entry) ∧
        settings = (p.overwrite n).settings := by
  unfold patchedSettings
  rw [mapError_eq_ok_iff]
  exact StepKind.foldlM_change_eq_ok_iff

/-
  A key fits a node that is the child of another if it is free
  among the siblings.  Without a parent only no key fits.
-/
structure KeyFits
    (t : Flow)
    (id : String)
    (parent : Option String)
    (key : Option Key) : Prop where
  top : parent = none → key = none
  free :
    ∀ p, parent = some p → ∀ c ∈ t.childIds p, c ≠ id →
      t.hasKey key c = false

/-
  A change of a key that a flow allows: a key that stays is
  not looked at, and any other one fits.
-/
def AllowsKey
    (t : Flow)
    (id : String)
    (n : Node)
    (change : Option (Option Key)) : Prop :=
  ∀ key, change = some key → key ≠ n.key →
    t.KeyFits id n.parent key

/- Nothing is asked of a patch that says nothing of a key. -/
theorem allowsKey_none
    (t : Flow)
    (id : String)
    (n : Node) : t.AllowsKey id n none :=
  nofun

/- The key after a patch is the one that it names, if any. -/
theorem patchedKey_eq_ok_iff
    {t : Flow}
    {id : String}
    {n : Node}
    {change : Option (Option Key)}
    {key : Option Key} :
    t.patchedKey id n change = .ok key ↔
      t.AllowsKey id n change ∧ key = change.getD n.key := by
  unfold patchedKey
  split
  · rw [Except.ok.injEq,
      and_iff_right (t.allowsKey_none id n)]
    exact eq_comm
  · rename_i named
    split
    · rename_i hSame
      have hAllows : t.AllowsKey id n (some named) := by
        rintro other ⟨⟩ hNe
        exact absurd hSame hNe
      rw [Except.ok.injEq, and_iff_right hAllows, ← hSame]
      exact eq_comm
    · rename_i hChanged
      have hAllows :
          t.AllowsKey id n (some named) ↔
            t.KeyFits id n.parent named :=
        ⟨fun h => h named rfl hChanged,
          fun h key hKey _ => Option.some.inj hKey ▸ h⟩
      rw [hAllows, Option.getD_some]
      cases n.parent with
      | none =>
          cases named with
          | some k =>
              refine iff_of_false nofun fun h => ?_
              cases h.1.top rfl
          | none =>
              have hFits : t.KeyFits id none none :=
                ⟨fun _ => rfl, nofun⟩
              show Except.ok none = Except.ok key ↔ _
              rw [and_iff_right hFits, Except.ok.injEq]
              exact eq_comm
      | some p =>
          have hFits :
              t.KeyFits id (some p) named ↔
                ∀ c ∈ t.childIds p, c ≠ id →
                  t.hasKey named c = false :=
            ⟨fun h => h.free p rfl,
              fun h => ⟨nofun, fun q hq => by
                cases hq
                exact h⟩⟩
          simp only [hFits, bind_eq_ok_iff, checkKey_eq_ok_iff]
          constructor
          · rintro ⟨u, hFree, ⟨⟩⟩
            exact
              ⟨fun c hc hNe => hFree c hc (by simpa using hNe),
                rfl⟩
          · rintro ⟨hFree, rfl⟩
            exact
              ⟨(), fun c hc hNe =>
                hFree c hc (by simpa using hNe), rfl⟩

/-
  A change of a node passes the checks exactly if all it says
  is allowed, and it writes what is overwritten.
-/
theorem updated_eq_ok_iff
    {t t' : Flow}
    {id : String}
    {p : Patch} :
    t.updated id p = .ok t' ↔
      ∃ n, t.get? id = some n ∧
        (∀ entry ∈ p.settings.entries,
          (p.kindOf n).Allows entry) ∧
        t.AllowsKey id n p.key ∧
        t' =
          { t with
            nodes := t.nodes.insert id (p.overwrite n) } := by
  unfold updated
  simp only [bind_eq_ok_iff, node_eq_ok_iff,
    patchedSettings_eq_ok_iff, patchedKey_eq_ok_iff]
  constructor
  · rintro
      ⟨n, hNode, -, ⟨hSettings, rfl⟩, -, ⟨hKey, rfl⟩, ⟨⟩⟩
    exact ⟨n, hNode, hSettings, hKey, rfl⟩
  · rintro ⟨n, hNode, hSettings, hKey, rfl⟩
    exact
      ⟨n, hNode, _, ⟨hSettings, rfl⟩, _, ⟨hKey, rfl⟩, rfl⟩

/-
  A change of a node is accepted exactly if all it says is
  allowed and there is a next version, and it leaves what is
  overwritten at that version.
-/
theorem update_eq_ok_iff
    {t t' : Flow}
    {id : String}
    {p : Patch} :
    t.update id p = .ok t' ↔
      ∃ n, t.get? id = some n ∧
        (∀ entry ∈ p.settings.entries,
          (p.kindOf n).Allows entry) ∧
        t.AllowsKey id n p.key ∧ t.HasNext ∧
        t' =
          { t with
            nodes := t.nodes.insert id (p.overwrite n)
            version := t.version + 1 } := by
  unfold update
  simp only [bind_eq_ok_iff, mapError_eq_ok_iff,
    updated_eq_ok_iff, commit_eq_ok_iff]
  constructor
  · rintro
      ⟨-, ⟨n, hNode, hSettings, hKey, rfl⟩, hNext, rfl⟩
    exact ⟨n, hNode, hSettings, hKey, hNext, rfl⟩
  · rintro ⟨n, hNode, hSettings, hKey, hNext, rfl⟩
    exact
      ⟨_, ⟨n, hNode, hSettings, hKey, rfl⟩, hNext, rfl⟩

------------------------------------------------------------
-- What Is Written
------------------------------------------------------------

section Written

variable {t : Flow} {id : String} {n : Node}

theorem unchecked_add
    {next : UInt64}
    (hFresh : t.freshId? = some (id, next))
    (parent : String)
    (kind : StepKind)
    (label : String)
    (key : Option Key) :
    t.unchecked (.add parent kind label key) =
      { t with
        nodes :=
          linkChild
            (t.nodes.insert id
              (Node.fresh kind label key (some parent)))
            parent id
        nextId := next } := by
  simp only [unchecked, hFresh]

theorem unchecked_update
    (hNode : t.get? id = some n)
    (p : Patch) :
    t.unchecked (.update id p) =
      { t with
        nodes := t.nodes.insert id (p.overwrite n) } := by
  simp only [unchecked, NameMap.modify_eq_insert hNode]

theorem unchecked_move
    (hNode : t.get? id = some n)
    (newParent : String) :
    t.unchecked (.move id newParent) =
      { t with
        nodes :=
          (linkChild (unlinkFrom? t.nodes n.parent id)
              newParent id).modify id fun n =>
            { n with parent := some newParent } } := by
  simp only [unchecked, parentId?_of_get? hNode]

theorem unchecked_delete
    (hNode : t.get? id = some n) :
    t.unchecked (.delete id) =
      { t with
        nodes :=
          (unlinkFrom? t.nodes n.parent id).eraseAll
            (id :: t.descendants id) } := by
  simp only [unchecked, parentId?_of_get? hNode]

end Written

------------------------------------------------------------
-- Checked Edits
------------------------------------------------------------

/-
  An edit that passes its checks writes what the unchecked
  one does.  Only where a node is moved under its own parent
  nothing is written, and the node stays in its place instead
  of becoming the last child.
-/
theorem eq_unchecked_of_written
    {t : Flow}
    {e : Edit}
    {w : Option Flow}
    {made : Option String}
    (h : t.written e = .ok (w, made)) :
    w = some (t.unchecked e) ∨
      w = none ∧ ∃ id parent, e = .move id parent ∧
        t.parentId? id = some parent := by
  cases e with
  | add parent kind label key =>
      rcases bind_eq_ok_iff.mp h with ⟨⟨t₁, id⟩, hAdded, ⟨⟩⟩
      rcases added_eq_ok hAdded with
        ⟨p, next, -, -, hFresh, hResult⟩
      refine Or.inl ?_
      rw [hResult, unchecked_add hFresh]
  | update id p =>
      rcases bind_eq_ok_iff.mp h with ⟨t₁, hUpdated, ⟨⟩⟩
      rcases updated_eq_ok_iff.mp hUpdated with
        ⟨n, hNode, -, -, hResult⟩
      refine Or.inl ?_
      rw [hResult, unchecked_update hNode]
  | move id newParent =>
      rcases bind_eq_ok_iff.mp h with ⟨t₁, hMoved, ⟨⟩⟩
      rcases moved_eq_ok hMoved with
        ⟨n, p, hNode, -, -, -, -, hStays | hLeaves⟩
      · refine Or.inr ⟨hStays.2, id, newParent, rfl, ?_⟩
        rw [parentId?_of_get? hNode, hStays.1]
      · refine Or.inl ?_
        rw [hLeaves.2.2, unchecked_move hNode]
  | delete id =>
      rcases bind_eq_ok_iff.mp h with
        ⟨⟨t₁, removed⟩, hDeleted, ⟨⟩⟩
      rcases deleted_eq_ok hDeleted with
        ⟨n, hNode, -, hRemoved, hResult⟩
      refine Or.inl ?_
      rw [hResult, unchecked_delete hNode, hRemoved]

/- Without checks the version is not counted either. -/
theorem version_unchecked
    (t : Flow)
    (e : Edit) : (t.unchecked e).version = t.version := by
  cases e with
  | add parent kind label key =>
      unfold unchecked
      cases t.freshId? <;> rfl
  | _ => rfl

/-
  An accepted edit leaves what the unchecked one writes, one
  version on, or else moves a node under its own parent and
  leaves the flow.
-/
theorem eq_unchecked_of_apply
    {t t' : Flow}
    {e : Edit}
    {made : Option String}
    (h : t.apply e = .ok (t', made)) :
    t' = (t.unchecked e).atVersion (t.version + 1) ∨
      ∃ id parent, e = .move id parent ∧
        t.parentId? id = some parent ∧ t' = t := by
  rcases apply_eq_ok_iff.mp h with ⟨w, hWritten, hCounted⟩
  rcases eq_unchecked_of_written hWritten with
    rfl | ⟨rfl, id, parent, hMove, hParent⟩
  · rcases counted_eq_ok_iff.mp hCounted with
      ⟨⟨⟩, -⟩ | ⟨f, ⟨⟩, -, rfl⟩
    rw [version_unchecked]
    exact Or.inl rfl
  · rcases counted_eq_ok_iff.mp hCounted with
      ⟨-, rfl⟩ | ⟨f, ⟨⟩, -⟩
    exact Or.inr ⟨id, parent, hMove, hParent, rfl⟩

/-
  An edit that stops leaves what the unchecked one writes, and
  does so at the last version.
-/
theorem eq_unchecked_of_stopped
    {t left : Flow}
    {e : Edit}
    (h : t.apply e = .error (.stopped left)) :
    ¬ t.HasNext ∧ left = t.unchecked e := by
  rcases apply_eq_stopped_iff.mp h with ⟨-, made, hWritten⟩
  rcases eq_unchecked_of_written hWritten with
    ⟨⟨⟩⟩ | ⟨⟨⟩, -⟩
  exact ⟨(exists_apply_of_stopped h).1, rfl⟩

end Flow

end CallFlow
