import CallFlow.Compile.Layout
import CallFlow.Proofs.Compile.PlanWalk

/-
  The blocks of a layout have distinct names.

  The name of a nested block spells the way to it, with a
  dash before the word for each choice.  The words hold no
  dash and differ for different choices, so two names part
  where their ways do.

  Main declarations:
    * `Layout.Below`
    * `Layout.key_eq_of_atOrBelow`
    * `Layout.mem_nestedAll_iff`
    * `Layout.nodup_names_named`
    * `Layout.mem_blocks_iff`
    * `Layout.map_name_blocks`
    * `Layout.map_index_blocks`
-/

namespace CallFlow

namespace Layout

variable {y : Layout}

------------------------------------------------------------
-- Words
------------------------------------------------------------

/- The word for a choice in the name of a nested block. -/
def word
    (key : Option Key) : List Char :=
  ((key.map Key.token).getD "invalid").toList

/- The keys of choices, with the absent one. -/
private theorem mem_keys
    (key : Option Key) :
    key ∈ none :: Key.all.map some := by
  cases key with
  | none => exact List.mem_cons_self
  | some k =>
      exact List.mem_cons_of_mem none
        (List.mem_map_of_mem k.mem_all)

/- No word holds a dash. -/
private theorem dash_not_mem_word
    (key : Option Key) : '-' ∉ word key := by
  have hAll :
      ∀ key ∈ none :: Key.all.map some, '-' ∉ word key := by
    decide +kernel
  exact hAll key (mem_keys key)

/- Different choices have different words. -/
private theorem word_injective
    {key key' : Option Key}
    (h : word key = word key') : key = key' := by
  have hAll :
      ∀ key ∈ none :: Key.all.map some,
        ∀ key' ∈ none :: Key.all.map some,
          word key = word key' → key = key' := by
    decide +kernel
  exact hAll key (mem_keys key) key' (mem_keys key') h

/- The name of a nested block is a name, a dash and a word. -/
private theorem toList_nestedName
    (name : String)
    (key : Option Key) :
    (nestedName name key).toList =
      name.toList ++ '-' :: word key := by
  simp [nestedName, word]

------------------------------------------------------------
-- Names Below a Name
------------------------------------------------------------

/- A name that goes on after another one and a dash. -/
def Below
    (name n : String) : Prop :=
  ∃ rest, n.toList = name.toList ++ '-' :: rest

/- No name is below itself. -/
private theorem not_below_self
    (name : String) : ¬ Below name name := by
  rintro ⟨rest, hName⟩
  have hLength := congrArg List.length hName
  rw [List.length_append, List.length_cons] at hLength
  omega

/- What is at or below the name of a choice is below. -/
private theorem below_of_nestedName
    {name n : String}
    {key : Option Key}
    (h :
      n = nestedName name key ∨
        Below (nestedName name key) n) : Below name n := by
  rcases h with hHere | ⟨rest, hRest⟩
  · refine ⟨word key, ?_⟩
    rw [hHere, toList_nestedName]
  · refine ⟨word key ++ '-' :: rest, ?_⟩
    rw [hRest, toList_nestedName]
    simp

/- A text splits at its first dash in only one way. -/
private theorem append_dash_cancel
    {w w' rest rest' : List Char}
    (hw : '-' ∉ w)
    (hw' : '-' ∉ w')
    (hRest : rest = [] ∨ ∃ r, rest = '-' :: r)
    (hRest' : rest' = [] ∨ ∃ r, rest' = '-' :: r)
    (h : w ++ rest = w' ++ rest') : w = w' := by
  have hTake : ∀ w rest : List Char, '-' ∉ w →
      (rest = [] ∨ ∃ r, rest = '-' :: r) →
        (w ++ rest).takeWhile (· != '-') = w := by
    intro w rest hw hRest
    have hPlain : ∀ c ∈ w, (c != '-') = true := by
      intro c hc
      have hNe : c ≠ '-' := fun hSame => hw (hSame ▸ hc)
      simpa using hNe
    rw [List.takeWhile_append_of_pos hPlain]
    rcases hRest with hNil | ⟨r, hCons⟩
    · rw [hNil]
      simp
    · rw [hCons]
      simp
  rw [← hTake w rest hw hRest, h, hTake w' rest' hw' hRest']

/- A name at or below those of two choices has one choice. -/
theorem key_eq_of_atOrBelow
    {name n : String}
    {key key' : Option Key}
    (h :
      n = nestedName name key ∨
        Below (nestedName name key) n)
    (h' :
      n = nestedName name key' ∨
        Below (nestedName name key') n) : key = key' := by
  have hSplit : ∀ key : Option Key,
      (n = nestedName name key ∨
          Below (nestedName name key) n) →
        ∃ rest, (rest = [] ∨ ∃ r, rest = '-' :: r) ∧
          n.toList =
            (name.toList ++ ['-']) ++ (word key ++ rest) := by
    intro key hKey
    rcases hKey with hHere | ⟨rest, hRest⟩
    · refine ⟨[], Or.inl rfl, ?_⟩
      rw [hHere, toList_nestedName]
      simp
    · refine ⟨'-' :: rest, Or.inr ⟨rest, rfl⟩, ?_⟩
      rw [hRest, toList_nestedName]
      simp
  rcases hSplit key h with ⟨rest, hRest, hName⟩
  rcases hSplit key' h' with ⟨rest', hRest', hName'⟩
  rw [hName] at hName'
  apply word_injective
  exact append_dash_cancel (dash_not_mem_word key)
    (dash_not_mem_word key') hRest hRest'
    (List.append_cancel_left hName')

------------------------------------------------------------
-- Nested Blocks
------------------------------------------------------------

/- The nested blocks of choices are those of each choice. -/
theorem mem_nestedAll_iff
    {name : String}
    {choices : List (Option Key × Plan)}
    {e : String × List Step} :
    e ∈ y.nestedAll name choices ↔
      ∃ c ∈ choices,
        e ∈ y.nested (nestedName name c.1) c.2 := by
  induction choices with
  | nil => simp [nestedAll]
  | cons c rest ih =>
      rcases c with ⟨key, p⟩
      unfold nestedAll
      rw [List.mem_append, ih]
      simp

/- The blocks of a plan have its name or one below it. -/
private theorem atOrBelow_of_mem_nested
    {p : Plan}
    {name : String}
    {e : String × List Step}
    (h : e ∈ y.nested name p) :
    e.1 = name ∨ Below name e.1 := by
  induction p using Plan.induct generalizing name with
  | leaf action endsCall => cases h
  | back => cases h
  | menu action choices ih =>
      unfold nested at h
      rcases List.mem_cons.mp h with hHere | hLater
      · rw [hHere]
        exact Or.inl rfl
      · rcases mem_nestedAll_iff.mp hLater with
          ⟨c, hc, hMem⟩
        exact Or.inr (below_of_nestedName (ih c hc hMem))

/- The blocks of choices have names below. -/
private theorem below_of_mem_nestedAll
    {choices : List (Option Key × Plan)}
    {name : String}
    {e : String × List Step}
    (h : e ∈ y.nestedAll name choices) : Below name e.1 := by
  rcases mem_nestedAll_iff.mp h with ⟨c, hc, hMem⟩
  exact below_of_nestedName (atOrBelow_of_mem_nested hMem)

/- Choices with distinct keys have distinct block names. -/
private theorem nodup_names_nestedAll
    {choices : List (Option Key × Plan)}
    {name : String}
    (hKeys : (choices.map (·.1)).Nodup)
    (hNodup :
      ∀ c ∈ choices,
        ((y.nested (nestedName name c.1) c.2).map
          (·.1)).Nodup) :
    ((y.nestedAll name choices).map (·.1)).Nodup := by
  induction choices with
  | nil => exact List.nodup_nil
  | cons c rest ih =>
      rcases c with ⟨key, p⟩
      rw [List.map_cons, List.nodup_cons] at hKeys
      have hHead := hNodup (key, p) List.mem_cons_self
      have hRest := ih hKeys.2 fun d hd =>
        hNodup d (List.mem_cons_of_mem (key, p) hd)
      unfold nestedAll
      rw [List.map_append, List.nodup_append]
      refine ⟨hHead, hRest, ?_⟩
      intro n hn n' hn' hSame
      rcases List.mem_map.mp hn with ⟨e, he, hName⟩
      rcases List.mem_map.mp hn' with ⟨e', he', hName'⟩
      rcases mem_nestedAll_iff.mp he' with ⟨d, hd, hMem⟩
      have hAt := atOrBelow_of_mem_nested he
      have hAt' := atOrBelow_of_mem_nested hMem
      rw [hName', ← hSame, ← hName] at hAt'
      have hKey : key = d.1 := key_eq_of_atOrBelow hAt hAt'
      apply hKeys.1
      exact List.mem_map.mpr ⟨d, hd, hKey.symm⟩

/- The blocks of a keyed plan have distinct names. -/
private theorem nodup_names_nested
    {p : Plan}
    (hKeyed : p.Keyed)
    (name : String) :
    ((y.nested name p).map (·.1)).Nodup := by
  induction hKeyed generalizing name with
  | leaf => exact List.nodup_nil
  | back => exact List.nodup_nil
  | @menu action choices hKeys hChoices ih =>
      unfold nested
      rw [List.map_cons, List.nodup_cons]
      constructor
      · intro hMem
        rcases List.mem_map.mp hMem with ⟨e, he, hName⟩
        have hBelow := below_of_mem_nestedAll he
        rw [hName] at hBelow
        exact not_below_self name hBelow
      · exact nodup_names_nestedAll hKeys fun c hc =>
          ih c hc (nestedName name c.1)

/- The blocks of a layout have distinct names. -/
theorem nodup_names_named
    {p : Plan}
    (hKeyed : p.Keyed) :
    ((y.named p).map (·.1)).Nodup := by
  cases p with
  | leaf action endsCall =>
      unfold named
      simp
  | back => exact List.nodup_nil
  | menu action choices =>
      -- The names are those of the plan as a nested one.
      have hNodup :
          ((y.nested y.top (.menu action choices)).map
            (·.1)).Nodup := nodup_names_nested hKeyed y.top
      unfold nested at hNodup
      unfold named
      exact hNodup

------------------------------------------------------------
-- Numbered Blocks
------------------------------------------------------------

/- A block has the number of its place. -/
theorem mem_blocks_iff
    {p : Plan}
    {b : Block} :
    b ∈ y.blocks p ↔
      (y.named p)[b.index]? = some (b.name, b.steps) := by
  unfold blocks
  rw [List.mem_map]
  constructor
  · rintro ⟨⟨e, i⟩, hMem, rfl⟩
    exact List.mem_zipIdx_iff_getElem?.mp hMem
  · intro h
    exact
      ⟨((b.name, b.steps), b.index),
        List.mem_zipIdx_iff_getElem?.mpr h, rfl⟩

/- Blocks are named as they are laid out. -/
theorem map_name_blocks
    (y : Layout)
    (p : Plan) :
    (y.blocks p).map Block.name = (y.named p).map (·.1) := by
  unfold blocks
  rw [List.map_map, ← List.zipIdx_map_fst 0 (y.named p),
    List.map_map]
  simp

/- Blocks are numbered in order. -/
theorem map_index_blocks
    (y : Layout)
    (p : Plan) :
    (y.blocks p).map Block.index =
      List.range (y.blocks p).length := by
  unfold blocks
  rw [List.map_map, List.length_map, List.length_zipIdx,
    List.range_eq_range', ← List.zipIdx_map_snd 0 (y.named p)]
  rfl

end Layout

end CallFlow
