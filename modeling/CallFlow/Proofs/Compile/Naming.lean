import CallFlow.Dialplan.Render
import CallFlow.Proofs.Compile.Outcome
import CallFlow.Proofs.Compile.Touring
import CallFlow.Proofs.Dialplan.Arguments

/-
  The names and the numbers of the blocks of a script.

  The blocks follow the tour of the flow.  The name of a block
  is that of the first one, with a word for each key on the
  way to its menu.  It is made of letters and digits in ASCII
  and a few marks, which neither end a line nor separate
  arguments, so that it stands in the dialplan as it is.

  Main declarations:
    * `Dialplan.Verbatim`
    * `Dialplan.verbatim_of_usable`
    * `Compiler.usable_blockName`
    * `Compiler.Heads`
    * `Compiler.usable_name`
    * `Compiler.blocks_follow_tour`
-/

namespace CallFlow

------------------------------------------------------------
-- Characters of Names
------------------------------------------------------------

namespace Text

/- Letters and digits are those of ASCII. -/
theorem toNat_lt_of_isAlphanum
    {c : Char}
    (h : c.isAlphanum = true) : c.toNat < 128 := by
  have hAtMost : ∀ d : Char, c.val ≤ d.val →
      d.toNat < 128 → c.toNat < 128 :=
    fun d hd hSmall =>
      Nat.lt_of_le_of_lt (UInt32.le_iff_toNat_le.mp hd) hSmall
  rcases Bool.or_eq_true_iff.mp h with hAlpha | hDigit
  · rcases Bool.or_eq_true_iff.mp hAlpha with hUpper | hLower
    · have hZ := (of_decide_eq_true hUpper).2
      exact hAtMost 'Z' hZ (by decide)
    · have hZ := (Bool.and_eq_true_iff.mp hLower).2
      exact hAtMost 'z' (of_decide_eq_true hZ) (by decide)
  · have hNine := (Bool.and_eq_true_iff.mp hDigit).2
    exact hAtMost '9' (of_decide_eq_true hNine) (by decide)

/- What holds of all of ASCII holds of letters and digits. -/
private theorem of_isAlphanum
    {P : Char → Prop}
    (hAll : ∀ n < 128, P (Char.ofNat n))
    {c : Char}
    (h : c.isAlphanum = true) : P c := by
  have hHere := hAll c.toNat (toNat_lt_of_isAlphanum h)
  rwa [Char.ofNat_toNat] at hHere

/- The lower case of a letter is a letter. -/
private theorem isAlphanum_toLower
    {c : Char}
    (h : c.isAlphanum = true) :
    c.toLower.isAlphanum = true := by
  refine of_isAlphanum
    (P := fun c => c.isAlphanum → c.toLower.isAlphanum)
    ?_ h h
  decide

end Text

namespace Options

/- A character of a name is no separator and can be seen. -/
theorem plain_of_isNameChar
    {c : Char}
    (h : isNameChar c = true) :
    c ∉ [' ', ',', ';'] ∧ Text.isControl c = false := by
  have hAlphanum : c.isAlphanum = true →
      c ∉ [' ', ',', ';'] ∧ Text.isControl c = false := by
    intro h
    refine Text.of_isAlphanum
      (P := fun c => c.isAlphanum →
        c ∉ [' ', ',', ';'] ∧ Text.isControl c = false) ?_ h h
    decide
  simp only [isNameChar, Bool.or_eq_true, beq_iff_eq] at h
  rcases h with (((h | h) | h) | h) | h
  · exact hAlphanum h
  · subst h
    decide
  · subst h
    decide
  · subst h
    decide
  · subst h
    decide

/- The characters of a name that can be used. -/
theorem Usable.isNameChar
    {s : String}
    (h : Usable s) :
    ∀ c ∈ s.toList, Options.isNameChar c = true := by
  have hName := (isName_iff s).mpr h
  unfold isName at hName
  rw [Bool.and_eq_true, List.all_eq_true] at hName
  exact hName.2

/- Names with another text behind them can be used. -/
theorem Usable.append
    {s s' : String}
    (h : Usable s)
    (h' : ∀ c ∈ s'.toList, Options.isNameChar c = true) :
    Usable (s ++ s') := by
  apply (isName_iff _).mp
  unfold isName
  rw [Bool.and_eq_true, List.all_eq_true]
  constructor
  · have hNe := h.1
    simp only [Bool.not_eq_true', ← Bool.not_eq_true,
      String.isEmpty_iff, String.append_eq_empty_iff]
    exact fun hBoth => hNe hBoth.1
  · intro c hc
    rw [String.toList_append] at hc
    rcases List.mem_append.mp hc with hFirst | hSecond
    · exact h.isNameChar c hFirst
    · exact h' c hSecond

end Options

------------------------------------------------------------
-- Names in the Dialplan
------------------------------------------------------------

namespace Dialplan

/- A name that can be used is no other when it is escaped. -/
theorem escape_of_usable
    {s : String}
    (h : Options.Usable s) : escape s = s := by
  have hEach : ∀ c ∈ s.toList, escapeChar c = [c] := by
    intro c hc
    rcases Options.plain_of_isNameChar
      (h.isNameChar c hc) with ⟨hOther, hPlain⟩
    simp only [List.mem_cons, List.not_mem_nil, or_false,
      not_or] at hOther
    simp [escapeChar, hOther, hPlain]
  apply String.toList_inj.mp
  rw [escape, String.toList_ofList, List.flatMap_congr hEach]
  simp

/- It is no other on a line of its own, either. -/
theorem onOneLine_of_usable
    {s : String}
    (h : Options.Usable s) : Text.onOneLine s = s := by
  have hEach : ∀ c ∈ s.toList,
      (if Text.isControl c then ' ' else c) = c := by
    intro c hc
    rcases Options.plain_of_isNameChar
      (h.isNameChar c hc) with ⟨-, hPlain⟩
    simp [hPlain]
  apply String.toList_inj.mp
  rw [Text.onOneLine, String.toList_ofList,
    List.map_congr_left hEach]
  simp

/-
  A name that is written as it is, both at the head of its
  block and in every jump to the block.
-/
structure Verbatim
    (name : String) : Prop where
  head :
    ∀ entry i steps, ((⟨i, name, steps⟩ : Block).lines
      entry)[1]? = some ("[" ++ name ++ "]")
  jump :
    ∀ entry l tag, application entry (.goto name l tag) =
      "Goto(" ++ name ++ "," ++ extension entry l ++ "," ++
        (tag.map Tag.name).getD "1" ++ ")"

/- A name that can be used is written as it is. -/
theorem verbatim_of_usable
    {name : String}
    (h : Options.Usable name) : Verbatim name where
  head := by
    intro entry i steps
    show some ("[" ++ Text.onOneLine name ++ "]") = _
    rw [onOneLine_of_usable h]
  jump := by
    intro entry l tag
    show "Goto(" ++ escape name ++ "," ++
      extension entry l ++ "," ++
        (tag.map Tag.name).getD "1" ++ ")" = _
    rw [escape_of_usable h]

end Dialplan

------------------------------------------------------------
-- Names of Blocks
------------------------------------------------------------

/- Whatever its name, a flow makes the end of a block name. -/
private theorem isNameChar_contextSlug
    (name : String) :
    ∀ c ∈ (Text.contextSlug name).toList,
      Options.isNameChar c = true := by
  intro c hc
  unfold Text.contextSlug at hc
  simp only at hc
  split at hc
  · have hFlow : "flow".toList.all Options.isNameChar := by
      decide
    exact List.all_eq_true.mp hFlow c hc
  · unfold Text.dashed at hc
    rw [String.toList_intercalate] at hc
    rcases Dialplan.mem_intercalate hc with hDash | ⟨w, hw, hIn⟩
    · have hJoint : "-".toList.all Options.isNameChar := by
        decide
      exact List.all_eq_true.mp hJoint c hDash
    · simp only [List.map_map, List.mem_map,
        Function.comp_apply] at hw
      rcases hw with ⟨v, hv, rfl⟩
      rw [String.toList_ofList] at hIn
      rcases List.mem_map.mp hIn with ⟨d, hd, rfl⟩
      have hWord := (Text.of_mem_words hv).2 d hd
      have hLower : d.toLower.isAlphanum = true :=
        Text.isAlphanum_toLower (by simpa using hWord)
      unfold Options.isNameChar
      rw [hLower]
      rfl

/- So do the words for keys, each after a dash. -/
private theorem isNameChar_join
    (way : List (Option Key)) :
    ∀ c ∈
      (String.join
        (way.map fun key =>
          "-" ++ (key.map Key.token).getD "invalid")).toList,
      Options.isNameChar c = true := by
  have hWords :
      ∀ key ∈ Plan.choiceOrder,
        ("-" ++ (key.map Key.token).getD
          "invalid").toList.all Options.isNameChar := by
    decide
  induction way with
  | nil => simp
  | cons key way ih =>
      intro c hc
      rw [List.map_cons, String.join_cons,
        String.toList_append] at hc
      rcases List.mem_append.mp hc with hFirst | hRest
      · have hHere := hWords key (Plan.mem_choiceOrder key)
        exact List.all_eq_true.mp hHere c hFirst
      · exact ih c hRest

/- A name that can be used begins those of blocks inside. -/
theorem Options.Usable.blockName
    {name : String}
    (h : Options.Usable name)
    (way : List (Option Key)) :
    Options.Usable (Layout.blockName name way) :=
  h.append (isNameChar_join way)

namespace Compiler

variable {t : Flow}
variable {k : Compiler}
variable {r : Resolver}
variable {c : Compilation}

/- The name of the first block can be used if the options can. -/
theorem usable_topName
    (h : k.options.Accepted)
    (t : Flow) : Options.Usable (k.topName t) := by
  have hDash : "-".toList.all Options.isNameChar := by
    decide
  exact (h.1.append (List.all_eq_true.mp hDash)).append
    (isNameChar_contextSlug t.name)

/- So can every block name. -/
theorem usable_blockName
    (h : k.options.Accepted)
    (t : Flow)
    (way : List (Option Key)) :
    Options.Usable (Layout.blockName (k.topName t) way) :=
  (usable_topName h t).blockName way

/-
  A block at the end of a way: it is named for the way, and
  begins with what is emitted for the node there, after the
  opening of the call if it is the first one.
-/
structure Heads
    (k : Compiler)
    (t : Flow)
    (r : Resolver)
    (e : List (Option Key) × String)
    (b : Block) : Prop where
  named : b.name = Layout.blockName (k.topName t) e.1
  begins :
    ∃ n action, t.get? e.2 = some n ∧
      k.emitters n.kind n (n.heard r) = .ok action ∧
      (if e.1 = [] then
          (Layout.mk k.options (k.topName t)).opening.map
            (Layout.plain .entry)
        else []) ++ Layout.actionSteps action <+: b.steps

/- The block of a node heads what is laid out for it. -/
private theorem heads_of_blockOf
    {e : List (Option Key) × String}
    {b : Block}
    (h :
      (Layout.mk k.options (k.topName t)).BlockOf t k r e
        b) : k.Heads t r e b := by
  cases h with
  | @menu opening action choices hName hChart hOpening
      hHolds =>
      rcases hChart.exists_node with ⟨n, hNode, hEmits⟩
      refine ⟨hName, n, action, hNode, hEmits, ?_⟩
      rw [hHolds.steps, Layout.menuSteps_eq, hOpening]
      simp only [List.append_assoc]
      rw [← List.append_assoc]
      exact List.prefix_append _ _
  | @leaf action endsCall hName hChart hFirst hSteps =>
      rcases hChart.exists_node with ⟨n, hNode, hEmits⟩
      refine ⟨hName, n, action, hNode, hEmits, ?_⟩
      rw [hSteps, if_pos hFirst, Layout.leafSteps,
        ← List.append_assoc]
      exact List.prefix_append _ _

/- The name of a block can be used. -/
theorem usable_name
    (h : k.compile t r = .ok c)
    {b : Block}
    (hBlock : b ∈ c.script.blocks) :
    Options.Usable b.name := by
  rcases exists_chart h with ⟨hOptions, -⟩
  rcases exists_blockOf h hBlock with ⟨e, hOf⟩
  rw [(heads_of_blockOf hOf).named]
  exact usable_blockName
    (Options.accepted_of_check hOptions) t e.1

/-
  The blocks of a script follow the tour of the flow, one for
  the root and for each menu that a way leads to, and are
  numbered in this order.  The first one is named for the
  flow, and the others for the ways to their menus.  No name
  comes twice, and each can be used and is written as it is.
-/
theorem blocks_follow_tour
    (h : k.compile t r = .ok c) :
    (∀ way x, (way, x) ∈ t.tour ↔
        t.follow? t.rootId way = some x) ∧
      List.Forall₂ (k.Heads t r) t.tour c.script.blocks ∧
      c.script.blocks.map Block.index =
        List.range c.script.blocks.length ∧
      (c.script.blocks.head?.map Block.name =
        some (k.options.contextStem ++ "-" ++
          Text.contextSlug t.name)) ∧
      (c.script.blocks.map Block.name).Nodup ∧
      ∀ b ∈ c.script.blocks,
        Options.Usable b.name ∧ Dialplan.Verbatim b.name := by
  rcases exists_chart h with
    ⟨-, hSound, p, hChart, hScript⟩
  have hHeads : List.Forall₂ (k.Heads t r) t.tour
      c.script.blocks :=
    (forall₂_blockOf h).imp fun e b => heads_of_blockOf
  refine
    ⟨fun way x => hSound.mem_tour_iff, hHeads, ?_, ?_, ?_,
      fun b hb =>
        ⟨usable_name h hb,
          Dialplan.verbatim_of_usable (usable_name h hb)⟩⟩
  · rw [hScript]
    exact Layout.map_index_blocks _ p
  · rw [hScript]
    cases p with
    | back => cases hChart
    | leaf action endsCall => rfl
    | menu action choices => rfl
  · rw [hScript, Layout.map_name_blocks]
    exact Layout.nodup_names_named hChart.keyed

/-
  A menu with one menu under a key, and another one as the
  fallback, which was listed first.
-/
theorem blocks_follow_tour_fallback :
    let set (name : String) (v : Value) : Patch :=
      { Patch.empty with
        settings := NameMap.ofList [(name, some v)] }
    let t := (Flow.new "Hot Line").run
      [.update Flow.firstRootId (set "audio" (.text "hello")),
        .add Flow.firstRootId .background "Other" none,
        .update "n1" (set "audio" (.text "other")),
        .add "n1" .hangup "Bye" (some .pound),
        .add Flow.firstRootId .collect "Code" (some (.digit 1)),
        .update "n3" (set "maxDigits" (.integer 4)),
        .add "n3" .hangup "Bye" (some .star)]
    let k := withOptions .standard
    ∃ c, k.compile t .direct = .ok c ∧
      List.Forall₂ (k.Heads t .direct)
        [([], Flow.firstRootId), ([some (.digit 1)], "n3"),
          ([none], "n1")] c.script.blocks ∧
      c.script.blocks.head?.map Block.name =
        some "ivr-hot-line" ∧
      (c.script.blocks.map Block.name).Nodup := by
  intro set t k
  have hCompiles : (k.compile t .direct).isOk = true := by
    decide
  cases hCompile : k.compile t .direct with
  | error e =>
      rw [hCompile] at hCompiles
      cases hCompiles
  | ok c =>
      rcases blocks_follow_tour hCompile with
        ⟨-, hHeads, -, hFirst, hNodup, -⟩
      have hTour :
          t.tour =
            [([], Flow.firstRootId), ([some (.digit 1)], "n3"),
              ([none], "n1")] := by
        decide
      have hName :
          k.options.contextStem ++ "-" ++
              Text.contextSlug t.name = "ivr-hot-line" := by
        decide
      rw [hTour] at hHeads
      rw [hName] at hFirst
      exact ⟨c, rfl, hHeads, hFirst, hNodup⟩

end Compiler

end CallFlow
