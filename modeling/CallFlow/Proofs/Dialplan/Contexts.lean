import CallFlow.Proofs.Compile.Grouping
import CallFlow.Proofs.Compile.Naming
import CallFlow.Proofs.Dialplan.Lines
import CallFlow.Proofs.Results

/-
  The contexts of a dialplan are read back from its text.

  A reader cuts the text into lines.  A line in brackets
  begins a context, and a line that starts with the word for
  an extension defines one, up to the first comma.  What is
  read from the text of a script is its blocks, each with one
  extension for each run of steps.

  The extension that blocks are entered at is an option, and
  every other one is fixed.  So an extension is defined twice
  exactly where the option names a key of the block, or what
  stands for other input or for none, which the check of the
  options does not rule out.

  Main declarations:
    * `Dialplan.readContexts`
    * `Dialplan.readContexts_render`
    * `Dialplan.nodup_extensions_iff`
    * `Compiler.readContexts_eq`
    * `Compiler.defined_once_iff`
-/

namespace CallFlow

namespace Dialplan

------------------------------------------------------------
-- Reading Contexts
------------------------------------------------------------

/- The name of the context that a line begins, if any. -/
def contextOf?
    (line : List Char) : Option String :=
  if line.head? = some '[' ∧ line.getLast? = some ']' then
    some (String.ofList (line.drop 1).dropLast)
  else none

/- The extension that a line defines, if any. -/
def extensionOf?
    (line : List Char) : Option String :=
  if "exten =>".toList.isPrefixOf line then
    some
      (String.ofList
        (((line.drop 8).dropWhile (· == ' ')).takeWhile
          (· != ',')))
  else none

/-
  The extensions that lines define before the first context,
  and the contexts with those that are defined in each.
-/
def contextsOf :
    List (List Char) →
      List String × List (String × List String)
  | [] => ([], [])
  | line :: rest =>
      let (loose, found) := contextsOf rest
      match contextOf? line with
      | some name => ([], (name, loose) :: found)
      | none =>
          match extensionOf? line with
          | some e => (e :: loose, found)
          | none => (loose, found)

/- The contexts of a dialplan with their extensions. -/
def readContexts
    (text : String) : List (String × List String) :=
  (contextsOf (Text.pieces (· == '\n') text.toList)).2

/- A line that begins a context. -/
private theorem contextsOf_context
    {line : List Char}
    {name : String}
    (h : contextOf? line = some name)
    (rest : List (List Char)) :
    contextsOf (line :: rest) =
      ([], (name, (contextsOf rest).1) ::
        (contextsOf rest).2) := by
  rw [contextsOf]
  simp only [h]

/- A line that defines an extension. -/
private theorem contextsOf_extension
    {line : List Char}
    {e : String}
    (hContext : contextOf? line = none)
    (h : extensionOf? line = some e)
    (rest : List (List Char)) :
    contextsOf (line :: rest) =
      (e :: (contextsOf rest).1, (contextsOf rest).2) := by
  rw [contextsOf]
  simp only [hContext, h]

/- Any other line. -/
private theorem contextsOf_other
    {line : List Char}
    (hContext : contextOf? line = none)
    (h : extensionOf? line = none)
    (rest : List (List Char)) :
    contextsOf (line :: rest) = contextsOf rest := by
  rw [contextsOf]
  simp only [hContext, h]

/- A line that starts with another character is not either. -/
private theorem contextsOf_of_head
    {c : Char}
    (hBracket : c ≠ '[')
    (hWord : c ≠ 'e')
    (line : List Char)
    (rest : List (List Char)) :
    contextsOf ((c :: line) :: rest) = contextsOf rest := by
  apply contextsOf_other
  · unfold contextOf?
    rw [if_neg]
    simp [hBracket]
  · unfold extensionOf?
    rw [if_neg]
    simp [hWord.symm]

------------------------------------------------------------
-- Reading Lines
------------------------------------------------------------

/- A text that can stand as an extension of its own. -/
private def Clear
    (s : String) : Prop :=
  ∀ c ∈ s.toList, c ∉ [' ', ',']

private instance
    (s : String) : Decidable (Clear s) :=
  List.decidableBAll (fun c => c ∉ [' ', ',']) s.toList

/- So can the extension of a label, if that of entries can. -/
private theorem clear_extension
    {entry : String}
    (h : Clear entry)
    (l : Label) : Clear (extension entry l) := by
  cases l with
  | entry => exact h
  | digit k =>
      have hAll : ∀ k ∈ Key.all, Clear k.text := by
        decide
      exact hAll k k.mem_all
  | invalid =>
      show Clear "i"
      decide
  | timeout =>
      show Clear "t"
      decide

/- A name that can be used can stand as an extension. -/
private theorem clear_of_usable
    {s : String}
    (h : Options.Usable s) : Clear s := by
  intro c hc hMem
  apply (Options.plain_of_isNameChar (h.isNameChar c hc)).1
  simp only [List.mem_cons, List.not_mem_nil, or_false]
    at hMem ⊢
  rcases hMem with hSpace | hComma
  · exact Or.inl hSpace
  · exact Or.inr (Or.inl hComma)

/- The first line of an extension defines it. -/
private theorem contextsOf_firstLine
    {entry : String}
    (h : Clear entry)
    (s : Step)
    (rest : List (List Char)) :
    contextsOf ((firstLine entry s).toList :: rest) =
      (extension entry s.label :: (contextsOf rest).1,
        (contextsOf rest).2) := by
  have hClear := clear_extension h s.label
  have hText :
      (firstLine entry s).toList =
        "exten =>".toList ++
          ' ' :: ((extension entry s.label).toList ++
            ',' :: '1' :: ((tagMark s.tag).toList ++
              ',' :: (application entry s.instr).toList)) := by
    simp [firstLine, String.toList_append]
  -- The extension has no blank and no comma, so it is all
  -- that stands between the arrow and the first comma.
  have hBlank :
      ∀ more : List Char,
        ((extension entry s.label).toList ++
            ',' :: more).dropWhile (· == ' ') =
          (extension entry s.label).toList ++ ',' :: more := by
    intro more
    cases hChars : (extension entry s.label).toList with
    | nil => rfl
    | cons c cs =>
        have hc : c ≠ ' ' := by
          rintro rfl
          apply hClear ' '
          · rw [hChars]
            exact List.mem_cons_self
          · exact List.mem_cons_self
        simp [hc]
  have hComma :
      ∀ c ∈ (extension entry s.label).toList,
        (c != ',') = true := by
    intro c hc
    have hNot := hClear c hc
    simp only [List.mem_cons, List.not_mem_nil, or_false,
      not_or] at hNot
    simpa using hNot.2
  rw [hText]
  refine contextsOf_extension ?_ ?_ rest
  · unfold contextOf?
    rw [if_neg]
    rintro ⟨hHead, -⟩
    cases hHead
  · unfold extensionOf?
    have hStarts :
        ∀ more : List Char,
          "exten =>".toList.isPrefixOf
            ("exten =>".toList ++ more) = true := by
      intro more
      rw [List.isPrefixOf_iff_prefix]
      exact List.prefix_append _ _
    have hDrop :
        ∀ more : List Char,
          ("exten =>".toList ++ more).drop 8 = more :=
      fun more => List.drop_left' (by decide)
    rw [if_pos (hStarts _), hDrop,
      List.dropWhile_cons_of_pos rfl, hBlank,
      List.takeWhile_append_of_pos hComma]
    simp

/- A line that goes on with an extension defines none. -/
private theorem contextsOf_nextLine
    (entry : String)
    (s : Step)
    (rest : List (List Char)) :
    contextsOf ((nextLine entry s).toList :: rest) =
      contextsOf rest := by
  have hText :
      ∃ line, (nextLine entry s).toList = ' ' :: line :=
    ⟨_, by simp [nextLine, String.toList_append]; rfl⟩
  rcases hText with ⟨line, hLine⟩
  rw [hLine]
  exact contextsOf_of_head (by decide) (by decide) line rest

/- An empty line defines nothing. -/
private theorem contextsOf_nil
    (rest : List (List Char)) :
    contextsOf ([] :: rest) = contextsOf rest :=
  contextsOf_other rfl rfl rest

/- Steps define an extension for each further run. -/
private theorem contextsOf_linesAfter
    {entry : String}
    (h : Clear entry)
    (before : Label)
    (steps : List Step)
    (rest : List (List Char)) :
    contextsOf
        ((linesAfter entry before steps).map String.toList ++
          rest) =
      ((runsAfter before steps).map (extension entry) ++
          (contextsOf rest).1,
        (contextsOf rest).2) := by
  induction steps generalizing before with
  | nil => rfl
  | cons s steps ih =>
      unfold linesAfter runsAfter
      split
      · rw [List.map_cons, List.cons_append,
          contextsOf_nextLine, ih]
      · rw [List.map_cons, List.map_cons, List.cons_append,
          List.cons_append, String.toList_empty,
          contextsOf_nil, contextsOf_firstLine h, ih]
        rfl

/- A block is a context with an extension for each run. -/
private theorem contextsOf_lines
    {entry : String}
    {b : Block}
    (h : Clear entry)
    (hName : Options.Usable b.name)
    (rest : List (List Char)) :
    contextsOf ((b.lines entry).map String.toList ++ rest) =
      ([], (b.name,
        b.runs.map (extension entry) ++
          (contextsOf rest).1) :: (contextsOf rest).2) := by
  have hSteps :
      contextsOf
          ((stepLines entry b.steps).map String.toList ++
            rest) =
        (b.runs.map (extension entry) ++ (contextsOf rest).1,
          (contextsOf rest).2) := by
    unfold stepLines Block.runs
    cases b.steps with
    | nil => rfl
    | cons s steps =>
        simp only [List.map_cons, List.cons_append]
        rw [contextsOf_firstLine h, contextsOf_linesAfter h]
  have hHead :
      contextOf? ("[" ++ b.name ++ "]").toList =
        some b.name := by
    have hText :
        ("[" ++ b.name ++ "]").toList =
          ('[' :: b.name.toList) ++ [']'] := by
      simp [String.toList_append]
    unfold contextOf?
    rw [hText, if_pos ⟨rfl, List.getLast?_concat⟩]
    simp
  unfold Block.lines
  rw [onOneLine_of_usable hName, List.map_cons, List.map_cons,
    List.cons_append, List.cons_append, String.toList_empty,
    contextsOf_nil, contextsOf_context hHead, hSteps]

/- Blocks are contexts, one after the other. -/
private theorem contextsOf_blocks
    {entry : String}
    {blocks : List Block}
    (h : Clear entry)
    (hNames : ∀ b ∈ blocks, Options.Usable b.name) :
    contextsOf
        ((blocks.flatMap fun b =>
            b.lines entry).map String.toList ++ [[]]) =
      ([], blocks.map fun b =>
        (b.name, b.runs.map (extension entry))) := by
  induction blocks with
  | nil => rfl
  | cons b rest ih =>
      rcases List.forall_mem_cons.mp hNames with
        ⟨hHere, hMore⟩
      rw [List.flatMap_cons, List.map_append,
        List.append_assoc, contextsOf_lines h hHere, ih hMore,
        List.append_nil]
      rfl

/-
  The contexts that are read from the text of a script are
  its blocks, with one extension for each run of steps.
-/
theorem readContexts_render
    {s : Script}
    (hEntry : Options.Usable s.entryExtension)
    (hNames : ∀ b ∈ s.blocks, Options.Usable b.name) :
    readContexts s.render =
      s.blocks.map fun b =>
        (b.name, b.runs.map (extension s.entryExtension)) := by
  have hHead : ∃ line, s.headLine.toList = ';' :: line := by
    have hFirst : s.headLine.toList.head? = some ';' := by
      unfold Script.headLine
      generalize Text.onOneLine s.flowName = name
      simp
    exact ⟨_, List.eq_cons_of_mem_head? hFirst⟩
  rcases hHead with ⟨line, hLine⟩
  have hSkip :=
    contextsOf_of_head (c := ';') (by decide) (by decide)
  unfold readContexts
  rw [pieces_render]
  unfold Script.lines
  rw [List.map_cons, List.cons_append, hLine, hSkip,
    escape_of_usable hEntry,
    contextsOf_blocks (clear_of_usable hEntry) hNames]

------------------------------------------------------------
-- Extensions Defined Once
------------------------------------------------------------

/- The label that an extension is for, if not the entry. -/
private def labelOf
    (e : String) : Label :=
  (Key.ofText? e).elim
    (if e = "i" then .invalid else .timeout) .digit

/- A label is read off its extension unless it is the entry. -/
private theorem labelOf_extension
    {l : Label}
    (hl : l ≠ .entry)
    (entry : String) : labelOf (extension entry l) = l := by
  cases l with
  | entry => exact absurd rfl hl
  | digit k =>
      show labelOf k.text = .digit k
      unfold labelOf
      rw [Key.ofText?_text]
      rfl
  | invalid =>
      show labelOf "i" = .invalid
      decide
  | timeout =>
      show labelOf "t" = .timeout
      decide

/-
  Labels have distinct extensions unless another one has the
  extension of the entry.
-/
theorem nodup_extensions_iff
    {entry : String}
    {labels : List Label}
    (hLabels : labels.Nodup)
    (hEntry : .entry ∈ labels) :
    (labels.map (extension entry)).Nodup ↔
      ∀ l ∈ labels, l ≠ .entry →
        extension entry l ≠ entry := by
  rw [List.nodup_map_iff_inj_on hLabels]
  constructor
  · intro hInj l hl hOther hSame
    exact hOther (hInj l hl .entry hEntry hSame)
  · intro hApart l hl l' hl' hSame
    -- All labels but the entry have fixed extensions, which
    -- differ, so two can only meet where one is the entry.
    by_cases hFirst : l = .entry
    · subst hFirst
      refine Classical.byContradiction fun hOther => ?_
      exact hApart l' hl' (Ne.symm hOther) hSame.symm
    · by_cases hSecond : l' = .entry
      · subst hSecond
        exact absurd hSame (hApart l hl hFirst)
      · rw [← labelOf_extension hFirst entry, hSame,
          labelOf_extension hSecond]

end Dialplan

namespace Compiler

variable {t : Flow}
variable {k : Compiler}
variable {r : Resolver}
variable {c : Compilation}

/-
  The contexts of the dialplan of a flow are the blocks of its
  script, and each has one extension for each label of its
  block.
-/
theorem readContexts_eq
    (h : k.compile t r = .ok c) :
    Dialplan.readContexts c.script.render =
      c.script.blocks.map fun b =>
        (b.name,
          b.labels.map
            (Dialplan.extension
              k.options.entryExtension)) := by
  rcases exists_chart h with ⟨hOptions, -, p, -, hScript⟩
  have hAccepted := Options.accepted_of_check hOptions
  have hEntry :
      c.script.entryExtension = k.options.entryExtension := by
    rw [hScript]
  rw [Dialplan.readContexts_render (hEntry ▸ hAccepted.2)
    (fun b hb => usable_name h hb), hEntry]
  refine List.map_congr_left fun b hb => ?_
  rcases exists_blockOf h hb with ⟨e, hBlock⟩
  rw [hBlock.runs_eq_labels.1]

/-
  The contexts of the dialplan of a flow are the blocks of its
  script, and each has one extension for each label of its
  block.  They are distinct, so that none is defined twice,
  exactly if the option for the entry names neither a key of
  the block nor what stands for other input or for none.
-/
theorem defined_once_iff
    (h : k.compile t r = .ok c) :
    Dialplan.readContexts c.script.render =
        c.script.blocks.map (fun b =>
          (b.name,
            b.labels.map
              (Dialplan.extension
                k.options.entryExtension))) ∧
      ∀ b ∈ c.script.blocks,
        (b.labels.map
          (Dialplan.extension
            k.options.entryExtension)).Nodup ↔
          ∀ l ∈ b.labels, l ≠ .entry →
            Dialplan.extension k.options.entryExtension l ≠
              k.options.entryExtension := by
  refine ⟨readContexts_eq h, fun b hb => ?_⟩
  rcases exists_blockOf h hb with ⟨e, hBlock⟩
  rcases hBlock.runs_eq_labels with ⟨-, hLabels, hFirst⟩
  exact Dialplan.nodup_extensions_iff hLabels hFirst

/- Extensions of blocks that are known by their labels. -/
private theorem map_extensions
    {blocks : List Block}
    {found : List (String × List Label)}
    (h : blocks.map (fun b => (b.name, b.labels)) = found)
    (entry : String) :
    blocks.map (fun b =>
        (b.name, b.labels.map (Dialplan.extension entry))) =
      found.map fun e =>
        (e.1, e.2.map (Dialplan.extension entry)) := by
  rw [← h, List.map_map]
  rfl

/- A menu with one key, which is entered as usual. -/
theorem defined_once_iff_standard :
    let t := (Flow.new Flow.unnamed).run
      [.update Flow.firstRootId
          { Patch.empty with
            settings :=
              NameMap.ofList
                [("audio", some (.text "hello"))] },
        .add Flow.firstRootId .hangup "Bye"
          (some (.digit 1))]
    ∃ c, (withOptions .standard).compile t .direct = .ok c ∧
      Dialplan.readContexts c.script.render =
        [("ivr-main", ["s", "1", "i", "t"])] ∧
      ∀ b ∈ c.script.blocks,
        (b.labels.map (Dialplan.extension "s")).Nodup := by
  intro t
  have hBlocks :
      ((withOptions .standard).compile t
          .direct).toOption.map (fun c =>
        c.script.blocks.map fun b =>
          (b.name, b.labels)) =
        some
          [("ivr-main",
            [.entry, .digit (.digit 1), .invalid,
              .timeout])] := by
    decide
  rcases exists_ok_of_toOption_map hBlocks with
    ⟨c, hCompile, hLabels⟩
  rcases defined_once_iff hCompile with ⟨hRead, hOnce⟩
  refine ⟨c, hCompile, ?_, fun b hb => (hOnce b hb).mpr ?_⟩
  · rw [hRead]
    exact (map_extensions hLabels "s").trans (by decide)
  · have hMem : (b.name, b.labels) ∈
        c.script.blocks.map fun b => (b.name, b.labels) :=
      List.mem_map.mpr ⟨b, hb, rfl⟩
    rw [hLabels, List.mem_singleton] at hMem
    rw [(Prod.mk.inj hMem).2]
    decide

/-
  Options with which a menu is entered where it answers other
  input are accepted, and what it does then is defined twice.
-/
theorem extension_defined_twice :
    let k := withOptions
      { Options.standard with entryExtension := "i" }
    let t := (Flow.new Flow.unnamed).run
      [.update Flow.firstRootId
          { Patch.empty with
            settings :=
              NameMap.ofList
                [("audio", some (.text "hello"))] },
        .add Flow.firstRootId .hangup "Bye"
          (some (.digit 1))]
    k.options.check = .ok () ∧
      ∃ c, k.compile t .direct = .ok c ∧
        Dialplan.readContexts c.script.render =
          [("ivr-main", ["i", "1", "i", "t"])] ∧
        ∃ e ∈ Dialplan.readContexts c.script.render,
          ¬ e.2.Nodup := by
  intro k t
  have hBlocks :
      (k.compile t .direct).toOption.map (fun c =>
        c.script.blocks.map fun b =>
          (b.name, b.labels)) =
        some
          [("ivr-main",
            [.entry, .digit (.digit 1), .invalid,
              .timeout])] := by
    decide
  rcases exists_ok_of_toOption_map hBlocks with
    ⟨c, hCompile, hLabels⟩
  rcases exists_chart hCompile with ⟨hOptions, -⟩
  have hRead :
      Dialplan.readContexts c.script.render =
        [("ivr-main", ["i", "1", "i", "t"])] :=
    (readContexts_eq hCompile).trans
      ((map_extensions hLabels "i").trans (by decide))
  refine ⟨hOptions, c, hCompile, hRead, ?_⟩
  rw [hRead]
  exact ⟨_, List.mem_cons_self, by decide⟩

end Compiler

end CallFlow
