import CallFlow.Proofs.Dialplan.Lines
import Mathlib.Algebra.GroupWithZero.Nat
import Mathlib.Data.List.SplitBy

/-
  The lines of steps are read back from the text of a script.

  Steps of a block that follow each other under one label are
  a group.  A group is written line by line, the first line
  naming the extension, and an empty line stands between two
  groups.  No text of a script ends a line, so a reader that
  keeps what is neither empty nor a comment nor the head of a
  context finds one line for each step, in order, and the
  lines of a text are as many as its blocks and steps say.

  Main declarations:
    * `Block.groups`
    * `Dialplan.stepLine`
    * `Dialplan.groupLines`
    * `Dialplan.readStepLines`
    * `Dialplan.stepLines_eq`
    * `Dialplan.count_newline_render`
    * `Dialplan.readStepLines_render`
    * `Dialplan.one_line_per_step`
-/

namespace CallFlow

/- The longest runs of steps under one label, in order. -/
def Block.groups
    (b : Block) : List (List Step) :=
  b.steps.splitBy fun s s' => s.label == s'.label

/- The groups of a block are its steps. -/
@[simp] theorem Block.flatten_groups
    (b : Block) : b.groups.flatten = b.steps :=
  List.flatten_splitBy _ _

namespace Dialplan

------------------------------------------------------------
-- Groups
------------------------------------------------------------

/-
  The line of a step.  The first one of a group names the
  extension and has priority 1.
-/
def stepLine
    (entry : String)
    (first : Bool)
    (s : Step) : String :=
  (if first then
      "exten => " ++ extension entry s.label ++ ",1"
    else " same => n") ++
    tagMark s.tag ++ "," ++ application entry s.instr

/- The lines of a group. -/
def groupLines
    (entry : String) : List Step → List String
  | [] => []
  | s :: rest =>
      stepLine entry true s :: rest.map (stepLine entry false)

variable {entry : String}
variable {before : Label}
variable {s : Step}
variable {group steps : List Step}
variable {groups : List (List Step)}

/- The first line of an extension is that of its step. -/
theorem stepLine_true :
    stepLine entry true s = firstLine entry s := by
  simp [stepLine, firstLine]

/- So is every further one. -/
theorem stepLine_false :
    stepLine entry false s = nextLine entry s := by
  simp [stepLine, nextLine]

/- A group has one line for each step. -/
@[simp] theorem length_groupLines :
    (groupLines entry group).length = group.length := by
  cases group with
  | nil => rfl
  | cons s rest => simp [groupLines]

/- Every line of a group is the line of one of its steps. -/
theorem exists_of_mem_groupLines
    {l : String}
    (hl : l ∈ groupLines entry group) :
    ∃ first, ∃ s ∈ group, l = stepLine entry first s := by
  cases group with
  | nil => cases hl
  | cons s rest =>
      rcases List.mem_cons.mp hl with rfl | hRest
      · exact ⟨true, s, List.mem_cons_self, rfl⟩
      · rcases List.mem_map.mp hRest with ⟨s', hs', rfl⟩
        exact ⟨false, s', List.mem_cons_of_mem s hs', rfl⟩

/- Steps under the label before them go on with its lines. -/
private theorem linesAfter_append
    (hGroup : ∀ s ∈ group, s.label = before)
    (rest : List Step) :
    linesAfter entry before (group ++ rest) =
      group.map (stepLine entry false) ++
        linesAfter entry before rest := by
  induction group with
  | nil => rfl
  | cons s group ih =>
      rcases List.forall_mem_cons.mp hGroup with
        ⟨hHere, hMore⟩
      rw [List.cons_append, linesAfter, if_pos hHere, hHere,
        ih hMore, List.map_cons, stepLine_false,
        List.cons_append]

/- Steps under another label start over after a gap. -/
private theorem linesAfter_of_ne
    (hFilled : steps ≠ [])
    (hNe : (steps.head hFilled).label ≠ before) :
    linesAfter entry before steps =
      "" :: stepLines entry steps := by
  cases steps with
  | nil => exact absurd rfl hFilled
  | cons s steps =>
      rw [List.head_cons] at hNe
      rw [linesAfter, if_neg hNe, stepLines]

/- Steps that follow each other under one label. -/
private def Alike : List Step → Prop :=
  List.IsChain fun s s' => (s.label == s'.label) = true

/- The steps of a group are under one label. -/
private theorem Alike.label_eq
    (hGroup : Alike (s :: group)) :
    ∀ s' ∈ group, s'.label = s.label := by
  induction group generalizing s with
  | nil => simp
  | cons s' group ih =>
      rcases List.isChain_cons_cons.mp hGroup with
        ⟨hHere, hMore⟩
      have hEq : s'.label = s.label :=
        (beq_iff_eq.mp hHere).symm
      exact List.forall_mem_cons.mpr
        ⟨hEq, fun st hst => (ih hMore st hst).trans hEq⟩

/- The last one is under the label of the first one. -/
private theorem Alike.getLast_label
    (hGroup : Alike (s :: group)) :
    ((s :: group).getLast (by simp)).label = s.label := by
  rcases List.mem_cons.mp
      (List.getLast_mem (l := s :: group) (by simp)) with
    h | h
  · rw [h]
  · exact hGroup.label_eq _ h

/- A group is written before the steps that follow it. -/
private theorem stepLines_append
    (hGroup : Alike (s :: group))
    (rest : List Step) :
    stepLines entry (s :: group ++ rest) =
      groupLines entry (s :: group) ++
        linesAfter entry s.label rest := by
  rw [List.cons_append, stepLines,
    linesAfter_append hGroup.label_eq, groupLines,
    stepLine_true, List.cons_append]

/-
  Groups are written one after another, with an empty line
  between two of them.  Each group stays under one label, and
  the next one begins under another.
-/
private theorem stepLines_flatten
    (hFilled : [] ∉ groups)
    (hGroups : ∀ g ∈ groups, Alike g)
    (hApart :
      groups.IsChain fun g g' => ∃ hg hg',
        ((g.getLast hg).label == (g'.head hg').label) =
          false) :
    stepLines entry groups.flatten =
      [""].intercalate (groups.map (groupLines entry)) := by
  induction groups with
  | nil => rfl
  | cons g rest ih =>
      rw [List.mem_cons, not_or] at hFilled
      rcases List.forall_mem_cons.mp hGroups with
        ⟨hHere, hMore⟩
      have hRest := ih hFilled.2 hMore hApart.tail
      obtain ⟨s, group, rfl⟩ :=
        List.exists_cons_of_ne_nil (Ne.symm hFilled.1)
      rw [List.flatten_cons, stepLines_append hHere]
      cases rest with
      | nil => simp [linesAfter]
      | cons g' rest =>
          rcases hApart.rel with ⟨hg, hg', hNe⟩
          -- The last step here has the label of the first, so
          -- the next group begins a run.
          rw [hHere.getLast_label, beq_eq_false_iff_ne]
            at hNe
          have hNext :
              ((g' :: rest).flatten.head
                (by simp [hg'])).label ≠ s.label := by
            simpa [List.head_append_of_ne_nil hg'] using
              hNe.symm
          rw [linesAfter_of_ne _ hNext, hRest]
          simp [List.intercalate_cons_cons]

/- The lines of a block are those of its groups. -/
theorem stepLines_eq
    (entry : String)
    (b : Block) :
    stepLines entry b.steps =
      [""].intercalate (b.groups.map (groupLines entry)) := by
  have hLines :
      stepLines entry b.groups.flatten =
        [""].intercalate
          (b.groups.map (groupLines entry)) :=
    stepLines_flatten (List.nil_notMem_splitBy _ _)
      (fun g hg => List.isChain_of_mem_splitBy hg)
      (List.isChain_getLast_head_splitBy
        (fun s s' => s.label == s'.label) b.steps)
  rwa [b.flatten_groups] at hLines

------------------------------------------------------------
-- Counting Lines
------------------------------------------------------------

/- Joined groups have a line between each two of them. -/
private theorem length_intercalate
    {parts : List (List String)} :
    ([""].intercalate parts).length =
      (parts.map List.length).sum + (parts.length - 1) := by
  induction parts with
  | nil => rfl
  | cons p rest ih =>
      cases rest with
      | nil => simp
      | cons q rest =>
          rw [List.intercalate_cons_cons, List.length_append,
            List.length_append, ih]
          simp only [List.map_cons, List.sum_cons,
            List.length_cons, List.length_nil]
          omega

/- The number of the lines of a block. -/
theorem length_lines
    (entry : String)
    (b : Block) :
    (b.lines entry).length =
      2 + b.steps.length + (b.groups.length - 1) := by
  have hSteps :
      ((b.groups.map (groupLines entry)).map
        List.length).sum = b.steps.length := by
    rw [List.map_map, ← b.flatten_groups,
      List.length_flatten]
    congr 1
    exact List.map_congr_left fun g _ => length_groupLines
  rw [Block.lines, List.length_cons, List.length_cons,
    stepLines_eq, length_intercalate, hSteps,
    List.length_map]
  omega

/- The number of the lines of a script. -/
theorem length_script_lines
    (s : Script) :
    s.lines.length =
      1 + (s.blocks.map fun b =>
        2 + b.steps.length + (b.groups.length - 1)).sum := by
  rw [Script.lines, List.length_cons, List.length_flatMap,
    Nat.add_comm]
  simp only [length_lines]

/- Ended lines have one newline each if none holds any. -/
private theorem count_newline_join
    {lines : List String}
    (h : ∀ l ∈ lines, Plain l) :
    (String.join (lines.map fun l => l ++ "\n")).toList.count
        '\n' = lines.length := by
  induction lines with
  | nil => rfl
  | cons l rest ih =>
      rcases List.forall_mem_cons.mp h with ⟨hHere, hMore⟩
      have hNone : l.toList.count '\n' = 0 := by
        rw [List.count_eq_zero]
        intro hIn
        cases hHere '\n' hIn
      rw [List.map_cons, String.join_cons,
        String.toList_append, String.toList_append,
        List.count_append, List.count_append, hNone,
        ih hMore]
      simp [Nat.add_comm]

/- The text of a script has a newline for each line. -/
theorem count_newline_render
    (s : Script) :
    s.render.toList.count '\n' = s.lines.length :=
  count_newline_join (plain_of_mem_lines s)

/- A text of ended lines has no other control character. -/
theorem eq_newline_of_mem_render
    {s : Script}
    {c : Char}
    (hc : c ∈ s.render.toList)
    (hControl : Text.isControl c = true) : c = '\n' := by
  rw [Script.render, String.toList_join] at hc
  rcases List.mem_flatMap.mp hc with ⟨l, hl, hIn⟩
  rcases List.mem_map.mp hl with ⟨line, hLine, rfl⟩
  rw [String.toList_append, List.mem_append] at hIn
  rcases hIn with hIn | hIn
  · rw [plain_of_mem_lines s line hLine c hIn] at hControl
    cases hControl
  · simpa using hIn

------------------------------------------------------------
-- Reading the Lines of Steps
------------------------------------------------------------

/-
  A line is that of a step if it is neither empty nor a
  comment nor the head of a context.
-/
def isStepLine
    (line : List Char) : Bool :=
  line.head?.any fun c => c != ';' && c != '['

/- The lines of steps in the text of a dialplan. -/
def readStepLines
    (text : String) : List String :=
  ((Text.pieces (· == '\n') text.toList).filter
    isStepLine).map String.ofList

/- A line of a step is one, whatever its texts are. -/
theorem isStepLine_stepLine
    (entry : String)
    (first : Bool)
    (s : Step) :
    isStepLine (stepLine entry first s).toList = true := by
  cases first <;>
    simp [isStepLine, stepLine, String.toList_append]

/- The lines of steps among those of groups. -/
private theorem filter_intercalate
    (groups : List (List Step)) :
    (([""].intercalate
        (groups.map (groupLines entry))).map
      String.toList).filter isStepLine =
      (groups.flatMap (groupLines entry)).map
        String.toList := by
  have hGroup (g : List Step) :
      ((groupLines entry g).map String.toList).filter
          isStepLine =
        (groupLines entry g).map String.toList := by
    refine List.filter_eq_self.mpr fun l hl => ?_
    rcases List.mem_map.mp hl with ⟨line, hLine, rfl⟩
    rcases exists_of_mem_groupLines hLine with
      ⟨first, s, -, rfl⟩
    exact isStepLine_stepLine entry first s
  induction groups with
  | nil => rfl
  | cons g rest ih =>
      cases rest with
      | nil => simpa using hGroup g
      | cons g' rest =>
          have hGap :
              ([""].map String.toList).filter isStepLine =
                [] :=
            rfl
          rw [List.map_cons, List.map_cons,
            List.intercalate_cons_cons, ← List.map_cons,
            List.map_append, List.map_append,
            List.filter_append, List.filter_append, hGroup,
            hGap, ih, List.append_nil,
            List.flatMap_cons (x := g), List.map_append]

/- The lines of steps among those of a block. -/
private theorem filter_lines
    (entry : String)
    (b : Block) :
    ((b.lines entry).map String.toList).filter isStepLine =
      (b.groups.flatMap (groupLines entry)).map
        String.toList := by
  have hHead :
      isStepLine
        ("[" ++ Text.onOneLine b.name ++ "]").toList =
          false := by
    simp [isStepLine, String.toList_append]
  rw [Block.lines, stepLines_eq, List.map_cons,
    List.map_cons, List.filter_cons_of_neg (by decide),
    List.filter_cons_of_neg (by rw [hHead]; decide),
    filter_intercalate]

/-
  The lines of steps that are read from the text of a script
  are those of its groups, block by block.
-/
theorem readStepLines_render
    (s : Script) :
    readStepLines s.render =
      s.blocks.flatMap fun b => b.groups.flatMap
        (groupLines (escape s.entryExtension)) := by
  have hHead : isStepLine s.headLine.toList = false := by
    unfold Script.headLine
    generalize Text.onOneLine s.flowName = name
    simp [isStepLine]
  have hLines :
      (s.lines.map String.toList).filter isStepLine =
        (s.blocks.flatMap fun b => b.groups.flatMap
          (groupLines (escape s.entryExtension))).map
            String.toList := by
    rw [Script.lines, List.map_cons,
      List.filter_cons_of_neg (by rw [hHead]; decide),
      List.map_flatMap, List.filter_flatMap]
    simp only [filter_lines, List.map_flatMap]
  rw [readStepLines, pieces_render, List.filter_append,
    hLines]
  simp [isStepLine]

/- A line of a step belongs to a step of the script. -/
theorem exists_of_mem_readStepLines
    {s : Script}
    {l : String}
    (hl : l ∈ readStepLines s.render) :
    ∃ first, ∃ b ∈ s.blocks, ∃ st ∈ b.steps,
      l = stepLine (escape s.entryExtension) first st := by
  rw [readStepLines_render] at hl
  rcases List.mem_flatMap.mp hl with ⟨b, hb, hIn⟩
  rcases List.mem_flatMap.mp hIn with ⟨g, hg, hLine⟩
  rcases exists_of_mem_groupLines hLine with
    ⟨first, st, hst, rfl⟩
  refine ⟨first, b, hb, st, ?_, rfl⟩
  rw [← b.flatten_groups]
  exact List.mem_flatten.mpr ⟨g, hg, hst⟩

/-
  No text of a script leaves the line that it is written in.
  The only control characters are the ends of the lines, of
  which there are as many as the blocks, the steps and the
  groups call for.  The lines of steps are in the order of
  the steps, and the first one of each group, and no other,
  names the extension.
-/
theorem one_line_per_step
    (s : Script) :
    (∀ c ∈ s.render.toList,
      Text.isControl c = true → c = '\n') ∧
    s.render.toList.count '\n' =
      1 + (s.blocks.map fun b =>
        2 + b.steps.length + (b.groups.length - 1)).sum ∧
    readStepLines s.render =
      (s.blocks.flatMap fun b => b.groups.flatMap
        (groupLines (escape s.entryExtension))) ∧
    ∀ b : Block, b.groups.flatten = b.steps := by
  refine
    ⟨fun c hc => eq_newline_of_mem_render hc, ?_,
      readStepLines_render s, Block.flatten_groups⟩
  rw [count_newline_render, length_script_lines]

/- Texts that try to begin a context and an extension. -/
example :
    readStepLines
      (Script.render
        { flowName := "main\n[evil]"
          entryExtension := "s"
          blocks :=
            [{ index := 0
               name := "ivr-main"
               steps :=
                 [⟨.digit (.digit 1), none,
                    .bridge (.queue "vip\nexten => 9,1,System(x)")
                      none none⟩,
                  ⟨.digit (.digit 1), none, .answer⟩] }] }) =
      ["exten => 1,1,Queue(vipexten => 9\\,1\\,System(x))",
        " same => n,Answer()"] := by
  decide +kernel

end Dialplan

end CallFlow
