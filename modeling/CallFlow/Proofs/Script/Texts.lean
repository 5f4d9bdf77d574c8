import CallFlow.Script.Basic
import CallFlow.Text.Safe

/-
  The texts of a script that become arguments.

  Sounds come from outside, so they are kept apart from the
  other texts, the words.

  Main declarations:
    * `Instr.sounds`
    * `Instr.words`
    * `Instr.DrawsOn`
    * `Script.sounds`
    * `Script.words`
    * `Script.Safe`
-/

namespace CallFlow

namespace Instr

/- The locations of the sounds of an instruction. -/
def sounds : Instr → List String
  | play sound _ _ => [sound]
  | readDigits _ prompt _ _ => prompt.toList
  | _ => []

/- The other texts of an instruction. -/
def words : Instr → List String
  | play _ _ options => options.toList
  | readDigits channelVar _ _ _ => [channelVar]
  | dispatch channelVar => [channelVar]
  | bridge (.queue name) _ options =>
      name :: options.toList
  | bridge (.number technology destination) _ options =>
      technology :: destination :: options.toList
  | goto block _ _ => [block]
  | answer => []
  | wait _ => []
  | waitForDigit _ => []
  | hangup _ => []

/-
  An instruction has words that can stand as they are, and its
  sounds come from a given source.
-/
structure DrawsOn
    (source : String → Prop)
    (i : Instr) : Prop where
  words : ∀ w ∈ i.words, Text.isDialplanSafe w = true
  sounds : ∀ x ∈ i.sounds, source x

/- Every text of an instruction can stand as it is. -/
def TextSafe
    (i : Instr) : Prop :=
  i.DrawsOn fun x => Text.isDialplanSafe x = true

end Instr

namespace Script

/- The instructions of a script, block by block. -/
def instrs
    (s : Script) : List Instr :=
  s.blocks.flatMap fun b => b.steps.map Step.instr

/- The locations of the sounds of a script. -/
def sounds
    (s : Script) : List String :=
  s.instrs.flatMap Instr.sounds

/- The other texts of a script that become arguments. -/
def words
    (s : Script) : List String :=
  s.entryExtension :: s.instrs.flatMap Instr.words

/- Every text that becomes an argument can stand as it is. -/
def Safe
    (s : Script) : Prop :=
  ∀ t ∈ s.words ++ s.sounds, Text.isDialplanSafe t = true

instance
    (s : Script) : Decidable s.Safe :=
  inferInstanceAs
    (Decidable
      (∀ t ∈ s.words ++ s.sounds,
        Text.isDialplanSafe t = true))

/- The instructions are those of the steps of the blocks. -/
theorem mem_instrs
    {s : Script}
    {i : Instr} :
    i ∈ s.instrs ↔
      ∃ b ∈ s.blocks, ∃ st ∈ b.steps, st.instr = i := by
  simp [instrs]

/- A script is safe if its extension and instructions are. -/
theorem safe_iff
    {s : Script} :
    s.Safe ↔
      Text.isDialplanSafe s.entryExtension = true ∧
        ∀ i ∈ s.instrs, i.TextSafe := by
  have hInstr (i : Instr) :
      i.TextSafe ↔
        (∀ t ∈ i.words, Text.isDialplanSafe t = true) ∧
          ∀ t ∈ i.sounds, Text.isDialplanSafe t = true :=
    ⟨fun h => ⟨h.words, h.sounds⟩, fun h => ⟨h.1, h.2⟩⟩
  unfold Safe words sounds
  simp only [List.cons_append, List.forall_mem_cons,
    List.forall_mem_append, List.mem_flatMap, hInstr]
  grind

end Script

end CallFlow
