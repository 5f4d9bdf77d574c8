import CallFlow.Proofs.Compile.Walking
import CallFlow.Proofs.Results

/-
  What the standard emitters make of a node: one instruction
  that performs, from the sounds of the parameters that name
  audio.

  Main declarations:
    * `Emitter.Makes`
    * `Emitter.exists_makes`
    * `Emitter.standard_eq_ok`
    * `Emitter.standard_congr`
-/

namespace CallFlow

namespace Emitter

/- The instructions that steps of each kind are emitted as. -/
inductive Makes : StepKind → Instr → Prop where
  | playback
      {location : String}
      {options : Option String} :
      Makes .playback (.play location true options)
  | background
      {location : String}
      {options : Option String} :
      Makes .background (.play location false options)
  | collect
      {channelVar : String}
      {prompt : Option String}
      {maxDigits timeout : UInt32} :
      Makes .collect
        (.readDigits channelVar prompt maxDigits timeout)
  | agent
      {queue : String}
      {timeout : Option UInt32}
      {options : Option String} :
      Makes .agent (.bridge (.queue queue) timeout options)
  | number
      {technology destination : String}
      {timeout : Option UInt32}
      {options : Option String} :
      Makes .number
        (.bridge (.number technology destination) timeout
          options)
  | hangup
      {cause : Option UInt32} : Makes .hangup (.hangup cause)

/- The instruction of a node is one of those of its kind. -/
theorem exists_makes
    {kind : StepKind}
    {n : Node}
    {sound : String → Option String}
    {action : List Instr}
    (h : standard kind n sound = .ok action) :
    ∃ i, action = [i] ∧ Makes kind i := by
  cases kind with
  | playback =>
      rcases bind_eq_ok_iff.mp h with ⟨location, -, hDone⟩
      cases hDone
      exact ⟨_, rfl, .playback⟩
  | background =>
      rcases bind_eq_ok_iff.mp h with ⟨location, -, hDone⟩
      cases hDone
      exact ⟨_, rfl, .background⟩
  | collect =>
      rcases bind_eq_ok_iff.mp h with ⟨maxDigits, -, hDone⟩
      cases hDone
      exact ⟨_, rfl, .collect⟩
  | agent =>
      rcases bind_eq_ok_iff.mp h with ⟨queue, -, hDone⟩
      cases hDone
      exact ⟨_, rfl, .agent⟩
  | number =>
      rcases bind_eq_ok_iff.mp h with ⟨destination, -, hDone⟩
      cases hDone
      exact ⟨_, rfl, .number⟩
  | hangup =>
      cases h
      exact ⟨_, rfl, .hangup⟩

namespace Makes

variable {kind : StepKind}
variable {i : Instr}

/- Every step of a flow performs something. -/
theorem isAction
    (h : Makes kind i) : i.isAction = true := by
  cases h <;> rfl

/- None of them answers the call. -/
theorem ne_answer
    (h : Makes kind i) : i ≠ .answer := by
  cases h <;> exact nofun

/- Just the steps that cannot branch end their label. -/
theorem endsLabel_eq
    (h : Makes kind i) : i.endsLabel = !kind.branching := by
  cases h <;> rfl

end Makes

/- A node is emitted as one instruction that performs. -/
theorem standard_eq_ok
    {kind : StepKind}
    {n : Node}
    {sound : String → Option String}
    {action : List Instr}
    (h : standard kind n sound = .ok action) :
    ∃ i, action = [i] ∧ i.isAction = true := by
  rcases exists_makes h with ⟨i, hOne, hMakes⟩
  exact ⟨i, hOne, hMakes.isAction⟩

/- Only the sounds of audio parameters are asked for. -/
theorem standard_congr
    {kind : StepKind}
    (n : Node)
    {sound sound' : String → Option String}
    (h : ∀ p ∈ kind.audioParams, sound p = sound' p) :
    standard kind n sound = standard kind n sound' := by
  cases kind with
  | playback =>
      have hAudio := h "audio" (by decide +kernel)
      show play true n sound = play true n sound'
      unfold play
      rw [hAudio]
  | background =>
      have hAudio := h "audio" (by decide +kernel)
      show play false n sound = play false n sound'
      unfold play
      rw [hAudio]
  | collect =>
      have hPrompt := h "prompt" (by decide +kernel)
      show collect n sound = collect n sound'
      unfold collect
      rw [hPrompt]
  | agent => rfl
  | number => rfl
  | hangup => rfl

end Emitter

end CallFlow
