import CallFlow.Script.Basic

/-
  What running a script does with a call.

  A run starts under the entry label of the first block and
  goes through the steps of a label in order.  A jump goes
  on at another block, and where the script asks, the next
  thing that the caller does decides on the label.  The
  events are those of the whole call, so a run is over, or
  waits for the caller after the last event, or has nothing
  to go on with.

  Main declarations:
    * `CallEvent`
    * `Course`
    * `perform`
    * `Script.course?`
    * `Script.Performs`
    * `Script.Plays`
    * `Script.course?_cons_cases`
    * `Script.Performs.unique`
    * `Script.performs_append`
-/

namespace CallFlow

------------------------------------------------------------
-- Calls
------------------------------------------------------------

/- What a caller does where a choice is asked for. -/
inductive CallEvent where
  | key (k : Key)
  | other
  | silence
deriving DecidableEq

/- How far a call has come after the last event. -/
inductive Ending where
  | over
  | waiting
  | lost
deriving DecidableEq

/- What is performed in a call, and how far it comes. -/
structure Course where
  performed : List Instr
  ending : Ending
deriving DecidableEq

/- A course with an instruction before it. -/
def Course.after
    (c : Course)
    (i : Instr) : Course :=
  { c with performed := i :: c.performed }

namespace Instr

/- Whether an instruction asks for the next event. -/
def asks : Instr → Bool
  | waitForDigit _ => true
  | dispatch _ => true
  | _ => false

/- Whether an instruction is performed: it does not direct. -/
def isAction : Instr → Bool
  | waitForDigit _ => false
  | dispatch _ => false
  | goto _ _ _ => false
  | _ => true

/- Whether the call is over after an instruction. -/
def endsCall : Instr → Bool
  | hangup _ => true
  | bridge _ _ _ => true
  | _ => false

/- An action ends its label only by ending the call. -/
theorem endsCall_eq_endsLabel
    {i : Instr}
    (h : i.isAction = true) : i.endsCall = i.endsLabel := by
  cases i with
  | dispatch channelVar => cases h
  | goto block l tag => cases h
  | _ => rfl

/- An action does not ask. -/
theorem asks_of_isAction
    {i : Instr}
    (h : i.isAction = true) : i.asks = false := by
  cases i with
  | waitForDigit timeout => cases h
  | dispatch channelVar => cases h
  | _ => rfl

end Instr

/-
  The course of a call in which some instructions are
  performed before it goes on, unless one of them ends it.
-/
def perform : List Instr → Course → Course
  | [], next => next
  | i :: rest, next =>
      if i.endsCall then ⟨[i], .over⟩
      else (perform rest next).after i

/- Instructions can be performed in two parts. -/
theorem perform_append
    (first second : List Instr)
    (next : Course) :
    perform (first ++ second) next =
      perform first (perform second next) := by
  induction first with
  | nil => rfl
  | cons i rest ih =>
      rw [List.cons_append]
      simp only [perform]
      rw [ih]

/- Nothing follows instructions of which the last ends it. -/
theorem perform_eq_of_getLast?
    {action : List Instr}
    {i : Instr}
    (hLast : action.getLast? = some i)
    (hEnds : i.endsCall = true)
    (next next' : Course) :
    perform action next = perform action next' := by
  rcases List.getLast?_eq_some_iff.mp hLast with
    ⟨before, hAction⟩
  rw [hAction, perform_append, perform_append]
  simp [perform, hEnds]

------------------------------------------------------------
-- Places in Scripts
------------------------------------------------------------

/- The label that a block has for what the caller does. -/
def Block.answerLabel
    (b : Block) : CallEvent → Label
  | .key k =>
      if b.labels.contains (.digit k) then .digit k
      else .invalid
  | .other => .invalid
  | .silence => .timeout

/- The steps of a label, from the tagged one on. -/
def Block.stepsFrom
    (b : Block)
    (l : Label) : Option Tag → List Step
  | none => b.stepsUnder l
  | some tag =>
      (b.stepsUnder l).dropWhile fun st => st.tag != some tag

namespace Script

/- Where a jump leads: a block, and steps of it. -/
def landing?
    (s : Script)
    (name : String)
    (l : Label)
    (tag : Option Tag) : Option (Block × List Step) :=
  (s.block? name).bind fun b =>
    if b.stepsFrom l tag = [] then none
    else some (b, b.stepsFrom l tag)

/- A jump leads to steps that there are. -/
theorem landing?_eq_some
    {s : Script}
    {b : Block}
    {name : String}
    {l : Label}
    {tag : Option Tag}
    {steps : List Step}
    (hBlock : s.block? name = some b)
    (hSteps : b.stepsFrom l tag = steps)
    (hNe : steps ≠ []) :
    s.landing? name l tag = some (b, steps) := by
  unfold landing?
  rw [hBlock, Option.bind_some, hSteps, if_neg hNe]

------------------------------------------------------------
-- Runs
------------------------------------------------------------

/-
  The course of a run that has come to some steps of a
  block, with the events that are still to happen.  There is
  none if the run takes more turns than it is given.
-/
def course?
    (s : Script) :
    Nat → Block → List Step → List CallEvent → Option Course
  | 0, _, _, _ => none
  | _ + 1, _, [], _ => some ⟨[], .lost⟩
  | turns + 1, b, st :: rest, events =>
      match st.instr with
      | .goto name l tag =>
          match s.landing? name l tag with
          | some (b', steps) => course? s turns b' steps events
          | none => some ⟨[], .lost⟩
      | i =>
          if i.asks then
            match events with
            | [] => some ⟨[], .waiting⟩
            | e :: events =>
                course? s turns b
                  (b.stepsUnder (b.answerLabel e)) events
          else if i.endsCall then some ⟨[i], .over⟩
          else
            (course? s turns b rest events).map
              (Course.after · i)

/- The course of a run that is given enough turns. -/
def Performs
    (s : Script)
    (b : Block)
    (steps : List Step)
    (events : List CallEvent)
    (c : Course) : Prop :=
  ∃ turns, s.course? turns b steps events = some c

/- The course of a run from the start of a script. -/
def Plays
    (s : Script)
    (events : List CallEvent)
    (c : Course) : Prop :=
  ∃ b, s.entryBlock? = some b ∧
    s.Performs b (b.stepsUnder .entry) events c

variable {s : Script} {b b' : Block}
variable {st : Step} {steps rest : List Step}
variable {events : List CallEvent}
variable {c c' : Course}

/- More turns do not change the course of a run. -/
theorem course?_add
    {turns : Nat}
    (more : Nat)
    (h : s.course? turns b steps events = some c) :
    s.course? (turns + more) b steps events = some c := by
  induction turns generalizing b steps events c with
  | zero => cases h
  | succ turns ih =>
      rw [Nat.succ_add]
      cases steps with
      | nil => exact h
      | cons st rest =>
          unfold course? at h ⊢
          split at h
          · split at h
            · exact ih h
            · exact h
          · split at h
            · rename_i hAsks
              rw [if_pos hAsks]
              split at h
              · exact h
              · exact ih h
            · rename_i hNotAsks
              rw [if_neg hNotAsks]
              split at h
              · rename_i hEnds
                rw [if_pos hEnds]
                exact h
              · rename_i hNotEnds
                rw [if_neg hNotEnds]
                rcases Option.map_eq_some_iff.mp h with
                  ⟨c₁, hRest, hCourse⟩
                rw [ih hRest]
                exact congrArg some hCourse

/-
  How a run goes on from a step: it jumps somewhere or
  nowhere, waits for the caller or hears of the next event,
  is over, or performs the step and goes on to the next one.
-/
theorem course?_cons_cases
    {turns : Nat}
    (h : s.course? (turns + 1) b (st :: rest) events =
      some c) :
    (∃ name l tag, st.instr = .goto name l tag ∧
      ((s.landing? name l tag = none ∧ c = ⟨[], .lost⟩) ∨
        ∃ b' steps,
          s.landing? name l tag = some (b', steps) ∧
            s.course? turns b' steps events = some c)) ∨
    (st.instr.asks = true ∧
      ((events = [] ∧ c = ⟨[], .waiting⟩) ∨
        ∃ e later, events = e :: later ∧
          s.course? turns b (b.stepsUnder (b.answerLabel e))
            later = some c)) ∨
    ((∀ name l tag, st.instr ≠ .goto name l tag) ∧
      st.instr.asks = false ∧
      ((st.instr.endsCall = true ∧
          c = ⟨[st.instr], .over⟩) ∨
        (st.instr.endsCall = false ∧
          ∃ c', s.course? turns b rest events = some c' ∧
            c = c'.after st.instr))) := by
  unfold course? at h
  split at h
  · rename_i name l tag hGoto
    refine Or.inl ⟨name, l, tag, hGoto, ?_⟩
    split at h
    · rename_i b' steps hLands
      exact Or.inr ⟨b', steps, hLands, h⟩
    · rename_i hNowhere
      cases h
      exact Or.inl ⟨hNowhere, rfl⟩
  · rename_i hGoto
    split at h
    · rename_i hAsks
      refine Or.inr (Or.inl ⟨hAsks, ?_⟩)
      split at h
      · cases h
        exact Or.inl ⟨rfl, rfl⟩
      · rename_i e later
        exact Or.inr ⟨e, later, rfl, h⟩
    · rename_i hNotAsks
      refine Or.inr (Or.inr
        ⟨hGoto, Bool.eq_false_iff.mpr hNotAsks, ?_⟩)
      split at h
      · rename_i hEnds
        cases h
        exact Or.inl ⟨hEnds, rfl⟩
      · rename_i hNotEnds
        rcases Option.map_eq_some_iff.mp h with
          ⟨c', hRest, hCourse⟩
        exact Or.inr
          ⟨Bool.eq_false_iff.mpr hNotEnds, c', hRest,
            hCourse.symm⟩

/- A run has only one course. -/
theorem Performs.unique
    (h : s.Performs b steps events c)
    (h' : s.Performs b steps events c') : c = c' := by
  rcases h with ⟨turns, hTurns⟩
  rcases h' with ⟨turns', hTurns'⟩
  have hMore := course?_add turns' hTurns
  have hMore' := course?_add turns hTurns'
  rw [Nat.add_comm] at hMore'
  rw [hMore] at hMore'
  exact Option.some.inj hMore'

/- A run from the start has only one course. -/
theorem Plays.unique
    (h : s.Plays events c)
    (h' : s.Plays events c') : c = c' := by
  rcases h with ⟨b, hBlock, hRun⟩
  rcases h' with ⟨b', hBlock', hRun'⟩
  rw [hBlock] at hBlock'
  cases hBlock'
  exact hRun.unique hRun'

------------------------------------------------------------
-- Single Steps
------------------------------------------------------------

/- Without steps a run has nothing to go on with. -/
theorem performs_nil
    (s : Script)
    (b : Block)
    (events : List CallEvent) :
    s.Performs b [] events ⟨[], .lost⟩ :=
  ⟨1, rfl⟩

/- A jump goes on where it leads. -/
theorem performs_goto
    {name : String}
    {l : Label}
    {tag : Option Tag}
    (hGoto : st.instr = .goto name l tag)
    (hLands : s.landing? name l tag = some (b', steps))
    (h : s.Performs b' steps events c) :
    s.Performs b (st :: rest) events c := by
  rcases h with ⟨turns, hTurns⟩
  refine ⟨turns + 1, ?_⟩
  unfold course?
  simp only [hGoto, hLands]
  exact hTurns

/- Without events a run waits where the script asks. -/
theorem performs_asks_nil
    (hAsks : st.instr.asks = true) :
    s.Performs b (st :: rest) [] ⟨[], .waiting⟩ := by
  refine ⟨1, ?_⟩
  unfold course?
  split
  · rename_i hGoto
    rw [hGoto] at hAsks
    cases hAsks
  · rw [if_pos hAsks]

/- With an event it goes on under the label for it. -/
theorem performs_asks_cons
    {e : CallEvent}
    (hAsks : st.instr.asks = true)
    (h :
      s.Performs b (b.stepsUnder (b.answerLabel e)) events
        c) :
    s.Performs b (st :: rest) (e :: events) c := by
  rcases h with ⟨turns, hTurns⟩
  refine ⟨turns + 1, ?_⟩
  unfold course?
  split
  · rename_i hGoto
    rw [hGoto] at hAsks
    cases hAsks
  · rw [if_pos hAsks]
    exact hTurns

/- An action is performed, and ends the call or not. -/
theorem performs_action
    (hAction : st.instr.isAction = true)
    (h : s.Performs b rest events c) :
    s.Performs b (st :: rest) events
      (perform [st.instr] c) := by
  rcases h with ⟨turns, hTurns⟩
  refine ⟨turns + 1, ?_⟩
  unfold course? perform
  split
  · rename_i hGoto
    rw [hGoto] at hAction
    cases hAction
  · have hNotAsks := Instr.asks_of_isAction hAction
    simp only [hNotAsks, Bool.false_eq_true, if_false]
    split
    · rfl
    · rw [hTurns]
      rfl

/- Actions are performed before the steps after them. -/
theorem performs_append
    (hActions : ∀ st ∈ steps, st.instr.isAction = true)
    (h : s.Performs b rest events c) :
    s.Performs b (steps ++ rest) events
      (perform (steps.map Step.instr) c) := by
  induction steps with
  | nil => exact h
  | cons st steps ih =>
      have hHead := hActions st List.mem_cons_self
      have hRest := ih fun st' hst' =>
        hActions st' (List.mem_cons_of_mem st hst')
      exact performs_action hHead hRest

end Script

end CallFlow
