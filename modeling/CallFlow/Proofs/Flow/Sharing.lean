import CallFlow.Proofs.Flow.Committing
import Mathlib.Data.List.Induction

/-
  Editors that share a flow.

  Each editor holds a copy that it read at some moment, and
  submits edits for the version of its copy.  The version is
  the only thing that is compared, so it has to tell flows
  apart: every edit that changes the flow advances it, hence
  a copy is either the shared flow or of an older version.
  An edit is then applied to the flow that its editor saw,
  or answered as stale.

  Main declarations:
    * `Flow.apply_ne_stale`
    * `Sharing`
    * `Sharing.run`
    * `Sharing.Chained`
    * `Sharing.Current`
    * `Sharing.no_lost_update`
-/

namespace CallFlow

------------------------------------------------------------
-- Results Without Versions
------------------------------------------------------------

namespace Flow

variable {t : Flow}

/- A result that says nothing about versions. -/
private def NotStale
    {α : Type}
    (x : Except EditError α) : Prop :=
  ∀ expected actual,
    x ≠ .error (.staleVersion expected actual)

/- Steps say nothing about versions if none of them does. -/
private theorem NotStale.bind
    {α β : Type}
    {x : Except EditError α}
    {f : α → Except EditError β}
    (hFirst : NotStale x)
    (hRest : ∀ a, NotStale (f a)) : NotStale (x >>= f) := by
  intro expected actual h
  rcases bind_eq_error_iff.mp h with hStale | ⟨a, -, hStale⟩
  · exact hFirst expected actual hStale
  · exact hRest a expected actual hStale

/- A result is not about versions. -/
private theorem NotStale.ok
    {α : Type}
    (a : α) : NotStale (.ok a) :=
  nofun

/- Looking for a node is not about versions. -/
private theorem notStale_node
    (id : String) : NotStale (t.node id) := by
  intro expected actual
  unfold node
  cases t.get? id <;> nofun

/- Checking a key is not about versions. -/
private theorem notStale_checkKey
    (parent : String)
    (key : Option Key)
    (ignored : Option String) :
    NotStale (t.checkKey parent key ignored) := by
  intro expected actual
  unfold checkKey
  split <;> nofun

/- Patching settings is not about versions. -/
private theorem notStale_patchedSettings
    (n : Node)
    (p : Patch) : NotStale (patchedSettings n p) := by
  intro expected actual h
  unfold patchedSettings at h
  simp only at h
  generalize StepKind.changeAll _ _ _ = changed at h
  cases changed <;> cases h

/- Patching a key is not about versions. -/
private theorem notStale_patchedKey
    (id : String)
    (n : Node)
    (change : Option (Option Key)) :
    NotStale (t.patchedKey id n change) := by
  unfold patchedKey
  split
  · exact .ok _
  · split
    · exact .ok _
    · split
      · split
        · intro expected actual
          nofun
        · exact .ok _
      · exact (notStale_checkKey _ _ _).bind fun _ => .ok _

/- Applying an edit never finds that the flow is stale. -/
theorem apply_ne_stale
    (t : Flow)
    (e : Edit)
    (expected actual : UInt64) :
    t.apply e ≠
      .error (.rejected (.staleVersion expected actual)) := by
  have hEdit : NotStale (t.written e) := by
    cases e with
    | add parent kind label key =>
        refine NotStale.bind ?_ fun _ => .ok _
        refine (notStale_node parent).bind fun _ => ?_
        refine (notStale_checkKey _ _ _).bind fun _ => ?_
        cases t.freshId? with
        | none => nofun
        | some fresh => exact .ok _
    | update id patch =>
        refine NotStale.bind ?_ fun _ => .ok _
        refine (notStale_node id).bind fun n => ?_
        refine (notStale_patchedSettings n patch).bind
          fun _ => ?_
        exact (notStale_patchedKey _ _ _).bind fun _ => .ok _
    | move id newParent =>
        refine NotStale.bind ?_ fun _ => .ok _
        refine (notStale_node id).bind fun n => ?_
        split
        · nofun
        · refine (notStale_node newParent).bind fun _ => ?_
          split
          · nofun
          · split
            · exact .ok _
            · exact
                (notStale_checkKey _ _ _).bind fun _ => .ok _
    | delete id =>
        refine NotStale.bind ?_ fun _ => .ok _
        refine (notStale_node id).bind fun n => ?_
        split
        · nofun
        · exact .ok _
  rw [Ne, apply_eq_rejected_iff]
  exact hEdit expected actual

end Flow

------------------------------------------------------------
-- Sharing
------------------------------------------------------------

/- A shared flow, and the copy that each editor holds. -/
structure Sharing (ι : Type) where
  shared : Flow
  copies : ι → Flow

namespace Sharing

/- What an editor does with the shared flow. -/
inductive Event (ι : Type) where
  | read (editor : ι)
  | submit (editor : ι) (e : Edit)

section Definitions

variable {ι : Type}

/- Editors that all start with a copy of one flow. -/
def opened
    (start : Flow) : Sharing ι :=
  ⟨start, fun _ => start⟩

/- The answer to an edit for the version of a copy. -/
def answer
    (s : Sharing ι)
    (editor : ι)
    (e : Edit) : Except EditFailure (Flow × Option String) :=
  s.shared.applyAt (s.copies editor).version e

/-
  One event.  An accepted edit replaces the shared flow, and
  one that fails changes nothing.  No copy follows by itself.
-/
def step
    [DecidableEq ι]
    (s : Sharing ι) : Event ι → Sharing ι
  | .read editor =>
      { s with
        copies := fun other =>
          if other = editor then s.shared
          else s.copies other }
  | .submit editor e =>
      match s.answer editor e with
      | .ok (t', _) => { s with shared := t' }
      | .error _ => s

variable [DecidableEq ι]

/- The events of any editors, in the order they happen in. -/
def run
    (s : Sharing ι)
    (events : List (Event ι)) : Sharing ι :=
  events.foldl step s

/- The number of events that change the shared flow. -/
def commits
    (s : Sharing ι) : List (Event ι) → Nat
  | [] => 0
  | event :: rest =>
      (if (s.step event).shared = s.shared then 0 else 1) +
        (s.step event).commits rest

/- The edit that an event makes, with the copy it is made for. -/
def acceptedBy
    (s : Sharing ι) : Event ι → List (Flow × Edit)
  | .read _ => []
  | .submit editor e =>
      match s.answer editor e with
      | .ok _ => [(s.copies editor, e)]
      | .error _ => []

/- The accepted edits, each with the copy it was made for. -/
def accepted
    (s : Sharing ι) : List (Event ι) → List (Flow × Edit)
  | [] => []
  | event :: rest =>
      s.acceptedBy event ++ (s.step event).accepted rest

/-
  Edits that lead from a flow to another, where each is
  applied to exactly the flow that its editor saw.
-/
def Chained
    (t t' : Flow) : List (Flow × Edit) → Prop
  | [] => t' = t
  | (seen, e) :: rest =>
      seen = t ∧
        ∃ next made, seen.apply e = .ok (next, made) ∧
          Chained next t' rest

/- Every copy is the shared flow or of an older version. -/
def Current
    (s : Sharing ι) : Prop :=
  ∀ editor, s.copies editor = s.shared ∨
    (s.copies editor).version.toNat < s.shared.version.toNat

end Definitions

variable {ι : Type}
variable {s : Sharing ι}

------------------------------------------------------------
-- Answers
------------------------------------------------------------

/- Editors that have just started hold the shared flow. -/
theorem current_opened
    (start : Flow) : (opened start : Sharing ι).Current :=
  fun _ => Or.inl rfl

/- A copy of the version of the shared flow is that flow. -/
theorem Current.eq_of_version
    (h : s.Current)
    {editor : ι}
    (hVersion :
      (s.copies editor).version = s.shared.version) :
    s.copies editor = s.shared := by
  rcases h editor with hSame | hOlder
  · exact hSame
  · rw [hVersion] at hOlder
    exact absurd hOlder (Nat.lt_irrefl _)

/- An answer is stale exactly if the copy is. -/
theorem Current.stale_iff
    (h : s.Current)
    (editor : ι)
    (e : Edit) :
    (∃ expected actual, s.answer editor e =
        .error (.rejected (.staleVersion expected actual))) ↔
      s.copies editor ≠ s.shared := by
  unfold answer Flow.applyAt
  constructor
  · rintro ⟨expected, actual, hStale⟩ hSame
    rw [if_pos (congrArg Flow.version hSame)] at hStale
    exact s.shared.apply_ne_stale e expected actual hStale
  · intro hOld
    rw [if_neg (mt h.eq_of_version hOld)]
    exact ⟨_, _, rfl⟩

/- An answer other than stale is the one for the copy. -/
theorem Current.answer_eq
    (h : s.Current)
    {editor : ι}
    {e : Edit}
    {t' : Flow}
    {made : Option String}
    (hOk : s.answer editor e = .ok (t', made)) :
    s.copies editor = s.shared ∧
      s.shared.apply e = .ok (t', made) := by
  unfold answer Flow.applyAt at hOk
  split at hOk
  · rename_i hVersion
    exact ⟨h.eq_of_version hVersion, hOk⟩
  · cases hOk

------------------------------------------------------------
-- Steps
------------------------------------------------------------

variable [DecidableEq ι]

/- An accepted edit replaces the shared flow. -/
theorem step_of_ok
    {editor : ι}
    {e : Edit}
    {t' : Flow}
    {made : Option String}
    (h : s.answer editor e = .ok (t', made)) :
    s.step (.submit editor e) = { s with shared := t' } := by
  unfold step
  simp only [h]

/- An edit that fails changes nothing. -/
theorem step_of_error
    {editor : ι}
    {e : Edit}
    {f : EditFailure}
    (h : s.answer editor e = .error f) :
    s.step (.submit editor e) = s := by
  unfold step
  simp only [h]

/- Submitting an edit leaves all copies as they are. -/
theorem copies_step_submit
    (s : Sharing ι)
    (editor : ι)
    (e : Edit) :
    (s.step (.submit editor e)).copies = s.copies := by
  cases h : s.answer editor e with
  | ok result => rw [step_of_ok h]
  | error err => rw [step_of_error h]

/- A step leaves the shared flow, or is one version on. -/
theorem shared_step
    (s : Sharing ι)
    (event : Event ι) :
    (s.step event).shared = s.shared ∨
      (s.step event).shared.version =
        s.shared.version + 1 := by
  cases event with
  | read editor => exact Or.inl rfl
  | submit editor e =>
      cases hAnswer : s.answer editor e with
      | error err =>
          rw [step_of_error hAnswer]
          exact Or.inl rfl
      | ok result =>
          rw [step_of_ok hAnswer]
          unfold answer Flow.applyAt at hAnswer
          split at hAnswer
          · exact (Flow.eq_or_version_of_apply hAnswer).imp_right
              And.right
          · cases hAnswer

/- With room for it, the versions count the commits. -/
theorem version_step
    (s : Sharing ι)
    (event : Event ι)
    (hRoom :
      s.shared.version.toNat + s.commits [event] <
        UInt64.size) :
    (s.step event).shared.version.toNat =
      s.shared.version.toNat + s.commits [event] := by
  simp only [commits, Nat.add_zero] at hRoom ⊢
  by_cases hSame : (s.step event).shared = s.shared
  · rw [hSame, if_pos rfl, Nat.add_zero]
  · rw [if_neg hSame] at hRoom ⊢
    have hNext :=
      (s.shared_step event).resolve_left hSame
    rw [hNext, UInt64.toNat_add]
    exact Nat.mod_eq_of_lt hRoom

/- A step leaves every copy current or of an older version. -/
theorem Current.step
    (h : s.Current)
    {event : Event ι}
    (hRoom :
      s.shared.version.toNat + s.commits [event] <
        UInt64.size) : (s.step event).Current := by
  have hVersion := s.version_step event hRoom
  -- A copy stays as it is unless it is read anew, and the
  -- shared flow either stays too or leaves it behind.
  have hKept :
      ∀ other, s.copies other = (s.step event).shared ∨
        (s.copies other).version.toNat <
          (s.step event).shared.version.toNat := by
    intro other
    by_cases hSame : (s.step event).shared = s.shared
    · rw [hSame]
      exact h other
    · have hMore : s.commits [event] = 1 := by
        simp [commits, hSame]
      rw [hVersion, hMore]
      rcases h other with hEq | hOlder
      · rw [hEq]
        exact Or.inr (Nat.lt_succ_self _)
      · exact Or.inr (Nat.lt_succ_of_lt hOlder)
  intro other
  cases event with
  | read editor =>
      by_cases hHere : other = editor
      · exact Or.inl (if_pos hHere)
      · have hCopy :
            (s.step (.read editor)).copies other =
              s.copies other := if_neg hHere
        rw [hCopy]
        exact hKept other
  | submit editor e =>
      rw [s.copies_step_submit editor e]
      exact hKept other

------------------------------------------------------------
-- Runs
------------------------------------------------------------

/- A run is its first event, and then the rest. -/
theorem run_cons
    (s : Sharing ι)
    (event : Event ι)
    (rest : List (Event ι)) :
    s.run (event :: rest) = (s.step event).run rest :=
  rfl

/- The commits of a run are those of its parts. -/
theorem commits_append
    (s : Sharing ι)
    (before after : List (Event ι)) :
    s.commits (before ++ after) =
      s.commits before + (s.run before).commits after := by
  induction before generalizing s with
  | nil => simp [commits, run]
  | cons event rest ih =>
      rw [List.cons_append, commits, commits,
        ih (s.step event), Nat.add_assoc]
      rfl

/- The room for a run is enough for its first event. -/
private theorem room_first
    {event : Event ι}
    {rest : List (Event ι)}
    (hRoom :
      s.shared.version.toNat + s.commits (event :: rest) <
        UInt64.size) :
    s.shared.version.toNat + s.commits [event] <
      UInt64.size := by
  have hSplit := s.commits_append [event] rest
  rw [List.singleton_append] at hSplit
  omega

/- The room that the first event leaves is enough for the rest. -/
private theorem room_rest
    {event : Event ι}
    {rest : List (Event ι)}
    (hRoom :
      s.shared.version.toNat + s.commits (event :: rest) <
        UInt64.size) :
    (s.step event).shared.version.toNat +
        (s.step event).commits rest < UInt64.size := by
  have hVersion := s.version_step event (room_first hRoom)
  have hSplit := s.commits_append [event] rest
  rw [List.singleton_append] at hSplit
  have hRun : s.run [event] = s.step event := rfl
  rw [hRun] at hSplit
  omega

/- A run leaves every copy current or of an older version. -/
theorem Current.run
    (h : s.Current)
    {events : List (Event ι)}
    (hRoom :
      s.shared.version.toNat + s.commits events <
        UInt64.size) : (s.run events).Current := by
  induction events generalizing s with
  | nil => exact h
  | cons event rest ih =>
      exact ih (h.step (room_first hRoom)) (room_rest hRoom)

/- The accepted edits of a run lead to the shared flow. -/
theorem Current.chained
    (h : s.Current)
    {events : List (Event ι)}
    (hRoom :
      s.shared.version.toNat + s.commits events <
        UInt64.size) :
    Chained s.shared (s.run events).shared
      (s.accepted events) := by
  induction events generalizing s with
  | nil => rfl
  | cons event rest ih =>
      have hRest :=
        ih (h.step (room_first hRoom)) (room_rest hRoom)
      cases event with
      | read editor => exact hRest
      | submit editor e =>
          rw [run_cons]
          cases hAnswer : s.answer editor e with
          | error err =>
              have hNone :
                  s.acceptedBy (.submit editor e) = [] := by
                simp only [acceptedBy, hAnswer]
              rw [accepted, hNone, step_of_error hAnswer]
              rw [step_of_error hAnswer] at hRest
              exact hRest
          | ok result =>
              rcases result with ⟨t', made⟩
              rcases h.answer_eq hAnswer with
                ⟨hCopy, hApply⟩
              have hOne :
                  s.acceptedBy (.submit editor e) =
                    [(s.copies editor, e)] := by
                simp only [acceptedBy, hAnswer]
              rw [accepted, hOne, step_of_ok hAnswer]
              rw [step_of_ok hAnswer] at hRest
              refine ⟨hCopy, t', made, ?_, hRest⟩
              rw [hCopy]
              exact hApply

/- A copy is the flow that was shared at an earlier moment. -/
theorem exists_read
    (s : Sharing ι)
    (hCopies : ∀ editor, s.copies editor = s.shared)
    (events : List (Event ι))
    (editor : ι) :
    ∃ before after, events = before ++ after ∧
      (s.run events).copies editor =
        (s.run before).shared := by
  induction events using List.reverseRecOn with
  | nil => exact ⟨[], [], rfl, hCopies editor⟩
  | append_singleton events event ih =>
      rcases ih with ⟨before, after, hEvents, hCopy⟩
      have hRun :
          s.run (events ++ [event]) =
            (s.run events).step event := by
        simp [run]
      by_cases hRead : event = .read editor
      · refine ⟨events, [event], rfl, ?_⟩
        rw [hRun, hRead]
        exact if_pos rfl
      · refine
          ⟨before, after ++ [event], by simp [hEvents], ?_⟩
        rw [hRun, ← hCopy]
        cases event with
        | read other =>
            refine if_neg fun hSame => hRead ?_
            rw [hSame]
        | submit other e => rw [copies_step_submit]

/-
  No edit is lost.  In any run of any editors, with room for
  the version to count the commits, the accepted edits lead
  from the first flow to the shared one, each applied to
  exactly the flow that its editor saw.  When an edit is
  submitted, the copy of its editor is the flow of an earlier
  moment.  The answer is stale exactly if that is not the
  shared flow any more, and otherwise the answer is that of
  the copy itself.
-/
theorem no_lost_update
    (start : Flow)
    (events : List (Event ι))
    (hRoom :
      start.version.toNat +
          (opened start : Sharing ι).commits events <
        UInt64.size) :
    Chained start
        ((opened start : Sharing ι).run events).shared
        ((opened start : Sharing ι).accepted events) ∧
      ∀ before after editor e,
        events = before ++ .submit editor e :: after →
        let s := (opened start : Sharing ι).run before
        (∃ earlier later, before = earlier ++ later ∧
          s.copies editor =
            ((opened start : Sharing ι).run earlier).shared) ∧
        ((∃ expected actual, s.answer editor e =
            .error
              (.rejected (.staleVersion expected actual))) ↔
          s.copies editor ≠ s.shared) ∧
        (s.copies editor = s.shared →
          s.answer editor e = (s.copies editor).apply e) ∧
        (∀ t' made, s.answer editor e = .ok (t', made) →
          s.copies editor = s.shared ∧
            s.step (.submit editor e) =
              { s with shared := t' }) ∧
        ∀ f, s.answer editor e = .error f →
          s.step (.submit editor e) = s := by
  have hOpened : (opened start : Sharing ι).Current :=
    current_opened start
  refine ⟨hOpened.chained hRoom, ?_⟩
  intro before after editor e hEvents s
  have hRoomBefore :
      start.version.toNat +
          (opened start : Sharing ι).commits before <
        UInt64.size := by
    rw [hEvents, commits_append] at hRoom
    omega
  have hCurrent : s.Current := hOpened.run hRoomBefore
  refine
    ⟨exists_read _ (fun _ => rfl) before editor,
      hCurrent.stale_iff editor e, ?_, ?_, ?_⟩
  · intro hSame
    unfold answer Flow.applyAt
    rw [hSame, if_pos rfl]
  · intro t' made hOk
    exact ⟨(hCurrent.answer_eq hOk).1, step_of_ok hOk⟩
  · exact fun f hError => step_of_error hError

/-
  Two editors open a new flow.  One adds an entry, so that
  the other one is refused the deletion of it, until it has
  read the flow again.
-/
theorem no_lost_update_two_editors :
    let start := Flow.new Flow.unnamed
    let adds : Event Bool :=
      .submit true
        (.add Flow.firstRootId .hangup "Bye" (some .star))
    let deletes : Event Bool := .submit false (.delete "n1")
    let events := [adds, deletes, .read false, deletes]
    start.version.toNat + (opened start).commits events <
        UInt64.size ∧
      (∃ expected actual,
        ((opened start).run [adds]).answer false
            (.delete "n1") =
          .error
            (.rejected (.staleVersion expected actual))) ∧
      Chained start ((opened start).run events).shared
        ((opened start).accepted events) ∧
      ((opened start).accepted events).length = 2 := by
  intro start adds deletes events
  have hRoom :
      start.version.toNat + (opened start).commits events <
        UInt64.size := by decide +kernel
  rcases no_lost_update start events hRoom with
    ⟨hChained, hSubmitted⟩
  rcases hSubmitted [adds] [.read false, deletes] false
    (.delete "n1") rfl with ⟨-, hStale, -⟩
  exact
    ⟨hRoom, hStale.mpr (by decide +kernel), hChained,
      by decide +kernel⟩

end Sharing

end CallFlow
