import CallFlow.Proofs.Compile.Laying
import CallFlow.Proofs.Text.Nesting

/-
  Which texts of a compiled script can stand in an argument.

  The texts of a script are settings, fixed texts, and names
  of blocks, all of which are checked before they are placed,
  and locations of sounds, which are not.  Of a sound only the
  name is checked, and the location that the resolver answers
  to it is placed as it is.  So a script is as safe as the
  answers: a resolver that answers safe names with safe
  locations has safe scripts, and a library that knows another
  location may close a call early.

  Main declarations:
    * `StepKind.Admits.isDialplanSafe`
    * `Emitter.drawsOn_standard`
    * `Flow.Answers`
    * `Resolver.Careful`
    * `AudioLibrary.Safe`
    * `Compiler.drawsOn_answers`
    * `Compiler.texts_as_safe_as_answers`
    * `Compiler.unsafe_location_kept`
-/

namespace CallFlow

open Text (isDialplanSafe)

------------------------------------------------------------
-- Settings
------------------------------------------------------------

/- A text that could be written is safe. -/
theorem StepKind.Admits.isDialplanSafe
    {k : StepKind}
    {s : Settings}
    (h : k.Admits s)
    {name text : String}
    (hText : s.text? name = some text) :
    Text.isDialplanSafe text = true := by
  rcases Option.bind_eq_some_iff.mp hText with
    ⟨v, hValue, hIs⟩
  have hCheck := h name v hValue
  cases v with
  | flag b => cases hIs
  | integer n => cases hIs
  | text s =>
      cases hIs
      unfold StepKind.check at hCheck
      split at hCheck
      · cases hCheck
      · split at hCheck
        · cases hCheck
        · split at hCheck
          · cases hCheck
          · by_contra hUnsafe
            simp only [if_neg hUnsafe] at hCheck
            cases hCheck

/- So is one that is not blank. -/
theorem StepKind.Admits.isDialplanSafe_filled
    {k : StepKind}
    {s : Settings}
    (h : k.Admits s)
    {name text : String}
    (hText : s.filled? name = some text) :
    Text.isDialplanSafe text = true :=
  h.isDialplanSafe (Option.filter_eq_some_iff.mp hText).1

------------------------------------------------------------
-- Emitted Texts
------------------------------------------------------------

/- A value that has to be there is there. -/
theorem Emitter.require_eq_ok
    {α : Type}
    {name : String}
    {v : Option α}
    {a : α}
    (h : require name v = .ok a) : v = some a := by
  cases v with
  | none => cases h
  | some b => exact congrArg some (Except.ok.inj h)

/- A node is emitted with its settings and what it hears. -/
theorem Emitter.drawsOn_standard
    {kind : StepKind}
    {n : Node}
    {sound : String → Option String}
    {source : String → Prop}
    {action : List Instr}
    (hSettings : kind.Admits n.settings)
    (hSounds : ∀ param x, sound param = some x → source x)
    (h : standard kind n sound = .ok action) :
    ∀ i ∈ action, i.DrawsOn source := by
  have hFilled {name : String} :
      ∀ w ∈ (n.settings.filled? name).toList,
        isDialplanSafe w = true :=
    fun w hw =>
      hSettings.isDialplanSafe_filled (Option.mem_toList.mp hw)
  have hOr {name text : String}
      (hText : isDialplanSafe text = true) :
      isDialplanSafe
        ((n.settings.filled? name).getD text) = true := by
    cases hFound : n.settings.filled? name with
    | none => exact hText
    | some w => exact hSettings.isDialplanSafe_filled hFound
  have hPlay (blocking : Bool)
      (hPlayed : play blocking n sound = .ok action) :
      ∀ i ∈ action, i.DrawsOn source := by
    rcases bind_eq_ok_iff.mp hPlayed with
      ⟨x, hThere, hDone⟩
    cases hDone
    simp only [List.forall_mem_singleton]
    refine ⟨hFilled, ?_⟩
    simpa [Instr.sounds] using
      hSounds _ x (require_eq_ok hThere)
  cases kind with
  | playback => exact hPlay true h
  | background => exact hPlay false h
  | collect =>
      rcases bind_eq_ok_iff.mp h with ⟨m, -, hDone⟩
      cases hDone
      simp only [List.forall_mem_singleton]
      refine ⟨?_, fun x hx => ?_⟩
      · simpa [Instr.words] using hOr (by decide)
      · exact hSounds _ x (Option.mem_toList.mp hx)
  | agent =>
      rcases bind_eq_ok_iff.mp h with ⟨queue, hThere, hDone⟩
      cases hDone
      simp only [List.forall_mem_singleton]
      refine ⟨List.forall_mem_cons.mpr ⟨?_, hFilled⟩, ?_⟩
      · exact hSettings.isDialplanSafe_filled
          (require_eq_ok hThere)
      · simp [Instr.sounds]
  | number =>
      rcases bind_eq_ok_iff.mp h with ⟨dest, hThere, hDone⟩
      cases hDone
      simp only [List.forall_mem_singleton]
      refine
        ⟨List.forall_mem_cons.mpr ⟨hOr (by decide),
          List.forall_mem_cons.mpr ⟨?_, hFilled⟩⟩, ?_⟩
      · exact hSettings.isDialplanSafe_filled
          (require_eq_ok hThere)
      · simp [Instr.sounds]
  | hangup =>
      cases h
      simp only [List.forall_mem_singleton]
      exact ⟨by simp [Instr.words], by simp [Instr.sounds]⟩

------------------------------------------------------------
-- Compiled Texts
------------------------------------------------------------

/- A name that can be used is safe. -/
theorem Options.Usable.isDialplanSafe
    {s : String}
    (h : Options.Usable s) :
    Text.isDialplanSafe s = true := by
  refine Text.isDialplanSafe_of_forall fun c hc => ?_
  have hName := h.isNameChar c hc
  rcases Options.plain_of_isNameChar hName with
    ⟨hOther, hControl⟩
  simp only [List.mem_cons, List.not_mem_nil, or_false,
    not_or] at hOther
  refine ⟨?_, ?_, hOther.2.2, hControl⟩ <;>
    rintro rfl <;> cases hName

/- What is put around actions draws on no other sounds. -/
theorem Instr.keeps_drawsOn
    (source : String → Prop) :
    Layout.Keeps (Instr.DrawsOn source) where
  answer := ⟨by simp [words], by simp [sounds]⟩
  wait seconds := ⟨by simp [words], by simp [sounds]⟩
  waitForDigit timeout := ⟨by simp [words], by simp [sounds]⟩
  dispatch channelVar prompt maxDigits timeout h :=
    ⟨h.words, by simp [sounds]⟩
  goto name tag h :=
    ⟨by simpa [words] using h.isDialplanSafe,
      by simp [sounds]⟩
  hangup := ⟨by simp [words], by simp [sounds]⟩

/- A resolver that answers safe names with safe locations. -/
def Resolver.Careful
    (r : Resolver) : Prop :=
  ∀ name location,
    isDialplanSafe name = true → r name = .ok location →
      isDialplanSafe location = true

/- Names that are their own locations are answered so. -/
theorem Resolver.careful_direct : Resolver.direct.Careful := by
  intro name location hName h
  unfold direct at h
  split at h
  · cases h
  · cases h
    exact hName

/- A library whose locations are all safe. -/
def AudioLibrary.Safe
    (lib : AudioLibrary) : Prop :=
  ∀ name location,
    lib.sounds.get? name = some location →
      isDialplanSafe location = true

/- So are the names of a library whose locations are safe. -/
theorem AudioLibrary.careful_resolver
    {lib : AudioLibrary}
    (hSafe : lib.Safe) : lib.resolver.Careful := by
  intro name location _ h
  unfold resolver at h
  split at h
  · rename_i found hFound
    cases h
    exact hSafe name location hFound
  · cases h

/-
  A location is the answer, as it is, to a safe name that a
  node of the flow has for audio.
-/
def Flow.Answers
    (t : Flow)
    (r : Resolver)
    (location : String) : Prop :=
  ∃ id n, t.get? id = some n ∧
    ∃ param ∈ n.kind.audioParams, ∃ name,
      n.settings.text? param = some name ∧
        isDialplanSafe name = true ∧
        r name = .ok location

/- What a node of a sound flow hears is such an answer. -/
theorem Flow.Sound.answers_of_heard
    {t : Flow}
    {r : Resolver}
    {id param location : String}
    {n : Node}
    (h : t.Sound)
    (hNode : t.get? id = some n)
    (hHeard : n.heard r param = some location) :
    t.Answers r location := by
  unfold Node.heard at hHeard
  split at hHeard
  · rename_i hParam
    rcases Option.bind_eq_some_iff.mp hHeard with
      ⟨name, hName, hLocation⟩
    refine
      ⟨id, n, hNode, param, hParam, name, hName,
        (h.settings id n hNode).isDialplanSafe hName, ?_⟩
    cases hAnswer : r name with
    | ok found =>
        rw [hAnswer] at hLocation
        exact congrArg Except.ok (Option.some.inj hLocation)
    | error e =>
        rw [hAnswer] at hLocation
        cases hLocation
  · cases hHeard

namespace Compiler

variable {t : Flow}
variable {o : Options}
variable {r : Resolver}
variable {c : Compilation}

/- A compiled script draws on the answers to its flow. -/
theorem drawsOn_answers
    (h : (withOptions o).compile t r = .ok c) :
    ∀ i ∈ c.script.instrs, i.DrawsOn (t.Answers r) := by
  rcases exists_chart h with ⟨-, hSound, -⟩
  refine forall_instrs h (Instr.keeps_drawsOn _) ?_
  intro id n action hNode hEmitted
  rw [emitters_withOptions] at hEmitted
  exact
    Emitter.drawsOn_standard (hSound.settings id n hNode)
      (fun _ _ => hSound.answers_of_heard hNode) hEmitted

/- The words of a compiled script are safe. -/
theorem isDialplanSafe_of_mem_words
    (h : (withOptions o).compile t r = .ok c) :
    ∀ w ∈ c.script.words, isDialplanSafe w = true := by
  rcases exists_chart h with ⟨hOptions, -, p, -, hScript⟩
  have hEntry :
      isDialplanSafe c.script.entryExtension = true := by
    rw [hScript]
    exact (Options.accepted_of_check hOptions).2.isDialplanSafe
  refine List.forall_mem_cons.mpr ⟨hEntry, fun w hw => ?_⟩
  rcases List.mem_flatMap.mp hw with ⟨i, hi, hIn⟩
  exact (drawsOn_answers h i hi).words w hIn

/- Its sounds are answers to its flow. -/
theorem answers_of_mem_sounds
    (h : (withOptions o).compile t r = .ok c) :
    ∀ x ∈ c.script.sounds, t.Answers r x := by
  intro x hx
  rcases List.mem_flatMap.mp hx with ⟨i, hi, hIn⟩
  exact (drawsOn_answers h i hi).sounds x hIn

/- It is as safe as its sounds. -/
theorem safe_iff_sounds
    (h : (withOptions o).compile t r = .ok c) :
    c.script.Safe ↔
      ∀ x ∈ c.script.sounds, isDialplanSafe x = true := by
  unfold Script.Safe
  rw [List.forall_mem_append]
  exact and_iff_right (isDialplanSafe_of_mem_words h)

/- It is safe if safe names are answered with safe locations. -/
theorem safe_of_careful
    (h : (withOptions o).compile t r = .ok c)
    (hCareful : r.Careful) : c.script.Safe := by
  refine (safe_iff_sounds h).mpr fun x hx => ?_
  rcases answers_of_mem_sounds h x hx with
    ⟨id, n, -, param, -, name, -, hName, hAnswer⟩
  exact hCareful name x hName hAnswer

/-
  The words of a compiled script are safe, and its sounds are
  the answers, as they are, to safe names that the flow has
  for audio.  So the script is safe exactly if its sounds are,
  and it is whenever the resolver answers safe names with safe
  locations, as one does that answers every name with itself,
  and a library of safe locations.
-/
theorem texts_as_safe_as_answers
    (h : (withOptions o).compile t r = .ok c) :
    (∀ w ∈ c.script.words, isDialplanSafe w = true) ∧
    (∀ x ∈ c.script.sounds, t.Answers r x) ∧
    (c.script.Safe ↔
      ∀ x ∈ c.script.sounds, isDialplanSafe x = true) ∧
    (r.Careful → c.script.Safe) ∧
    ((r = .direct ∨ ∃ lib : AudioLibrary,
        lib.Safe ∧ r = lib.resolver) →
      c.script.Safe) := by
  refine
    ⟨isDialplanSafe_of_mem_words h, answers_of_mem_sounds h,
      safe_iff_sounds h, safe_of_careful h, ?_⟩
  rintro (rfl | ⟨lib, hLib, rfl⟩)
  · exact safe_of_careful h Resolver.careful_direct
  · exact safe_of_careful h
      (AudioLibrary.careful_resolver hLib)

/- A library of safe locations, and options in parentheses. -/
theorem texts_as_safe_as_answers_library :
    let t := (Flow.new "Hotline").run
      [.update Flow.firstRootId
          { Patch.empty with
            settings :=
              NameMap.ofList
                [("audio", some (.text "hello"))] },
        .add Flow.firstRootId .agent "Sales"
          (some (.digit 1)),
        .update "n1"
          { Patch.empty with
            settings :=
              NameMap.ofList
                [("queue", some (.text "sales")),
                  ("options", some (.text "tTm(hold)"))] }]
    let lib := AudioLibrary.ofList [("hello", "ivr/(a)")]
    ∃ c,
      (withOptions .standard).compile t lib.resolver =
        .ok c ∧
      (∀ w ∈ c.script.words, isDialplanSafe w = true) ∧
      "tTm(hold)" ∈ c.script.words ∧
      (∀ x ∈ c.script.sounds, t.Answers lib.resolver x) ∧
      c.script.Safe := by
  intro t lib
  have hTexts :
      ((withOptions .standard).compile t
          lib.resolver).toOption.map (fun c =>
        decide ("tTm(hold)" ∈ c.script.words)) =
        some true := by
    decide +kernel
  rcases exists_ok_of_toOption_map hTexts with
    ⟨c, hCompile, hOptions⟩
  have hLib : lib.Safe := by
    intro name x h
    have hMem := NameMap.mem_of_get?_ofList h
    rw [(Prod.mk.inj (List.mem_singleton.mp hMem)).2]
    decide
  rcases texts_as_safe_as_answers hCompile with
    ⟨hWords, hSounds, -, -, hSafe⟩
  exact
    ⟨c, hCompile, hWords, of_decide_eq_true hOptions,
      hSounds, hSafe (Or.inr ⟨lib, hLib, rfl⟩)⟩

/-
  A library that knows a location with a parenthesis has it
  placed in the script.  The text cannot stand there as it is,
  and it is written so that its parenthesis ends the call.
-/
theorem unsafe_location_kept :
    let t := (Flow.new "main").run
      [.update Flow.firstRootId
        { Patch.empty with
          settings :=
            NameMap.ofList
              [("audio", some (.text "hello"))] }]
    let lib := AudioLibrary.ofList [("hello", "a)b")]
    t.Reachable ∧ Options.standard.check = .ok () ∧
      ∃ c,
        (withOptions .standard).compile t lib.resolver =
          .ok c ∧
        "a)b" ∈ c.script.sounds ∧
        isDialplanSafe "a)b" = false ∧
        ¬ c.script.Safe ∧
        c.script.render =
          "; Generated by ivrflow for flow 'main'\n" ++
            "\n[ivr-main]\n" ++
            "exten => s,1,Answer()\n" ++
            " same => n,Wait(1)\n" ++
            " same => n(start),Playback(a)b)\n" ++
            " same => n,Hangup()\n" := by
  intro t lib
  have hReachable : t.Reachable :=
    ⟨Flow.new "main", _, Or.inl ⟨"main", rfl⟩, rfl⟩
  have hTexts :
      ((withOptions .standard).compile t
          lib.resolver).toOption.map (fun c =>
        (c.script.sounds, c.script.render)) =
        some
          (["a)b"],
            "; Generated by ivrflow for flow 'main'\n" ++
              "\n[ivr-main]\n" ++
              "exten => s,1,Answer()\n" ++
              " same => n,Wait(1)\n" ++
              " same => n(start),Playback(a)b)\n" ++
              " same => n,Hangup()\n") := by
    decide +kernel
  rcases exists_ok_of_toOption_map hTexts with
    ⟨c, hCompile, hBoth⟩
  rcases Prod.mk.inj hBoth with ⟨hSounds, hText⟩
  have hMem : "a)b" ∈ c.script.sounds := by
    rw [hSounds]
    exact List.mem_singleton_self _
  have hUnsafe : isDialplanSafe "a)b" = false := by
    decide
  refine
    ⟨hReachable, rfl, c, hCompile, hMem, hUnsafe,
      fun hSafe => ?_, hText⟩
  rw [hSafe _ (List.mem_append_right _ hMem)] at hUnsafe
  cases hUnsafe

end Compiler

end CallFlow
