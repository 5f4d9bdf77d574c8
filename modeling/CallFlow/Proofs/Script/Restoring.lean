import CallFlow.Dialplan.Render
import CallFlow.Proofs.Bytes.Framing
import CallFlow.Script.Bytes

/-
  A script is restored from its bytes.

  A value of a type with cases is the number of its case and
  then its parts, so each case has one lemma in each law: the
  parts are read back, and reading them is stable.

  Main declarations:
    * `Script.Fits`
    * `Codec.frames_instr`
    * `Codec.frames_script`
    * `Script.restored_from_bytes`
-/

namespace CallFlow

------------------------------------------------------------
-- Scripts That Fit
------------------------------------------------------------

namespace Codec

instance
    (s : String) : Decidable (TextFits s) :=
  inferInstanceAs (Decidable (s.utf8ByteSize < UInt64.size))

end Codec

open Codec (TextFits)

/- The texts of a target can be counted. -/
def Target.Fits : Target → Prop
  | queue name => TextFits name
  | number technology destination =>
      TextFits technology ∧ TextFits destination

/- The texts of an instruction can be counted. -/
def Instr.Fits : Instr → Prop
  | play sound _ options =>
      TextFits sound ∧ ∀ t ∈ options, TextFits t
  | readDigits channelVar prompt _ _ =>
      TextFits channelVar ∧ ∀ t ∈ prompt, TextFits t
  | dispatch channelVar => TextFits channelVar
  | bridge target _ options =>
      target.Fits ∧ ∀ t ∈ options, TextFits t
  | goto block _ _ => TextFits block
  | _ => True

/-
  The index of a block is a word of 64 bits, and its texts
  and steps can be counted in one.
-/
def Block.Fits
    (b : Block) : Prop :=
  b.index < UInt64.size ∧ TextFits b.name ∧
    b.steps.length < UInt64.size ∧
    ∀ st ∈ b.steps, st.instr.Fits

/-
  The texts and blocks of a script can be counted in words
  of 64 bits, as those of a script in memory can.
-/
def Script.Fits
    (s : Script) : Prop :=
  TextFits s.flowName ∧ TextFits s.entryExtension ∧
    s.blocks.length < UInt64.size ∧ ∀ b ∈ s.blocks, b.Fits

instance : (x : Target) → Decidable x.Fits
  | .queue name => inferInstanceAs (Decidable (TextFits name))
  | .number technology destination =>
      inferInstanceAs
        (Decidable
          (TextFits technology ∧ TextFits destination))

instance : (i : Instr) → Decidable i.Fits
  | .play sound _ options =>
      inferInstanceAs
        (Decidable (TextFits sound ∧ ∀ t ∈ options, TextFits t))
  | .readDigits channelVar prompt _ _ =>
      inferInstanceAs
        (Decidable
          (TextFits channelVar ∧ ∀ t ∈ prompt, TextFits t))
  | .dispatch channelVar =>
      inferInstanceAs (Decidable (TextFits channelVar))
  | .bridge target _ options =>
      inferInstanceAs
        (Decidable (target.Fits ∧ ∀ t ∈ options, TextFits t))
  | .goto block _ _ =>
      inferInstanceAs (Decidable (TextFits block))
  | .answer => inferInstanceAs (Decidable True)
  | .wait _ => inferInstanceAs (Decidable True)
  | .waitForDigit _ => inferInstanceAs (Decidable True)
  | .hangup _ => inferInstanceAs (Decidable True)

instance
    (b : Block) : Decidable b.Fits :=
  inferInstanceAs
    (Decidable
      (b.index < UInt64.size ∧ TextFits b.name ∧
        b.steps.length < UInt64.size ∧
        ∀ st ∈ b.steps, st.instr.Fits))

instance
    (s : Script) : Decidable s.Fits :=
  inferInstanceAs
    (Decidable
      (TextFits s.flowName ∧ TextFits s.entryExtension ∧
        s.blocks.length < UInt64.size ∧
        ∀ b ∈ s.blocks, b.Fits))

namespace Codec

variable {α : Type}

------------------------------------------------------------
-- Labels, Tags and Targets
------------------------------------------------------------

/- A case is its number and its parts. -/
theorem Reads.case
    {next : Nat × List UInt8 → Option (α × List UInt8)}
    {n : Nat}
    {w : List UInt8}
    {a : α}
    (hNumber : n < UInt32.size)
    (hParts : Reads (fun rest => next (n, rest)) w a) :
    Reads (fun bs => caseNumber.read bs >>= next)
      (caseNumber.write n ++ w) a :=
  (frames_caseNumber.reads n hNumber).bind hParts

/- A case may have no parts. -/
theorem Reads.bareCase
    {next : Nat × List UInt8 → Option (α × List UInt8)}
    {n : Nat}
    {a : α}
    (hNumber : n < UInt32.size)
    (hDone : ∀ rest, next (n, rest) = some (a, rest)) :
    Reads (fun bs => caseNumber.read bs >>= next)
      (caseNumber.write n) a := by
  rw [← List.append_nil (caseNumber.write n)]
  exact .case hNumber hDone

/- Keys. -/
theorem frames_key : key.Frames fun _ => True := by
  refine frames_text.iso fun k _ => ⟨?_, k.ofText?_text⟩
  have hAll : ∀ k ∈ Key.all, TextFits k.text := by
    decide +kernel
  exact hAll k k.mem_all

/- Labels. -/
theorem frames_label : label.Frames fun _ => True where
  reads := by
    intro l _
    cases l with
    | entry => exact .bareCase (n := 0) (by decide) fun _ => rfl
    | digit k =>
        refine .case (by decide) ?_
        exact (frames_key.reads k trivial).readAs _
    | invalid =>
        exact .bareCase (n := 2) (by decide) fun _ => rfl
    | timeout =>
        exact .bareCase (n := 3) (by decide) fun _ => rfl
  stable := by
    refine frames_caseNumber.stable.bind fun n => ?_
    match n with
    | 0 => exact .done _
    | 1 => exact frames_key.stable.readAs _
    | 2 => exact .done _
    | 3 => exact .done _
    | n + 4 => exact .fail

/- Tags. -/
theorem frames_tag : tag.Frames fun _ => True where
  reads := by
    intro g _
    cases g with
    | start => exact .bareCase (n := 0) (by decide) fun _ => rfl
    | collect =>
        exact .bareCase (n := 1) (by decide) fun _ => rfl
  stable := by
    refine frames_caseNumber.stable.bind fun n => ?_
    match n with
    | 0 => exact .done _
    | 1 => exact .done _
    | n + 2 => exact .fail

/- Targets. -/
theorem frames_target : target.Frames Target.Fits where
  reads := by
    intro x hx
    cases x with
    | queue name =>
        refine .case (by decide) ?_
        exact (frames_text.reads name hx).readAs _
    | number technology destination =>
        refine .case (by decide) ?_
        have hParts :=
          (frames_text.pair frames_text).reads
            (technology, destination) hx
        exact hParts.readAs _
  stable := by
    refine frames_caseNumber.stable.bind fun n => ?_
    match n with
    | 0 => exact frames_text.stable.readAs _
    | 1 => exact (frames_text.pair frames_text).stable.readAs _
    | n + 2 => exact .fail

------------------------------------------------------------
-- Instructions
------------------------------------------------------------

/- The parts of an instruction that plays a sound. -/
theorem frames_playParts :
    playParts.Frames fun p =>
      TextFits p.1 ∧ True ∧ ∀ t ∈ p.2.2, TextFits t :=
  frames_text.pair (frames_bool.pair frames_text.option)

/- The parts of an instruction that reads digits. -/
theorem frames_readParts :
    readParts.Frames fun p =>
      TextFits p.1 ∧ (∀ t ∈ p.2.1, TextFits t) ∧
        True ∧ True :=
  frames_text.pair
    (frames_text.option.pair (frames_word32.pair frames_word32))

/- The parts of an instruction that connects a call. -/
theorem frames_bridgeParts :
    bridgeParts.Frames fun p =>
      p.1.Fits ∧ (∀ n ∈ p.2.1, True) ∧
        ∀ t ∈ p.2.2, TextFits t :=
  frames_target.pair
    (frames_word32.option.pair frames_text.option)

/- The parts of a jump. -/
theorem frames_gotoParts :
    gotoParts.Frames fun p =>
      TextFits p.1 ∧ True ∧ ∀ g ∈ p.2.2, True :=
  frames_text.pair (frames_label.pair frames_tag.option)

/- Instructions. -/
theorem frames_instr : instr.Frames Instr.Fits where
  reads := by
    intro i hi
    cases i with
    | answer =>
        exact .bareCase (n := 0) (by decide) fun _ => rfl
    | wait seconds =>
        refine .case (by decide) ?_
        exact (frames_word32.reads seconds trivial).readAs _
    | play sound blocking options =>
        refine .case (by decide) ?_
        have hParts :=
          frames_playParts.reads (sound, blocking, options)
            ⟨hi.1, trivial, hi.2⟩
        exact hParts.readAs _
    | waitForDigit timeout =>
        refine .case (by decide) ?_
        exact (frames_word32.reads timeout trivial).readAs _
    | readDigits channelVar prompt maxDigits timeout =>
        refine .case (by decide) ?_
        have hParts :=
          frames_readParts.reads
            (channelVar, prompt, maxDigits, timeout)
            ⟨hi.1, hi.2, trivial, trivial⟩
        exact hParts.readAs _
    | dispatch channelVar =>
        refine .case (by decide) ?_
        exact (frames_text.reads channelVar hi).readAs _
    | bridge target timeout options =>
        refine .case (by decide) ?_
        have hParts :=
          frames_bridgeParts.reads (target, timeout, options)
            ⟨hi.1, fun _ _ => trivial, hi.2⟩
        exact hParts.readAs _
    | goto block label tag =>
        refine .case (by decide) ?_
        have hParts :=
          frames_gotoParts.reads (block, label, tag)
            ⟨hi, trivial, fun _ _ => trivial⟩
        exact hParts.readAs _
    | hangup cause =>
        refine .case (by decide) ?_
        have hParts :=
          frames_word32.option.reads cause fun _ _ => trivial
        exact hParts.readAs _
  stable := by
    refine frames_caseNumber.stable.bind fun n => ?_
    match n with
    | 0 => exact .done _
    | 1 => exact frames_word32.stable.readAs _
    | 2 => exact frames_playParts.stable.readAs _
    | 3 => exact frames_word32.stable.readAs _
    | 4 => exact frames_readParts.stable.readAs _
    | 5 => exact frames_text.stable.readAs _
    | 6 => exact frames_bridgeParts.stable.readAs _
    | 7 => exact frames_gotoParts.stable.readAs _
    | 8 => exact frames_word32.option.stable.readAs _
    | n + 9 => exact .fail

------------------------------------------------------------
-- Scripts
------------------------------------------------------------

/- Steps. -/
theorem frames_step : step.Frames fun st => st.instr.Fits := by
  have hParts :=
    frames_label.pair (frames_tag.option.pair frames_instr)
  refine hParts.iso fun st hFits => ⟨?_, rfl⟩
  exact ⟨trivial, fun _ _ => trivial, hFits⟩

/- Blocks. -/
theorem frames_block : block.Frames Block.Fits :=
  (frames_count.pair
    (frames_text.pair frames_step.list)).iso
      fun _ hFits => ⟨hFits, rfl⟩

/- Scripts. -/
theorem frames_script : script.Frames Script.Fits :=
  (frames_text.pair
    (frames_text.pair frames_block.list)).iso
      fun _ hFits => ⟨hFits, rfl⟩

end Codec

namespace Script

/-
  A script is read back from its bytes, whatever comes after
  them, and nothing of that is taken.  No shorter beginning
  of its bytes is a script.  So different scripts have
  different bytes, and a script that is read back is rendered
  as it was.
-/
theorem restored_from_bytes
    (s : Script)
    (hFits : s.Fits) :
    (∀ rest,
      Codec.script.read (s.toBytes ++ rest) = some (s, rest) ∧
        ofBytes? (s.toBytes ++ rest) = some s) ∧
      (∀ bs, bs <+: s.toBytes → bs ≠ s.toBytes →
        ofBytes? bs = none) ∧
      (∀ s' : Script, s'.Fits → s'.toBytes = s.toBytes →
        s' = s) ∧
      ∀ rest,
        (ofBytes? (s.toBytes ++ rest)).map render =
          some s.render := by
  have hReads := Codec.frames_script.reads s hFits
  have hBack : ∀ rest,
      ofBytes? (s.toBytes ++ rest) = some s := by
    intro rest
    unfold ofBytes? toBytes
    rw [hReads rest]
    rfl
  refine ⟨fun rest => ⟨hReads rest, hBack rest⟩, ?_, ?_, ?_⟩
  · intro bs hCut hNe
    have hNone :=
      Codec.frames_script.stable.eq_none_of_cut hReads hCut hNe
    unfold ofBytes?
    rw [hNone]
    rfl
  · intro s' hFits' hSame
    have hReads' := Codec.frames_script.reads s' hFits'
    have hPrefix : s'.toBytes <+: s.toBytes :=
      hSame ▸ List.prefix_refl s'.toBytes
    exact hReads'.eq_of_prefix hReads hPrefix
  · intro rest
    rw [hBack rest]
    rfl

/-
  A script with a text outside ASCII, a number that takes a
  wide form, and an index that takes the widest.  Its bytes
  without the last are no script.
-/
theorem restored_from_bytes_wide :
    let s : Script :=
      ⟨"Grüße", "s",
        [⟨18446744073709551615, "ivr-gr-e",
          [⟨.entry, some .start, .wait 70000⟩,
            ⟨.digit .star, none,
              .bridge (.number "PJSIP" "100") (some 250)
                none⟩]⟩]⟩
    s.Fits ∧
      ofBytes? (s.toBytes ++ [255, 0]) = some s ∧
      ofBytes? s.toBytes.dropLast = none := by
  intro s
  have hFits : s.Fits := by
    decide +kernel
  have hRestored := restored_from_bytes s hFits
  refine ⟨hFits, (hRestored.1 [255, 0]).2, ?_⟩
  refine hRestored.2.1 _ (List.dropLast_prefix s.toBytes) ?_
  intro hSame
  have hLength := congrArg List.length hSame
  rw [List.length_dropLast] at hLength
  have hBytes : s.toBytes.length ≠ 0 := by
    decide +kernel
  omega

end Script

end CallFlow
