import CallFlow.Audio.Library
import CallFlow.Proofs.Number.Numeral
import Mathlib.Data.List.Nodup
import Mathlib.Tactic.Tauto

/-
  Uploads in a run of changes of a library.

  Uploads are counted, and the count can be read off the name
  that is made for an upload, whatever file name follows it.
  So two uploads of a run never get the same name.  A name is
  registered at some point of a run if it was inserted and not
  removed since, or was made for an upload.  An upload does
  not look whether its name is registered, so it displaces the
  sound that was inserted under this name, and nothing else.

  Main declarations:
    * `AudioLibrary.Change`
    * `AudioLibrary.run`
    * `AudioLibrary.handedOut`
    * `AudioLibrary.LeftInserted`
    * `AudioLibrary.number_eq_of_uploadName_eq`
    * `AudioLibrary.nodup_handedOut`
    * `AudioLibrary.contains_run_iff`
    * `AudioLibrary.uploads_displace_iff`
    * `AudioLibrary.upload_displaces`
-/

namespace CallFlow

namespace AudioLibrary

------------------------------------------------------------
-- Runs of Changes
------------------------------------------------------------

/- What can be done to a library. -/
inductive Change where
  | insert (name location : String)
  | remove (name : String)
  | upload (fileName location : String)
deriving DecidableEq

/- Whether a change is an upload. -/
def Change.isUpload : Change → Bool
  | upload _ _ => true
  | _ => false

/- A change inserts a sound under a name. -/
def Change.Inserts
    (name : String) : Change → Prop
  | insert name' _ => name' = name
  | _ => False

instance
    (name : String) :
    (c : Change) → Decidable (c.Inserts name)
  | .insert name' _ =>
      inferInstanceAs (Decidable (name' = name))
  | .remove _ => inferInstanceAs (Decidable False)
  | .upload _ _ => inferInstanceAs (Decidable False)

/- The library after a change. -/
def after
    (lib : AudioLibrary) : Change → AudioLibrary
  | .insert name location => lib.insert name location
  | .remove name => lib.remove name
  | .upload fileName location =>
      (lib.upload fileName location).1

/- The library after changes. -/
def run
    (lib : AudioLibrary)
    (changes : List Change) : AudioLibrary :=
  changes.foldl after lib

/- The number of uploads among changes. -/
def uploadCount
    (changes : List Change) : Nat :=
  changes.countP Change.isUpload

/- An upload in front counts one more. -/
theorem uploadCount_cons
    (c : Change)
    (changes : List Change) :
    uploadCount (c :: changes) =
      uploadCount changes + if c.isUpload then 1 else 0 :=
  List.countP_cons

/- The name that is made in a change. -/
def given
    (lib : AudioLibrary) : Change → Option String
  | .upload fileName location =>
      some (lib.upload fileName location).2
  | _ => none

/- The names that are made in a run, one after the other. -/
def handedOut
    (lib : AudioLibrary) : List Change → List String
  | [] => []
  | c :: rest =>
      (lib.given c).toList ++ (lib.after c).handedOut rest

/-
  Among changes a sound is inserted under a name, and the name
  is not removed after that.
-/
def LeftInserted
    (name : String)
    (changes : List Change) : Prop :=
  ∃ before c later, changes = before ++ c :: later ∧
    c.Inserts name ∧ .remove name ∉ later

variable {lib : AudioLibrary}
variable {name : String}
variable {c : Change}
variable {changes : List Change}

/- The first change leaves a name inserted, or a later one. -/
theorem leftInserted_cons :
    LeftInserted name (c :: changes) ↔
      (c.Inserts name ∧ .remove name ∉ changes) ∨
        LeftInserted name changes := by
  constructor
  · rintro ⟨before, d, later, hSplit, hInserts, hStays⟩
    cases before with
    | nil =>
        cases hSplit
        exact Or.inl ⟨hInserts, hStays⟩
    | cons first before =>
        cases hSplit
        exact Or.inr ⟨before, d, later, rfl, hInserts, hStays⟩
  · rintro (⟨hInserts, hStays⟩ |
      ⟨before, d, later, rfl, hInserts, hStays⟩)
    · exact ⟨[], c, changes, rfl, hInserts, hStays⟩
    · exact ⟨c :: before, d, later, rfl, hInserts, hStays⟩

instance decidableLeftInserted
    (name : String) :
    (changes : List Change) →
      Decidable (LeftInserted name changes)
  | [] => isFalse (by simp [LeftInserted])
  | c :: rest =>
      have := decidableLeftInserted name rest
      decidable_of_iff' _ leftInserted_cons

/- Names made in two runs, one after the other. -/
theorem handedOut_append
    (lib : AudioLibrary)
    (changes changes' : List Change) :
    lib.handedOut (changes ++ changes') =
      lib.handedOut changes ++
        (lib.run changes).handedOut changes' := by
  induction changes generalizing lib with
  | nil => rfl
  | cons c rest ih =>
      show (lib.given c).toList ++
          (lib.after c).handedOut (rest ++ changes') = _
      rw [ih, ← List.append_assoc]
      rfl

------------------------------------------------------------
-- Names of Uploads
------------------------------------------------------------

/- The number of an upload can be read off its name. -/
theorem number_eq_of_uploadName_eq
    {m n : UInt64}
    {fileName fileName' : String}
    (h : uploadName m fileName = uploadName n fileName') :
    m = n := by
  have hRead : ∀ (k : UInt64) (rest : String),
      (toString k.toNat ++ ("-" ++ rest)).toList.takeWhile
          Char.isDigit =
        (toString k.toNat).toList := by
    intro k rest
    have hDigits :
        ∀ c ∈ (toString k.toNat).toList,
          c.isDigit = true := by
      rw [Numeral.toList_toString]
      exact fun c => Numeral.isDigit_of_mem_digitsOf
    rw [String.toList_append,
      List.takeWhile_append_of_pos hDigits,
      String.toList_append]
    simp
  unfold uploadName at h
  simp only [String.append_assoc,
    String.append_right_inj] at h
  have hSame := congrArg
    (fun s : String => s.toList.takeWhile Char.isDigit) h
  simp only [hRead] at hSame
  exact UInt64.toNat_inj.mp
    (Numeral.toString_injective (String.toList_inj.mp hSame))

/- The number of uploads goes on by one with each upload. -/
theorem uploads_run
    (lib : AudioLibrary)
    (changes : List Change) :
    (lib.run changes).uploads =
      lib.uploads + .ofNat (uploadCount changes) := by
  induction changes generalizing lib with
  | nil => simp [run, uploadCount]
  | cons c rest ih =>
      show ((lib.after c).run rest).uploads = _
      rw [ih, uploadCount_cons, UInt64.ofNat_add,
        UInt64.add_comm (.ofNat (uploadCount rest)),
        ← UInt64.add_assoc]
      cases c with
      | upload fileName location => rfl
      | _ => exact congrArg (· + _) lib.uploads.add_zero.symm

/- Names made in a run have the numbers that come next. -/
theorem exists_number_of_mem_handedOut
    (h : name ∈ lib.handedOut changes) :
    ∃ k fileName, k < uploadCount changes ∧
      name =
        uploadName (lib.uploads + .ofNat (k + 1)) fileName := by
  induction changes generalizing lib with
  | nil => cases h
  | cons c rest ih =>
      rcases List.mem_append.mp h with hHere | hLater
      · cases c with
        | upload fileName location =>
            cases List.mem_singleton.mp hHere
            refine ⟨0, fileName, ?_, rfl⟩
            rw [uploadCount_cons]
            exact Nat.succ_pos _
        | _ => cases hHere
      · rcases ih hLater with ⟨k, fileName, hLess, rfl⟩
        have hUploads : (lib.after c).uploads = _ :=
          lib.uploads_run [c]
        have hCount :
            uploadCount (c :: rest) =
              uploadCount [c] + uploadCount rest := by
          rw [← List.singleton_append]
          exact List.countP_append
        refine ⟨uploadCount [c] + k, fileName, by omega, ?_⟩
        rw [hUploads, UInt64.add_assoc, ← UInt64.ofNat_add,
          Nat.add_assoc]

/-
  No name is made twice, as there are no more uploads than
  numbers.
-/
theorem nodup_handedOut
    (lib : AudioLibrary)
    (hFew : uploadCount changes < UInt64.size) :
    (lib.handedOut changes).Nodup := by
  induction changes generalizing lib with
  | nil => exact List.nodup_nil
  | cons c rest ih =>
      cases c with
      | upload fileName location =>
          rw [uploadCount_cons] at hFew
          have hRest : uploadCount rest + 1 < UInt64.size :=
            hFew
          refine List.nodup_cons.mpr ⟨fun hAgain => ?_,
            ih _ (by omega)⟩
          rcases exists_number_of_mem_handedOut hAgain with
            ⟨k, fileName', hLess, hName⟩
          have hNumber := number_eq_of_uploadName_eq hName
          -- The numbers of later uploads do not come round.
          have hZero : UInt64.ofNat (k + 1) = 0 :=
            UInt64.left_eq_add.mp hNumber
          have hMod : (k + 1) % UInt64.size = 0 :=
            congrArg UInt64.toNat hZero
          rw [Nat.mod_eq_of_lt (by omega)] at hMod
          cases hMod
      | insert name location => exact ih _ hFew
      | remove name => exact ih _ hFew

------------------------------------------------------------
-- Registered Names
------------------------------------------------------------

/- Where a name resolves to is what is registered for it. -/
theorem resolver_eq_ok_iff
    {location : String} :
    lib.resolver name = .ok location ↔
      lib.sounds.get? name = some location := by
  unfold resolver
  cases lib.sounds.get? name <;> simp

/- How a name comes to be registered by one change. -/
theorem contains_after_iff :
    (lib.after c).sounds.contains name = true ↔
      c.Inserts name ∨ lib.given c = some name ∨
        (lib.sounds.contains name = true ∧
          c ≠ .remove name) := by
  cases c with
  | insert name' location =>
      by_cases hHere : name = name'
      · simp [after, AudioLibrary.insert, NameMap.contains,
          NameMap.get?_insert, Change.Inserts, hHere]
      · simp [after, AudioLibrary.insert, NameMap.contains,
          NameMap.get?_insert, Change.Inserts, given, hHere,
          Ne.symm hHere]
  | remove name' =>
      by_cases hHere : name = name'
      · simp [after, AudioLibrary.remove, NameMap.contains,
          NameMap.get?_erase, Change.Inserts, given, hHere]
      · simp [after, AudioLibrary.remove, NameMap.contains,
          NameMap.get?_erase, Change.Inserts, given, hHere,
          Ne.symm hHere]
  | upload fileName location =>
      by_cases hHere :
          name = uploadName (lib.uploads + 1) fileName
      · simp [after, upload, NameMap.contains,
          NameMap.get?_insert, Change.Inserts, given, hHere]
      · simp [after, upload, NameMap.contains,
          NameMap.get?_insert, Change.Inserts, given, hHere,
          Ne.symm hHere]

/-
  A name that no upload of a run was given is registered after
  the run if it was left inserted, or if it was there and was
  never removed.
-/
theorem contains_run_iff
    (hNotGiven : name ∉ lib.handedOut changes) :
    (lib.run changes).sounds.contains name = true ↔
      LeftInserted name changes ∨
        (lib.sounds.contains name = true ∧
          .remove name ∉ changes) := by
  induction changes generalizing lib with
  | nil => simp [run, LeftInserted]
  | cons c rest ih =>
      rcases not_or.mp (mt List.mem_append.mpr hNotGiven) with
        ⟨hHere, hLater⟩
      have hNone : lib.given c ≠ some name := by
        simpa using hHere
      show ((lib.after c).run rest).sounds.contains name = _ ↔
        _
      rw [ih hLater, contains_after_iff, leftInserted_cons,
        List.mem_cons, not_or, ne_comm, or_iff_right hNone]
      tauto

------------------------------------------------------------
-- Uploads
------------------------------------------------------------

/- What is registered after an upload. -/
theorem get?_upload
    (lib : AudioLibrary)
    (fileName location name : String) :
    let made := lib.upload fileName location
    made.1.sounds.get? name =
      if name = made.2 then some location
      else lib.sounds.get? name :=
  lib.sounds.get?_insert _ name location

/- The name of an upload resolves to its location. -/
theorem resolver_upload_self
    (lib : AudioLibrary)
    (fileName location : String) :
    let made := lib.upload fileName location
    made.1.resolver made.2 = .ok location := by
  intro made
  rw [resolver_eq_ok_iff, get?_upload, if_pos rfl]

/- Every other name resolves as before. -/
theorem resolver_upload_of_ne
    {fileName location : String}
    (hNe : name ≠ (lib.upload fileName location).2) :
    (lib.upload fileName location).1.resolver name =
      lib.resolver name := by
  unfold resolver
  rw [get?_upload, if_neg hNe]

/- So an upload under a free name displaces nothing. -/
theorem resolver_upload_of_free
    {fileName location location' : String}
    (hFree :
      lib.sounds.contains (lib.upload fileName location).2 =
        false)
    (hOld : lib.resolver name = .ok location') :
    (lib.upload fileName location).1.resolver name =
      .ok location' := by
  rw [resolver_upload_of_ne, hOld]
  rintro rfl
  rw [NameMap.contains, resolver_eq_ok_iff.mp hOld] at hFree
  cases hFree

/-
  The uploads of a run that begins with no sounds and has
  fewer uploads than there are numbers.  No two of them are
  given the same name, and the name of each is made from its
  number and its file name.  It resolves to the given location
  from then on, and every other name resolves as before.  The
  name was not registered, and so nothing is displaced,
  exactly if no insertion had left it so.
-/
theorem uploads_displace_iff
    (hFew : uploadCount changes < UInt64.size) :
    (empty.handedOut changes).Nodup ∧
      ∀ before fileName location later,
        changes = before ++ .upload fileName location :: later →
          let lib := empty.run before
          let made := lib.upload fileName location
          made.2 =
              uploadName (.ofNat (uploadCount before + 1))
                fileName ∧
            made.1.resolver made.2 = .ok location ∧
            (∀ name, name ≠ made.2 →
              made.1.resolver name = lib.resolver name) ∧
            ((lib.sounds.contains made.2 = false ∧
                ∀ name location',
                  lib.resolver name = .ok location' →
                    made.1.resolver name = .ok location') ↔
              ¬ LeftInserted made.2 before) := by
  have hOnce := nodup_handedOut empty hFew
  refine ⟨hOnce, ?_⟩
  rintro before fileName location later rfl lib made
  have hNew : made.2 ∉ empty.handedOut before := by
    rw [handedOut_append] at hOnce
    intro hOld
    exact (List.nodup_append.mp hOnce).2.2 _ hOld _
      List.mem_cons_self rfl
  have hRegistered :
      lib.sounds.contains made.2 = true ↔
        LeftInserted made.2 before := by
    rw [contains_run_iff hNew]
    simp [empty, NameMap.contains]
  refine ⟨?_, lib.resolver_upload_self fileName location,
    fun name => resolver_upload_of_ne, ?_⟩
  · show uploadName (lib.uploads + 1) fileName = _
    rw [uploads_run]
    simp [empty, UInt64.ofNat_add]
  · rw [← hRegistered, Bool.not_eq_true, and_iff_left_iff_imp]
    exact fun hFree name location' =>
      resolver_upload_of_free hFree

/-
  A name is inserted that looks like the one of the third
  upload.  The second upload displaces nothing, and the third
  one gets this name.
-/
theorem uploads_displace_iff_hours :
    let before : List Change :=
      [.upload "Main Menu.wav" "menu",
        .insert "custom-3-hours" "old"]
    let before' := before ++ [.upload "Hours" "hours"]
    let changes := before' ++ [.upload "Hours" "new"]
    let lib := empty.run before
    let made := lib.upload "Hours" "hours"
    let lib' := empty.run before'
    let made' := lib'.upload "Hours" "new"
    uploadCount changes < UInt64.size ∧
      empty.handedOut changes =
        ["custom-1-main-menu.wav", "custom-2-hours",
          "custom-3-hours"] ∧
      (empty.handedOut changes).Nodup ∧
      ¬ LeftInserted made.2 before ∧
      (∀ name location, lib.resolver name = .ok location →
        made.1.resolver name = .ok location) ∧
      LeftInserted made'.2 before' ∧
      made'.1.resolver made'.2 = .ok "new" := by
  intro before before' changes lib made lib' made'
  have hFew : uploadCount changes < UInt64.size := by
    decide +kernel
  have hFree : ¬ LeftInserted made.2 before := by
    decide +kernel
  have hUploads := uploads_displace_iff hFew
  have hSecond := hUploads.2 before "Hours" "hours"
    [.upload "Hours" "new"] rfl
  have hThird := hUploads.2 before' "Hours" "new" [] rfl
  exact
    ⟨hFew, by decide +kernel, hUploads.1, hFree,
      (hSecond.2.2.2.mpr hFree).2, by decide +kernel,
      hThird.2.1⟩

/-
  An upload gets a name that is registered, and the sound that
  was there cannot be played any more.
-/
theorem upload_displaces :
    let changes : List Change :=
      [.insert "custom-1-x" "old", .upload "x" "new"]
    let lib := empty.run (changes.take 1)
    let made := lib.upload "x" "new"
    uploadCount changes < UInt64.size ∧
      empty.run changes = made.1 ∧
      made.2 = "custom-1-x" ∧
      ¬ lib.sounds.contains made.2 = false ∧
      lib.resolver made.2 = .ok "old" ∧
      made.1.resolver made.2 = .ok "new" ∧
      ¬ made.1.resolver made.2 = .ok "old" := by
  decide +kernel

end AudioLibrary

end CallFlow
