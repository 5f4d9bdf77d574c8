import CallFlow.Bytes.Codec
import Mathlib.Algebra.Group.Nat.Defs

/-
  Readers take just what was written off the front of some
  bytes.

  Two laws of a reader carry everything.  It reads a value
  back from the bytes of the value, whatever comes after
  them.  And what it reads stays the same when more bytes
  are put behind those that it was given.  So bytes that end
  too early are not read: with the rest of them put behind,
  something would be left over, and nothing is.

  Main declarations:
    * `Codec.Reads`
    * `Codec.Stable`
    * `Codec.Stable.eq_none_of_cut`
    * `Codec.Frames`
    * `Codec.frames_count`
    * `Codec.frames_text`
    * `Codec.Frames.list`
-/

namespace CallFlow

namespace Codec

variable {α β : Type}
variable {r : List UInt8 → Option (α × List UInt8)}
variable {bs w w' : List UInt8}
variable {a a' : α}
variable {b : β}

------------------------------------------------------------
-- Readers
------------------------------------------------------------

/-
  A reader reads a value from some bytes, and leaves what
  comes after them.
-/
def Reads
    (r : List UInt8 → Option (α × List UInt8))
    (w : List UInt8)
    (a : α) : Prop :=
  ∀ rest, r (w ++ rest) = some (a, rest)

/- What a reader reads stays when more bytes follow. -/
def Stable
    (r : List UInt8 → Option (α × List UInt8)) : Prop :=
  ∀ bs a rest more, r bs = some (a, rest) →
    r (bs ++ more) = some (a, rest ++ more)

/- Bytes that end too early are not read. -/
theorem Stable.eq_none_of_cut
    (hStable : Stable r)
    (hReads : Reads r w a)
    (hCut : bs <+: w)
    (hNe : bs ≠ w) : r bs = none := by
  rcases hCut with ⟨more, hWhole⟩
  cases hRead : r bs with
  | none => rfl
  | some p =>
      rcases p with ⟨a', rest⟩
      -- The whole would be read in the same way, and would
      -- leave what was cut off.
      have hMore := hStable bs a' rest more hRead
      have hFull := hReads []
      rw [hWhole] at hMore
      rw [List.append_nil, hMore] at hFull
      have hRest : rest ++ more = [] :=
        congrArg Prod.snd (Option.some.inj hFull)
      rw [(List.append_eq_nil_iff.mp hRest).2,
        List.append_nil] at hWhole
      exact absurd hWhole hNe

/- Bytes of a value do not begin those of another one. -/
theorem Reads.eq_of_prefix
    (h : Reads r w a)
    (h' : Reads r w' a')
    (hPrefix : w <+: w') : a = a' := by
  rcases hPrefix with ⟨more, hWhole⟩
  have hFirst := h more
  have hBoth := h' []
  rw [hWhole] at hFirst
  rw [List.append_nil, hFirst] at hBoth
  exact congrArg Prod.fst (Option.some.inj hBoth)

------------------------------------------------------------
-- Readers in Sequence
------------------------------------------------------------

/- A value that is known takes no bytes. -/
theorem Reads.done
    (a : α) : Reads (fun bs => some (a, bs)) [] a :=
  fun _ => rfl

/- Two readers read one after the other. -/
theorem Reads.bind
    {next : α × List UInt8 → Option (β × List UInt8)}
    (hFirst : Reads r w a)
    (hNext : Reads (fun rest => next (a, rest)) w' b) :
    Reads (fun bs => r bs >>= next) (w ++ w') b := by
  intro rest
  show (r (w ++ w' ++ rest) >>= next) = some (b, rest)
  rw [List.append_assoc, hFirst]
  exact hNext rest

/- What is read can be changed. -/
theorem Reads.readAs
    {c : Codec α}
    (f : α → β)
    (h : Reads c.read w a) :
    Reads (c.readAs f) w (f a) := by
  intro rest
  unfold Codec.readAs
  rw [h]
  rfl

/- A value that is known stays. -/
theorem Stable.done
    (a : α) : Stable fun bs => some (a, bs) := by
  intro bs a' rest more hRead
  cases hRead
  rfl

/- A reader that fails stays so, in that it reads nothing. -/
theorem Stable.fail :
    Stable fun _ => (none : Option (α × List UInt8)) := by
  intro bs a' rest more hRead
  cases hRead

/- A reader of bytes is stable if it is so after the first. -/
theorem Stable.of_cons
    (hNil : r [] = none)
    (hCons : ∀ first, Stable fun bs => r (first :: bs)) :
    Stable r := by
  intro bs a rest more hRead
  cases bs with
  | nil =>
      rw [hNil] at hRead
      cases hRead
  | cons first bs => exact hCons first bs a rest more hRead

/- Two stable readers one after the other are stable. -/
theorem Stable.bind
    {next : α × List UInt8 → Option (β × List UInt8)}
    (hFirst : Stable r)
    (hNext : ∀ a, Stable fun rest => next (a, rest)) :
    Stable fun bs => r bs >>= next := by
  intro bs b rest more hRead
  rcases Option.bind_eq_some_iff.mp hRead with
    ⟨⟨a, left⟩, hHere, hThere⟩
  show (r (bs ++ more) >>= next) = some (b, rest ++ more)
  rw [hFirst bs a left more hHere]
  exact hNext a left b rest more hThere

/- What a stable reader reads can be changed. -/
theorem Stable.readAs
    {c : Codec α}
    (f : α → β)
    (h : Stable c.read) : Stable (c.readAs f) := by
  intro bs b rest more hRead
  rcases Option.map_eq_some_iff.mp hRead with
    ⟨⟨a, left⟩, hHere, hSame⟩
  cases hSame
  unfold Codec.readAs
  rw [h bs a left more hHere]
  rfl

------------------------------------------------------------
-- Codecs
------------------------------------------------------------

/-
  A codec that frames the values that fit: they are read back
  from just the bytes that are written for them.
-/
structure Frames
    (c : Codec α)
    (Fits : α → Prop) : Prop where
  reads : ∀ a, Fits a → Reads c.read (c.write a) a
  stable : Stable c.read

variable {Fits : α → Prop}
variable {Fits' : β → Prop}
variable {c : Codec α}
variable {d : Codec β}

/- Values one after the other. -/
theorem Frames.pair
    (hFirst : c.Frames Fits)
    (hSecond : d.Frames Fits') :
    (c.pair d).Frames fun p => Fits p.1 ∧ Fits' p.2 where
  reads := by
    rintro ⟨a, b⟩ ⟨ha, hb⟩
    apply (hFirst.reads a ha).bind
    show Reads _ (d.write b) (a, b)
    rw [← List.append_nil (d.write b)]
    exact (hSecond.reads b hb).bind (.done (a, b))
  stable := by
    apply hFirst.stable.bind
    intro a
    apply hSecond.stable.bind
    intro b
    exact .done (a, b)

/- Values that are written as those of another type. -/
theorem Frames.iso
    {unwrap : β → α}
    {wrap : α → Option β}
    (h : c.Frames Fits)
    (hWrap :
      ∀ b, Fits' b →
        Fits (unwrap b) ∧ wrap (unwrap b) = some b) :
    (c.iso unwrap wrap).Frames Fits' where
  reads := by
    intro b hb
    rcases hWrap b hb with ⟨hFits, hBack⟩
    show Reads _ (c.write (unwrap b)) b
    rw [← List.append_nil (c.write (unwrap b))]
    refine (h.reads _ hFits).bind fun rest => ?_
    show (wrap (unwrap b) >>= fun b => some (b, rest)) = _
    rw [hBack]
    rfl
  stable := by
    apply h.stable.bind
    intro a bs b rest more hRead
    rcases Option.bind_eq_some_iff.mp hRead with
      ⟨b', hBack, hDone⟩
    cases hDone
    show (wrap a >>= fun b => some (b, _)) = _
    rw [hBack]
    rfl

/- A value or nothing. -/
theorem Frames.option
    (h : c.Frames Fits) :
    c.option.Frames fun o => ∀ a ∈ o, Fits a where
  reads := by
    intro o ho rest
    cases o with
    | none => rfl
    | some a => exact (h.reads a (ho a rfl)).readAs some rest
  stable := by
    refine .of_cons rfl fun mark => ?_
    by_cases hNone : mark = 0
    · subst hNone
      exact .done none
    · by_cases hSome : mark = 1
      · subst hSome
        exact h.stable.readAs some
      · have hFail : ∀ rest,
            c.option.read (mark :: rest) = none := by
          intro rest
          simp only [Codec.option]
          split
          · rename_i hMark
            exact absurd (List.cons.inj hMark).1 hNone
          · rename_i hMark
            exact absurd (List.cons.inj hMark).1 hSome
          · rfl
        simp only [hFail]
        exact .fail

/- Truth values. -/
theorem frames_bool : bool.Frames fun _ => True where
  reads := by
    intro b _ rest
    cases b <;> rfl
  stable := by
    refine .of_cons rfl fun mark => ?_
    by_cases hFalse : mark = 0
    · subst hFalse
      exact .done false
    · by_cases hTrue : mark = 1
      · subst hTrue
        exact .done true
      · have hFail : ∀ rest,
            bool.read (mark :: rest) = none := by
          intro rest
          simp only [bool]
          split
          · rename_i hMark
            exact absurd (List.cons.inj hMark).1 hFalse
          · rename_i hMark
            exact absurd (List.cons.inj hMark).1 hTrue
          · rfl
        simp only [hFail]
        exact .fail

------------------------------------------------------------
-- Numbers
------------------------------------------------------------

variable {n count widest : Nat}

/- A number has as many low bytes as were asked for. -/
theorem length_lowBytes
    (count n : Nat) : (lowBytes count n).length = count := by
  induction count generalizing n with
  | zero => rfl
  | succ count ih =>
      unfold lowBytes
      rw [List.length_cons, ih]

/- The low bytes of a number make it up again. -/
theorem ofLowBytes_lowBytes
    (h : n < 256 ^ count) :
    ofLowBytes (lowBytes count n) = n := by
  induction count generalizing n with
  | zero =>
      have hZero : n = 0 := by simpa using h
      rw [hZero]
      rfl
  | succ count ih =>
      have hRest : n / 256 < 256 ^ count := by
        rw [Nat.div_lt_iff_lt_mul (by decide), ← Nat.pow_succ]
        exact h
      unfold lowBytes ofLowBytes
      rw [ih hRest, UInt8.toNat_ofNat']
      omega

/- Low bytes are read back. -/
theorem reads_lowBytes
    (count : Nat)
    (h : n < 256 ^ count) :
    Reads (readLow count) (lowBytes count n) n := by
  intro rest
  have hLength := length_lowBytes count n
  unfold readLow
  rw [if_pos (by simp [hLength]),
    List.take_left' hLength, List.drop_left' hLength,
    ofLowBytes_lowBytes h]

/- Reading low bytes is stable. -/
theorem stable_readLow
    (count : Nat) : Stable (readLow count) := by
  intro bs n rest more hRead
  unfold readLow at hRead ⊢
  split at hRead
  · rename_i hEnough
    cases hRead
    have hStill : count ≤ (bs ++ more).length := by
      rw [List.length_append]
      omega
    rw [if_pos hStill, List.take_append_of_le_length hEnough,
      List.drop_append_of_le_length hEnough]
  · cases hRead

/- A number is read back if its form is not too wide. -/
theorem reads_writeNat
    (h : n < UInt32.size ∨
      8 ≤ widest ∧ n < UInt64.size) :
    Reads (readNat widest) (writeNat n) n := by
  intro rest
  unfold writeNat
  split
  · rename_i hByte
    have hToNat : (UInt8.ofNat n).toNat = n := by
      have hSmall : n < 251 := hByte
      rw [UInt8.toNat_ofNat']
      omega
    show (if (UInt8.ofNat n).toNat < marker then
      some ((UInt8.ofNat n).toNat, rest) else _) = _
    rw [hToNat, if_pos hByte]
  · split
    · rename_i hTwo
      exact reads_lowBytes 2 hTwo rest
    · split
      · rename_i hFour
        exact reads_lowBytes 4 hFour rest
      · rename_i hBig
        have hWide : 8 ≤ widest ∧ n < UInt64.size :=
          h.resolve_left hBig
        have hMark :
            readNat widest (253 :: lowBytes 8 n ++ rest) =
              readLow 8 (lowBytes 8 n ++ rest) :=
          if_pos ⟨rfl, hWide.1⟩
        rw [hMark]
        exact reads_lowBytes 8 hWide.2 rest

/- Reading a number is stable. -/
theorem stable_readNat
    (widest : Nat) : Stable (readNat widest) := by
  refine .of_cons rfl fun first => ?_
  unfold readNat
  by_cases hByte : first.toNat < marker
  · simp only [if_pos hByte]
    exact .done first.toNat
  · by_cases hTwo : first = 251
    · simp only [if_neg hByte, if_pos hTwo]
      exact stable_readLow 2
    · by_cases hFour : first = 252
      · simp only [if_neg hByte, if_neg hTwo, if_pos hFour]
        exact stable_readLow 4
      · by_cases hEight : first = 253 ∧ 8 ≤ widest
        · simp only [if_neg hByte, if_neg hTwo,
            if_neg hFour, if_pos hEight]
          exact stable_readLow 8
        · simp only [if_neg hByte, if_neg hTwo,
            if_neg hFour, if_neg hEight]
          exact .fail

/- Counts and lengths of at most 64 bits. -/
theorem frames_count :
    Codec.count.Frames (· < UInt64.size) where
  reads := by
    intro n hn
    exact reads_writeNat (Or.inr ⟨Nat.le_refl 8, hn⟩)
  stable := stable_readNat 8

/- The numbers of the cases of a type. -/
theorem frames_caseNumber :
    caseNumber.Frames (· < UInt32.size) where
  reads := by
    intro n hn
    exact reads_writeNat (Or.inl hn)
  stable := stable_readNat 4

/- Numbers of 32 bits. -/
theorem frames_word32 : word32.Frames fun _ => True where
  reads := by
    intro n _ rest
    have hRead :
        readNat 4 (writeNat n.toNat ++ rest) =
          some (n.toNat, rest) :=
      reads_writeNat (Or.inl n.toNat_lt) rest
    show (readNat 4 (writeNat n.toNat ++ rest)).map _ = _
    rw [hRead]
    simp
  stable :=
    (stable_readNat 4).readAs (c := caseNumber) UInt32.ofNat

------------------------------------------------------------
-- Texts
------------------------------------------------------------

/- A text whose bytes can be counted. -/
def TextFits
    (s : String) : Prop :=
  s.utf8ByteSize < UInt64.size

/- The bytes of a text are those of the same text. -/
theorem ofUtf8?_utf8
    (s : String) : ofUtf8? (utf8 s) = some s :=
  dif_pos s.isValidUTF8

/- Texts, after their length. -/
theorem frames_text : text.Frames TextFits where
  reads := by
    intro s hs
    have hLength : (utf8 s).length = s.utf8ByteSize := by
      simp [utf8]
    have hCount :=
      frames_count.reads (utf8 s).length (hLength ▸ hs)
    apply hCount.bind
    intro rest
    show
      (if (utf8 s).length ≤ (utf8 s ++ rest).length then _
        else none) = _
    rw [if_pos (by simp), List.take_left, List.drop_left,
      ofUtf8?_utf8]
    rfl
  stable := by
    apply frames_count.stable.bind
    intro n bs s rest more hRead
    dsimp only at hRead ⊢
    split at hRead
    · rename_i hEnough
      rcases Option.bind_eq_some_iff.mp hRead with
        ⟨s', hText, hDone⟩
      cases hDone
      have hStill : n ≤ (bs ++ more).length := by
        rw [List.length_append]
        omega
      rw [if_pos hStill,
        List.take_append_of_le_length hEnough,
        List.drop_append_of_le_length hEnough, hText]
      rfl
    · cases hRead

------------------------------------------------------------
-- Lists
------------------------------------------------------------

/- As many items are read back as were written. -/
theorem Frames.reads_readItems
    (h : c.Frames Fits)
    {items : List α}
    (hItems : ∀ a ∈ items, Fits a) :
    Reads (readItems c items.length)
      (items.flatMap c.write) items := by
  induction items with
  | nil => exact .done []
  | cons a rest ih =>
      have hFirst := h.reads a (hItems a List.mem_cons_self)
      have hRest := ih fun b hb =>
        hItems b (List.mem_cons_of_mem a hb)
      rw [List.flatMap_cons]
      apply hFirst.bind
      rw [← List.append_nil (rest.flatMap c.write)]
      exact hRest.bind (.done (a :: rest))

/- Reading items is stable. -/
theorem Frames.stable_readItems
    (h : c.Frames Fits)
    (count : Nat) : Stable (readItems c count) := by
  induction count with
  | zero => exact .done []
  | succ count ih =>
      apply h.stable.bind
      intro a
      apply ih.bind
      intro items
      exact .done (a :: items)

/- Lists, after their length. -/
theorem Frames.list
    (h : c.Frames Fits) :
    c.list.Frames fun items =>
      items.length < UInt64.size ∧
        ∀ a ∈ items, Fits a where
  reads := by
    rintro items ⟨hLength, hItems⟩
    apply (frames_count.reads items.length hLength).bind
    exact h.reads_readItems hItems
  stable := by
    apply frames_count.stable.bind
    intro count
    exact h.stable_readItems count

end Codec

end CallFlow
