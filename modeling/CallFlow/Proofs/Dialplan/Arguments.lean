import CallFlow.Dialplan.Call
import Mathlib.Data.List.DropRight

/-
  The arguments of a call are read back from its text.

  A text is cut at every comma that has no backslash before
  it.  The commas of a value are escaped, so no value is cut.
  A backslash at the end of a value is not escaped, so it
  takes the separator behind it for an escaped comma, and the
  value is glued to the next one.

  Main declarations:
    * `Dialplan.cut`
    * `Dialplan.readArguments`
    * `Dialplan.endsInBackslash`
    * `Dialplan.glued`
    * `Dialplan.readArguments_call`
    * `Dialplan.glued_eq_iff`
    * `Dialplan.length_glued`
    * `Dialplan.escape_injective`
-/

namespace CallFlow

namespace Dialplan

------------------------------------------------------------
-- Reading Calls
------------------------------------------------------------

/-
  Cut characters at every comma that has no backslash before
  it, given the character before them.
-/
def cut
    (before : Char) : List Char → List (List Char)
  | [] => [[]]
  | c :: rest =>
      if c = ',' ∧ before ≠ '\\' then [] :: cut c rest
      else (cut c rest).modifyHead (c :: ·)

/- The characters between the outer parentheses. -/
def inside
    (cs : List Char) : List Char :=
  let opened := (cs.dropWhile fun c => c != '(').drop 1
  ((opened.reverse.dropWhile fun c => c != ')').drop
    1).reverse

/- The arguments of a call up to the last not empty. -/
def readArguments
    (text : String) : List String :=
  dropTrailingEmpty
    ((cut '(' (inside text.toList)).map String.ofList)

/- The inside of a call. -/
theorem inside_call
    {app : String}
    (hApp : '(' ∉ app.toList)
    (args : List String) :
    inside (call app args).toList =
      [','].intercalate
        ((dropTrailingEmpty args).map String.toList) := by
  have hDrop :
      app.toList.dropWhile (fun c => c != '(') = [] := by
    rw [List.dropWhile_eq_nil_iff]
    intro c hc
    have hNe : c ≠ '(' := by
      rintro rfl
      exact hApp hc
    simpa using hNe
  have hText :
      (call app args).toList =
        app.toList ++
          ('(' :: [','].intercalate
            ((dropTrailingEmpty args).map String.toList) ++
              [')']) := by
    simp [call, String.toList_append,
      String.toList_intercalate]
  rw [hText]
  simp [inside, List.dropWhile_append, hDrop]

/- Joining words adds no other characters than the joint. -/
theorem mem_intercalate
    {c : Char}
    {joint : List Char}
    {words : List (List Char)}
    (h : c ∈ joint.intercalate words) :
    c ∈ joint ∨ ∃ w ∈ words, c ∈ w := by
  induction words with
  | nil => cases h
  | cons w rest ih =>
      cases rest with
      | nil =>
          rw [List.intercalate_singleton] at h
          exact Or.inr ⟨w, List.mem_cons_self, h⟩
      | cons w' rest =>
          rw [List.intercalate_cons_cons, List.mem_append,
            List.mem_append] at h
          rcases h with (hFirst | hJoint) | hRest
          · exact Or.inr ⟨w, List.mem_cons_self, hFirst⟩
          · exact Or.inl hJoint
          · rcases ih hRest with hJoint | ⟨v, hv, hc⟩
            · exact Or.inl hJoint
            · exact
                Or.inr ⟨v, List.mem_cons_of_mem w hv, hc⟩

------------------------------------------------------------
-- Escaped Values
------------------------------------------------------------

/- A text without control characters. -/
def Plain
    (s : String) : Prop :=
  ∀ c ∈ s.toList, Text.isControl c = false

instance
    (s : String) : Decidable (Plain s) :=
  List.decidableBAll
    (fun c => Text.isControl c = false) s.toList

/- Joined texts are plain exactly if each of them is. -/
theorem plain_append_iff
    {s t : String} : Plain (s ++ t) ↔ Plain s ∧ Plain t := by
  unfold Plain
  rw [String.toList_append, List.forall_mem_append]

/- Whether a text ends in a backslash. -/
def endsInBackslash
    (s : String) : Bool :=
  s.toList.getLast? == some '\\'

/- What becomes of a character. -/
theorem escapeChar_cases
    (c : Char) :
    ((c = ',' ∨ c = ';') ∧ escapeChar c = ['\\', c]) ∨
      (Text.isControl c = true ∧ escapeChar c = []) ∨
      (c ≠ ',' ∧ c ≠ ';' ∧ escapeChar c = [c]) := by
  by_cases hSep : c = ',' ∨ c = ';'
  · refine .inl ⟨hSep, ?_⟩
    simp [escapeChar, hSep]
  · obtain ⟨hComma, hSemicolon⟩ := not_or.mp hSep
    cases hControl : Text.isControl c with
    | true =>
        refine .inr (.inl ⟨rfl, ?_⟩)
        simp [escapeChar, hComma, hSemicolon, hControl]
    | false =>
        refine .inr (.inr ⟨hComma, hSemicolon, ?_⟩)
        simp [escapeChar, hComma, hSemicolon, hControl]

/- The last character of a plain value stays the last. -/
theorem getLast?_escaped
    {cs : List Char}
    (hPlain : ∀ c ∈ cs, Text.isControl c = false) :
    (cs.flatMap escapeChar).getLast? = cs.getLast? := by
  rcases List.eq_nil_or_concat cs with hNil | ⟨ds, c, hEq⟩
  · rw [hNil]
    rfl
  · subst hEq
    have hc : Text.isControl c = false :=
      hPlain c (by simp)
    rcases escapeChar_cases c with
      ⟨-, hChar⟩ | ⟨hControl, -⟩ | ⟨-, -, hChar⟩
    · simp [hChar]
    · rw [hc] at hControl
      cases hControl
    · simp [hChar]

/- A plain value is empty when its escaped form is. -/
theorem isEmpty_escape
    {s : String}
    (hPlain : Plain s) :
    (escape s).isEmpty = s.isEmpty := by
  have hLast := getLast?_escaped hPlain
  have hNil :
      s.toList.flatMap escapeChar = [] ↔ s.toList = [] := by
    rw [← List.getLast?_eq_none_iff, hLast,
      List.getLast?_eq_none_iff]
  rw [Bool.eq_iff_iff, String.isEmpty_iff,
    String.isEmpty_iff, ← String.toList_eq_nil_iff,
    ← String.toList_eq_nil_iff, escape,
    String.toList_ofList, hNil]

/- No escaped value begins with a separator. -/
theorem head?_escaped
    (cs : List Char) :
    (cs.flatMap escapeChar).head? ≠ some ',' ∧
      (cs.flatMap escapeChar).head? ≠ some ';' := by
  induction cs with
  | nil => simp
  | cons c cs ih =>
      rw [List.flatMap_cons]
      rcases escapeChar_cases c with
        ⟨-, hChar⟩ | ⟨-, hChar⟩ |
          ⟨hComma, hSemicolon, hChar⟩
      · simp [hChar]
      · simpa [hChar] using ih
      · simp [hChar, hComma, hSemicolon]

/-
  A plain character is told from its escaped form where no
  separator comes after it.
-/
theorem escapeChar_append_inj
    {c d : Char}
    (hc : Text.isControl c = false)
    (hd : Text.isControl d = false)
    {cs ds : List Char}
    (hCs : cs.head? ≠ some ',' ∧ cs.head? ≠ some ';')
    (hDs : ds.head? ≠ some ',' ∧ ds.head? ≠ some ';')
    (hEq : escapeChar c ++ cs = escapeChar d ++ ds) :
    c = d ∧ cs = ds := by
  rcases escapeChar_cases c with
    ⟨hSepC, hCharC⟩ | ⟨hControl, -⟩ |
      ⟨-, -, hCharC⟩
  · rcases escapeChar_cases d with
      ⟨-, hCharD⟩ | ⟨hControl, -⟩ | ⟨-, -, hCharD⟩
    · simpa [hCharC, hCharD] using hEq
    · simp [hd] at hControl
    · -- The separator would come after a backslash.
      have hRest : c :: cs = ds := by
        simp only [hCharC, hCharD, List.cons_append,
          List.nil_append, List.cons.injEq] at hEq
        exact hEq.2
      subst hRest
      simp only [List.head?_cons, ne_eq,
        Option.some.injEq] at hDs
      exact absurd hSepC (not_or.mpr hDs)
  · simp [hc] at hControl
  · rcases escapeChar_cases d with
      ⟨hSepD, hCharD⟩ | ⟨hControl, -⟩ |
        ⟨-, -, hCharD⟩
    · have hRest : cs = d :: ds := by
        simp only [hCharC, hCharD, List.cons_append,
          List.nil_append, List.cons.injEq] at hEq
        exact hEq.2
      subst hRest
      simp only [List.head?_cons, ne_eq,
        Option.some.injEq] at hCs
      exact absurd hSepD (not_or.mpr hCs)
    · simp [hd] at hControl
    · simpa [hCharC, hCharD] using hEq

/- Plain characters are told from their escaped form. -/
theorem flatMap_escapeChar_injective
    {cs ds : List Char}
    (hCs : ∀ c ∈ cs, Text.isControl c = false)
    (hDs : ∀ d ∈ ds, Text.isControl d = false)
    (hEq :
      cs.flatMap escapeChar = ds.flatMap escapeChar) :
    cs = ds := by
  have hLast : cs.getLast? = ds.getLast? := by
    rw [← getLast?_escaped hCs, hEq, getLast?_escaped hDs]
  induction cs generalizing ds with
  | nil => simpa [eq_comm] using hLast
  | cons c cs ih =>
      cases ds with
      | nil => simp at hLast
      | cons d ds =>
          obtain ⟨hc, hCs⟩ := List.forall_mem_cons.mp hCs
          obtain ⟨hd, hDs⟩ := List.forall_mem_cons.mp hDs
          rw [List.flatMap_cons, List.flatMap_cons] at hEq
          obtain ⟨hHead, hTail⟩ :=
            escapeChar_append_inj hc hd (head?_escaped cs)
              (head?_escaped ds) hEq
          have hLastTail : cs.getLast? = ds.getLast? := by
            rw [← getLast?_escaped hCs, hTail,
              getLast?_escaped hDs]
          rw [hHead, ih hCs hDs hTail hLastTail]

/- Plain values with one escaped form are one value. -/
theorem escape_injective
    {s t : String}
    (hs : Plain s)
    (ht : Plain t)
    (hEq : escape s = escape t) : s = t := by
  have hChars := congrArg String.toList hEq
  rw [escape, escape, String.toList_ofList,
    String.toList_ofList] at hChars
  exact String.toList_inj.mp
    (flatMap_escapeChar_injective hs ht hChars)

/- Plain values are told from their escaped forms. -/
theorem map_escape_injective
    {vals others : List String}
    (hVals : ∀ v ∈ vals, Plain v)
    (hOthers : ∀ v ∈ others, Plain v)
    (hEq : vals.map escape = others.map escape) :
    vals = others := by
  induction vals generalizing others with
  | nil => simpa [eq_comm] using hEq
  | cons v vals ih =>
      cases others with
      | nil => simp at hEq
      | cons w others =>
          obtain ⟨hv, hVals⟩ :=
            List.forall_mem_cons.mp hVals
          obtain ⟨hw, hOthers⟩ :=
            List.forall_mem_cons.mp hOthers
          obtain ⟨hHead, hTail⟩ := List.cons.inj hEq
          rw [escape_injective hv hw hHead,
            ih hVals hOthers hTail]

------------------------------------------------------------
-- Cutting
------------------------------------------------------------

/- An escaped value is not cut, whatever comes after it. -/
theorem cut_escaped_append
    (before : Char)
    (cs rest : List Char) :
    cut before (cs.flatMap escapeChar ++ rest) =
      (cut ((cs.flatMap escapeChar).getLast?.getD before)
        rest).modifyHead (cs.flatMap escapeChar ++ ·) := by
  induction cs generalizing before with
  | nil =>
      simp only [List.flatMap_nil, List.nil_append]
      exact (congrFun List.modifyHead_id _).symm
  | cons c cs ih =>
      rw [List.flatMap_cons]
      rcases escapeChar_cases c with
        ⟨-, hChar⟩ | ⟨-, hChar⟩ | ⟨hComma, -, hChar⟩
      · -- The backslash keeps the separator from cutting.
        simp [hChar, cut, ih c, List.getLast?_cons,
          Function.comp_def]
      · rw [hChar]
        exact ih before
      · simp [hChar, cut, hComma, ih c, List.getLast?_cons,
          Function.comp_def]

/- A separator cuts unless a backslash stands before it. -/
theorem cut_escaped_comma
    {v : String}
    (hPlain : Plain v)
    {before : Char}
    (hBefore : before ≠ '\\')
    (rest : List Char) :
    cut before ((escape v).toList ++ ',' :: rest) =
      if endsInBackslash v then
        (cut ',' rest).modifyHead
          ((escape v).toList ++ ',' :: ·)
      else (escape v).toList :: cut ',' rest := by
  have hLast := getLast?_escaped hPlain
  rw [escape, String.toList_ofList, cut_escaped_append,
    hLast]
  unfold endsInBackslash
  cases hEnd : v.toList.getLast? with
  | none => simp [cut, hBefore]
  | some c =>
      by_cases hc : c = '\\'
      · simp [cut, hc, Function.comp_def]
      · simp [cut, hc]

------------------------------------------------------------
-- Glued Values
------------------------------------------------------------

/-
  The arguments that are read back: a value that ends in a
  backslash is glued to the one after it.
-/
def glued : List String → List String
  | [] => []
  | [v] => [escape v]
  | v :: w :: rest =>
      if endsInBackslash v then
        (glued (w :: rest)).modifyHead (escape v ++ "," ++ ·)
      else escape v :: glued (w :: rest)

/- As many values are lost as end in a backslash. -/
theorem length_glued
    (vals : List String) :
    (glued vals).length +
        vals.dropLast.countP endsInBackslash =
      vals.length := by
  induction vals using glued.induct with
  | case1 => rfl
  | case2 v => rfl
  | case3 v w rest hBackslash ih =>
      rw [glued, if_pos hBackslash, List.length_modifyHead,
        List.dropLast_cons_cons,
        List.countP_cons_of_pos hBackslash,
        List.length_cons]
      omega
  | case4 v w rest hBackslash ih =>
      rw [glued, if_neg hBackslash, List.length_cons,
        List.dropLast_cons_cons,
        List.countP_cons_of_neg hBackslash,
        List.length_cons]
      omega

/-
  The values stay apart exactly if none before the last ends
  in a backslash.
-/
theorem glued_eq_iff
    (vals : List String) :
    glued vals = vals.map escape ↔
      ∀ v ∈ vals.dropLast, endsInBackslash v = false := by
  constructor
  · intro hEq
    have hLength := length_glued vals
    rw [hEq, List.length_map] at hLength
    have hCount :
        vals.dropLast.countP endsInBackslash = 0 := by
      omega
    intro v hv
    simpa using List.countP_eq_zero.mp hCount v hv
  · intro hClean
    induction vals using glued.induct with
    | case1 => rfl
    | case2 v => rfl
    | case3 v w rest hBackslash ih =>
        have hv := hClean v (by simp)
        rw [hBackslash] at hv
        cases hv
    | case4 v w rest hBackslash ih =>
        rw [List.dropLast_cons_cons,
          List.forall_mem_cons] at hClean
        rw [glued, if_neg hBackslash, ih hClean.2]
        rfl

/- The last glued value ends like the last value. -/
theorem exists_getLast?_glued
    {vals : List String}
    {v : String}
    (hLast : vals.getLast? = some v) :
    ∃ front,
      (glued vals).getLast? = some (front ++ escape v) := by
  induction vals using glued.induct with
  | case1 => cases hLast
  | case2 u =>
      cases hLast
      exact ⟨"", by simp [glued]⟩
  | case3 u w rest hBackslash ih =>
      rw [List.getLast?_cons_cons] at hLast
      obtain ⟨front, hFront⟩ := ih hLast
      rw [glued, if_pos hBackslash]
      cases hGlued : glued (w :: rest) with
      | nil =>
          rw [hGlued] at hFront
          cases hFront
      | cons a as =>
          rw [hGlued] at hFront
          cases as with
          | nil =>
              have ha : a = front ++ escape v := by
                simpa using hFront
              subst ha
              exact ⟨escape u ++ "," ++ front,
                by simp [String.append_assoc]⟩
          | cons b bs =>
              rw [List.getLast?_cons_cons] at hFront
              exact ⟨front, by simpa using hFront⟩
  | case4 u w rest hBackslash ih =>
      rw [List.getLast?_cons_cons] at hLast
      obtain ⟨front, hFront⟩ := ih hLast
      refine ⟨front, ?_⟩
      rw [glued, if_neg hBackslash, List.getLast?_cons, hFront]
      rfl

/- A value is joined to the values after it. -/
theorem intercalate_escaped_cons
    (v w : String)
    (rest : List String) :
    [','].intercalate
        ((v :: w :: rest).map fun u => (escape u).toList) =
      (escape v).toList ++
        ',' :: [','].intercalate
          ((w :: rest).map fun u => (escape u).toList) := by
  simp [List.intercalate_cons_cons]

/- The escaped values, joined, are cut into the glued ones. -/
theorem cut_intercalate
    {vals : List String}
    (hPlain : ∀ v ∈ vals, Plain v)
    (hNe : vals ≠ [])
    {before : Char}
    (hBefore : before ≠ '\\') :
    cut before
        ([','].intercalate
          (vals.map fun v => (escape v).toList)) =
      (glued vals).map String.toList := by
  have hComma : ',' ≠ '\\' := by decide
  induction vals using glued.induct generalizing before with
  | case1 => exact absurd rfl hNe
  | case2 v =>
      have hCut := cut_escaped_append before v.toList []
      simpa [glued, cut, escape] using hCut
  | case3 v w rest hBackslash ih =>
      obtain ⟨hv, hRest⟩ := List.forall_mem_cons.mp hPlain
      have hTail :=
        ih hRest (List.cons_ne_nil w rest) hComma
      rw [intercalate_escaped_cons,
        cut_escaped_comma hv hBefore, if_pos hBackslash,
        hTail, glued, if_pos hBackslash]
      cases glued (w :: rest) with
      | nil => rfl
      | cons u us => simp [String.toList_append]
  | case4 v w rest hBackslash ih =>
      obtain ⟨hv, hRest⟩ := List.forall_mem_cons.mp hPlain
      have hTail :=
        ih hRest (List.cons_ne_nil w rest) hComma
      rw [intercalate_escaped_cons,
        cut_escaped_comma hv hBefore, if_neg hBackslash,
        hTail, glued, if_neg hBackslash, List.map_cons]

------------------------------------------------------------
-- Trailing Empty Arguments
------------------------------------------------------------

/- The used arguments as a list cut off at its end. -/
theorem dropTrailingEmpty_eq_rdropWhile
    (args : List String) :
    dropTrailingEmpty args =
      args.rdropWhile String.isEmpty :=
  rfl

/- The last argument that is used is not empty. -/
theorem isEmpty_of_getLast?_dropTrailingEmpty
    {args : List String}
    {a : String}
    (hLast : (dropTrailingEmpty args).getLast? = some a) :
    a.isEmpty = false := by
  rw [dropTrailingEmpty_eq_rdropWhile] at hLast
  have hNe : args.rdropWhile String.isEmpty ≠ [] := by
    intro hNil
    rw [hNil] at hLast
    cases hLast
  rw [List.getLast?_eq_some_getLast hNe,
    Option.some.injEq] at hLast
  subst hLast
  simpa using
    List.rdropWhile_last_not String.isEmpty args hNe

/- Arguments whose last one is not empty are all used. -/
theorem dropTrailingEmpty_eq_self
    {args : List String}
    (hLast :
      ∀ a, args.getLast? = some a → a.isEmpty = false) :
    dropTrailingEmpty args = args := by
  refine List.rdropWhile_eq_self_iff.mpr fun hNe => ?_
  have h := hLast _ (List.getLast?_eq_some_getLast hNe)
  simp [h]

/- A change that keeps what is empty keeps what is used. -/
theorem dropTrailingEmpty_map
    {args : List String}
    {f : String → String}
    (hf : ∀ a ∈ args, (f a).isEmpty = a.isEmpty) :
    dropTrailingEmpty (args.map f) =
      (dropTrailingEmpty args).map f := by
  simp only [dropTrailingEmpty_eq_rdropWhile]
  induction args using List.reverseRecOn with
  | nil => rfl
  | append_singleton args a ih =>
      have ha : (f a).isEmpty = a.isEmpty := hf a (by simp)
      have hArgs := ih fun b hb => hf b (by simp [hb])
      rw [List.map_append, List.map_singleton,
        List.rdropWhile_concat, List.rdropWhile_concat, ha]
      split
      · exact hArgs
      · simp

/- The used arguments are some of the arguments. -/
theorem mem_of_mem_dropTrailingEmpty
    {args : List String}
    {a : String}
    (ha : a ∈ dropTrailingEmpty args) : a ∈ args :=
  (List.rdropWhile_prefix String.isEmpty args).subset ha

/- Lists of one length with the same used part are one. -/
theorem eq_of_dropTrailingEmpty_eq
    {args others : List String}
    (hLength : args.length = others.length)
    (hEq : dropTrailingEmpty args = dropTrailingEmpty others) :
    args = others := by
  have hRest :
      ∀ l : List String,
        l = dropTrailingEmpty l ++
          List.replicate
            (l.length - (dropTrailingEmpty l).length) "" := by
    intro l
    have hEmpty :
        ∀ a ∈ l.rtakeWhile String.isEmpty, a = "" :=
      fun a ha =>
        String.isEmpty_iff.mp (List.mem_rtakeWhile_imp ha)
    have hSplit :
        dropTrailingEmpty l ++ l.rtakeWhile String.isEmpty =
          l :=
      List.rdropWhile_append_rtakeWhile
    have hLengths := congrArg List.length hSplit
    rw [List.length_append] at hLengths
    rw [← hLengths, Nat.add_sub_cancel_left,
      ← List.eq_replicate_of_mem hEmpty, hSplit]
  rw [hRest args, hRest others, hEq, hLength]

------------------------------------------------------------
-- Reading Back
------------------------------------------------------------

/- The used ones of plain values are plain. -/
theorem plain_of_mem_dropTrailingEmpty
    {vals : List String}
    (hPlain : ∀ v ∈ vals, Plain v) :
    ∀ v ∈ dropTrailingEmpty vals, Plain v :=
  fun v hv => hPlain v (mem_of_mem_dropTrailingEmpty hv)

/- The used ones of plain values are escaped one by one. -/
theorem dropTrailingEmpty_map_escape
    {vals : List String}
    (hPlain : ∀ v ∈ vals, Plain v) :
    dropTrailingEmpty (vals.map escape) =
      (dropTrailingEmpty vals).map escape :=
  dropTrailingEmpty_map fun v hv =>
    isEmpty_escape (hPlain v hv)

/- The glued values are used if the last value is. -/
theorem dropTrailingEmpty_glued
    {vals : List String}
    (hPlain : ∀ v ∈ vals, Plain v)
    (hLast :
      ∀ v, vals.getLast? = some v → v.isEmpty = false) :
    dropTrailingEmpty (glued vals) = glued vals := by
  refine dropTrailingEmpty_eq_self fun a ha => ?_
  cases hv : vals.getLast? with
  | none =>
      rw [List.getLast?_eq_none_iff] at hv
      rw [hv] at ha
      cases ha
  | some v =>
      obtain ⟨front, hFront⟩ := exists_getLast?_glued hv
      rw [hFront, Option.some.injEq] at ha
      have hEscaped : (escape v).isEmpty = false := by
        rw [isEmpty_escape (hPlain v (List.mem_of_getLast? hv)),
          hLast v hv]
      rw [← ha]
      rw [← Bool.not_eq_true,
        String.isEmpty_iff] at hEscaped ⊢
      rw [String.append_eq_empty_iff, not_and]
      exact fun _ => hEscaped

/- The arguments of a call of plain values are read glued. -/
theorem readArguments_call
    {app : String}
    (hApp : '(' ∉ app.toList)
    {vals : List String}
    (hPlain : ∀ v ∈ vals, Plain v) :
    readArguments (call app (vals.map escape)) =
      glued (dropTrailingEmpty vals) := by
  rw [readArguments, inside_call hApp,
    dropTrailingEmpty_map_escape hPlain, List.map_map]
  by_cases hNil : dropTrailingEmpty vals = []
  · rw [hNil]
    rfl
  · have hUsed := plain_of_mem_dropTrailingEmpty hPlain
    have hCut :
        cut '('
            ([','].intercalate
              ((dropTrailingEmpty vals).map
                (String.toList ∘ escape))) =
          (glued (dropTrailingEmpty vals)).map
            String.toList :=
      cut_intercalate hUsed hNil (by decide)
    have hStrings :
        ((glued (dropTrailingEmpty vals)).map
            String.toList).map String.ofList =
          glued (dropTrailingEmpty vals) := by
      simp [Function.comp_def]
    rw [hCut, hStrings]
    exact dropTrailingEmpty_glued hUsed fun v hv =>
      isEmpty_of_getLast?_dropTrailingEmpty hv

end Dialplan

end CallFlow
