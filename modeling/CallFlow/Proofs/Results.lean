import Mathlib.Data.List.Forall2

/-
  Laws of computations that may fail, for taking them apart
  into their steps.

  Main declarations:
    * `bind_eq_ok_iff`
    * `bind_eq_error_iff`
    * `mapError_eq_ok_iff`
    * `mapError_eq_error_iff`
    * `exists_ok_of_toOption_map`
    * `mapM_eq_pure`
    * `mapM_eq_ok_iff`
    * `exists_of_mapM_eq_error`
    * `exists_mapM_of_perm`
-/

namespace CallFlow

variable {ε ε' α β : Type}

/- Two steps succeed exactly if each of them does. -/
theorem bind_eq_ok_iff
    {x : Except ε α}
    {f : α → Except ε β}
    {b : β} :
    (x >>= f) = .ok b ↔ ∃ a, x = .ok a ∧ f a = .ok b := by
  cases x with
  | error e => simp [bind, Except.bind]
  | ok a => simp [bind, Except.bind]

/- Two steps fail exactly if one of them is reached and does. -/
theorem bind_eq_error_iff
    {x : Except ε α}
    {f : α → Except ε β}
    {e : ε} :
    (x >>= f) = .error e ↔
      x = .error e ∨ ∃ a, x = .ok a ∧ f a = .error e := by
  cases x with
  | error e => simp [bind, Except.bind]
  | ok a => simp [bind, Except.bind]

/- Renaming failures does not change success. -/
theorem mapError_eq_ok_iff
    {x : Except ε α}
    {f : ε → ε'}
    {a : α} :
    x.mapError f = .ok a ↔ x = .ok a := by
  cases x with
  | error e => exact ⟨nofun, nofun⟩
  | ok b =>
      constructor <;>
        intro h <;>
        cases h <;>
        rfl

/- Failures that were renamed are failures. -/
theorem mapError_eq_error_iff
    {x : Except ε α}
    {f : ε → ε'}
    {e' : ε'} :
    x.mapError f = .error e' ↔
      ∃ e, x = .error e ∧ f e = e' := by
  cases x with
  | error e =>
      constructor
      · rintro ⟨⟩
        exact ⟨e, rfl, rfl⟩
      · rintro ⟨_, ⟨⟩, rfl⟩
        rfl
  | ok a => exact ⟨nofun, fun ⟨_, h, _⟩ => nomatch h⟩

/- A result that something is seen of is a success. -/
theorem exists_ok_of_toOption_map
    {x : Except ε α}
    {f : α → β}
    {b : β}
    (h : x.toOption.map f = some b) :
    ∃ a, x = .ok a ∧ f a = b := by
  cases x with
  | error e => cases h
  | ok a => exact ⟨a, rfl, Option.some.inj h⟩

/- Steps over a list that all succeed make a list. -/
theorem mapM_eq_pure
    {m : Type → Type}
    [Monad m]
    [LawfulMonad m]
    {f : α → m β}
    {g : α → β}
    {l : List α}
    (h : ∀ a ∈ l, f a = pure (g a)) :
    l.mapM f = pure (l.map g) := by
  induction l with
  | nil => simp
  | cons a l ih =>
      have hHead := h a List.mem_cons_self
      have hRest := ih fun b hb =>
        h b (List.mem_cons_of_mem a hb)
      simp [hHead, hRest]

/- Steps over a list succeed exactly if each of them does. -/
theorem mapM_eq_ok_iff
    {f : α → Except ε β}
    {l : List α}
    {l' : List β} :
    l.mapM f = .ok l' ↔
      List.Forall₂ (fun a b => f a = .ok b) l l' := by
  induction l generalizing l' with
  | nil =>
      rw [List.mapM_nil, List.forall₂_nil_left_iff]
      constructor
      · rintro ⟨⟩
        rfl
      · rintro rfl
        rfl
  | cons a l ih =>
      rw [List.mapM_cons, List.forall₂_cons_left_iff,
        bind_eq_ok_iff]
      constructor
      · rintro ⟨b, hHead, hRest⟩
        rcases bind_eq_ok_iff.mp hRest with ⟨bs, hTail, hPure⟩
        cases hPure
        exact ⟨b, bs, hHead, ih.mp hTail, rfl⟩
      · rintro ⟨b, bs, hHead, hTail, rfl⟩
        exact ⟨b, hHead,
          bind_eq_ok_iff.mpr ⟨bs, ih.mpr hTail, rfl⟩⟩

/- Steps over a list fail as one of them does. -/
theorem exists_of_mapM_eq_error
    {f : α → Except ε β}
    {l : List α}
    {e : ε}
    (h : l.mapM f = .error e) :
    ∃ a ∈ l, f a = .error e := by
  induction l with
  | nil => cases h
  | cons a l ih =>
      rw [List.mapM_cons, bind_eq_error_iff] at h
      rcases h with hHead | ⟨b, -, hNext⟩
      · exact ⟨a, List.mem_cons_self, hHead⟩
      · rcases bind_eq_error_iff.mp hNext with
          hRest | ⟨bs, -, hPure⟩
        · rcases ih hRest with ⟨a', ha', hFails⟩
          exact ⟨a', List.mem_cons_of_mem a ha', hFails⟩
        · cases hPure

/- Reordered steps make a reordered list. -/
theorem exists_mapM_of_perm
    {f : α → Option β}
    {l l' : List α}
    {bs : List β}
    (hPerm : l.Perm l')
    (h : l.mapM f = some bs) :
    ∃ bs', l'.mapM f = some bs' ∧ bs.Perm bs' := by
  induction hPerm generalizing bs with
  | nil => exact ⟨bs, h, .refl bs⟩
  | cons a _ ih =>
      simp only [List.mapM_cons, Option.bind_eq_bind,
        Option.bind_eq_some_iff] at h ⊢
      rcases h with ⟨b, hHead, rest, hRest, hList⟩
      cases hList
      rcases ih hRest with ⟨rest', hRest', hSame⟩
      exact ⟨b :: rest', ⟨b, hHead, rest', hRest', rfl⟩,
        hSame.cons b⟩
  | swap a a' l =>
      simp only [List.mapM_cons, Option.bind_eq_bind,
        Option.bind_eq_some_iff] at h ⊢
      rcases h with
        ⟨b', hHead', _, ⟨b, hHead, rest, hRest, hPure⟩, hList⟩
      cases hPure
      cases hList
      exact ⟨b :: b' :: rest,
        ⟨b, hHead, _, ⟨b', hHead', rest, hRest, rfl⟩, rfl⟩,
        .swap b b' rest⟩
  | trans _ _ ihFirst ihSecond =>
      rcases ihFirst h with ⟨bs', h', hFirst⟩
      rcases ihSecond h' with ⟨bs'', h'', hSecond⟩
      exact ⟨bs'', h'', hFirst.trans hSecond⟩

end CallFlow
