import CallFlow.Proofs.Flow.Accepted
import CallFlow.Proofs.NameMap
import CallFlow.Proofs.Number.Numeral
import Mathlib.Order.Bounds.Basic

/-
  The id that a new node gets.

  Numbers are tried one after the other from the stored one
  on.  Those that have been tried belong to as many nodes,
  since ids with different numbers differ, so there are no
  more of them than nodes, and the search ends in the turn
  after.  It ends at the smallest number that is free, or at
  the last number of all, if none is.

  Main declarations:
    * `Flow.numbered`
    * `Flow.Free`
    * `Flow.search?`
    * `Flow.Searched`
    * `Flow.Chosen`
    * `Flow.search?_eq`
    * `Flow.freshId?_eq_iff`
-/

namespace CallFlow

namespace Flow

------------------------------------------------------------
-- Numbers of Ids
------------------------------------------------------------

/- The id with a number, be it too large for a word or not. -/
def numbered
    (k : Nat) : String :=
  "n" ++ toString k

/- Ids with different numbers differ. -/
theorem numbered_injective :
    Function.Injective numbered := by
  intro j k hSame
  exact Numeral.toString_injective
    ((String.append_right_inj _).mp hSame)

/-
  A number is free if it is not smaller than the stored one,
  is not the last one of all, and no node has its id.
-/
structure Free
    (t : Flow)
    (k : Nat) : Prop where
  le : t.nextId.toNat ≤ k
  room : k + 1 < UInt64.size
  unused : t.contains (numbered k) = false

variable {t : Flow}

------------------------------------------------------------
-- The Search
------------------------------------------------------------

/-
  Search for an unused id from a number on.  The search may
  not have come to its end when there are no more turns.
-/
def search?
    (t : Flow) :
    Nat → UInt64 → Option (Option (String × UInt64))
  | 0, _ => none
  | turns + 1, n =>
      if n.toNat + 1 < UInt64.size then
        if t.contains (numberedId n) then
          search? t turns (n + 1)
        else some (some (numberedId n, n + 1))
      else some none

/- The first unused id is the one that the search comes to. -/
theorem freshIdFrom?_eq_join
    (t : Flow)
    (turns : Nat)
    (n : UInt64) :
    t.freshIdFrom? turns n = (t.search? turns n).join := by
  induction turns generalizing n with
  | zero => rfl
  | succ turns ih =>
      unfold freshIdFrom? search?
      split
      · split
        · exact ih (n + 1)
        · rfl
      · rfl

/- All numbers from the stored one up to one are in use. -/
structure Searched
    (t : Flow)
    (n : Nat) : Prop where
  begun : t.nextId.toNat ≤ n
  used :
    ∀ k, t.nextId.toNat ≤ k → k < n →
      t.contains (numbered k) = true

/-
  What there is to choose: the smallest free number with the
  number after it, or nothing if no number is free.
-/
def Chosen
    (t : Flow) : Option (String × UInt64) → Prop
  | some (id, next) =>
      ∃ k, IsLeast {k | t.Free k} k ∧ id = numbered k ∧
        next.toNat = k + 1
  | none => ¬ ∃ k, t.Free k

namespace Searched

variable {n : Nat}

/- Nothing has been tried at the stored number. -/
theorem initial
    (t : Flow) : t.Searched t.nextId.toNat where
  begun := Nat.le_refl _
  used := by
    intro k hLe hLt
    omega

/- A number that is in use has been tried. -/
theorem step
    (h : t.Searched n)
    (hUsed : t.contains (numbered n) = true) :
    t.Searched (n + 1) where
  begun := Nat.le_succ_of_le h.begun
  used := by
    intro k hLe hLt
    rcases Nat.lt_succ_iff_lt_or_eq.mp hLt with hBefore | rfl
    · exact h.used k hLe hBefore
    · exact hUsed

/- No more numbers have been tried than there are nodes. -/
theorem sub_le_size
    (h : t.Searched n) : n - t.nextId.toNat ≤ t.size := by
  have hNodup :
      ((List.range' t.nextId.toNat
        (n - t.nextId.toNat)).map numbered).Nodup :=
    (List.nodup_range' 1).map numbered_injective
  have hLength := t.nodes.length_le_size hNodup ?_
  · rwa [List.length_map, List.length_range'] at hLength
  · intro id hId
    rcases List.mem_map.mp hId with ⟨k, hk, rfl⟩
    rw [List.mem_range'_1] at hk
    exact h.used k hk.1 (by omega)

/- A free number has not been tried. -/
theorem le_of_free
    (h : t.Searched n)
    {k : Nat}
    (hFree : t.Free k) : n ≤ k := by
  by_contra hTried
  have hUsed := h.used k hFree.le (Nat.lt_of_not_le hTried)
  rw [hFree.unused] at hUsed
  cases hUsed

/-
  The search ends, if it has a turn more than there are
  nodes, and it chooses what there is to choose.
-/
theorem exists_chosen
    {n : UInt64}
    (h : t.Searched n.toNat)
    {turns : Nat}
    (hTurns :
      t.size < turns + (n.toNat - t.nextId.toNat)) :
    ∃ chosen, t.search? turns n = some chosen ∧
      t.Chosen chosen := by
  induction turns generalizing n with
  | zero =>
      have hTried := h.sub_le_size
      omega
  | succ turns ih =>
      unfold search?
      by_cases hRoom : n.toNat + 1 < UInt64.size
      · have hNext : (n + 1).toNat = n.toNat + 1 := by
          rw [UInt64.toNat_add]
          exact Nat.mod_eq_of_lt hRoom
        rw [if_pos hRoom]
        by_cases hUsed : t.contains (numberedId n) = true
        · rw [if_pos hUsed]
          have hBegun := h.begun
          refine ih (hNext ▸ h.step hUsed) ?_
          rw [hNext]
          omega
        · rw [if_neg hUsed]
          have hFree : t.Free n.toNat :=
            ⟨h.begun, hRoom, Bool.eq_false_iff.mpr hUsed⟩
          exact ⟨_, rfl, n.toNat,
            ⟨hFree, fun k => h.le_of_free⟩, rfl, hNext⟩
      · rw [if_neg hRoom]
        refine ⟨none, rfl, ?_⟩
        rintro ⟨k, hFree⟩
        have hLast := h.le_of_free hFree
        have hBelow := hFree.room
        omega

end Searched

/- There is just one thing to choose. -/
theorem Chosen.unique
    {chosen chosen' : Option (String × UInt64)}
    (h : t.Chosen chosen)
    (h' : t.Chosen chosen') : chosen = chosen' := by
  rcases chosen with _ | ⟨id, next⟩ <;>
    rcases chosen' with _ | ⟨id', next'⟩
  · rfl
  · rcases h' with ⟨k, hLeast, -⟩
    exact absurd ⟨k, hLeast.1⟩ h
  · rcases h with ⟨k, hLeast, -⟩
    exact absurd ⟨k, hLeast.1⟩ h'
  · rcases h with ⟨k, hLeast, rfl, hNext⟩
    rcases h' with ⟨k', hLeast', rfl, hNext'⟩
    have hNumber := hLeast.unique hLeast'
    subst hNumber
    rw [UInt64.toNat_inj.mp (hNext.trans hNext'.symm)]

------------------------------------------------------------
-- The Next Id
------------------------------------------------------------

/- The next id is what there is to choose. -/
theorem chosen_freshId?
    (t : Flow) : t.Chosen t.freshId? := by
  have hTurns :
      t.size <
        t.size + 1 + (t.nextId.toNat - t.nextId.toNat) := by
    omega
  rcases (Searched.initial t).exists_chosen hTurns with
    ⟨chosen, hSearch, hChosen⟩
  unfold freshId?
  rw [freshIdFrom?_eq_join, hSearch]
  exact hChosen

/- The next id, said without the search. -/
theorem freshId?_eq_iff
    (t : Flow)
    (chosen : Option (String × UInt64)) :
    t.freshId? = chosen ↔ t.Chosen chosen := by
  constructor
  · rintro rfl
    exact t.chosen_freshId?
  · exact t.chosen_freshId?.unique

/- Any search with more turns than nodes comes to it. -/
theorem search?_eq
    (t : Flow)
    {turns : Nat}
    (hTurns : t.size < turns) :
    t.search? turns t.nextId = some t.freshId? := by
  have hEnough :
      t.size <
        turns + (t.nextId.toNat - t.nextId.toNat) := by
    omega
  rcases (Searched.initial t).exists_chosen hEnough with
    ⟨chosen, hSearch, hChosen⟩
  rw [hSearch, t.chosen_freshId?.unique hChosen]

end Flow

end CallFlow
