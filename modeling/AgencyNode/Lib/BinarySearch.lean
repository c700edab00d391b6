import Mathlib.Algebra.Order.Ring.Int
import Mathlib.Algebra.Ring.Nat

/-!
# Binary search

The search for an entry of a sorted table by probing: a probe compares the entry
at an index with what is searched for, and may fail.  The result of a comparison
is positive if the entry is behind.
-/

namespace AgencyNode
namespace Lib
namespace BinarySearch

universe u

variable {ε : Type u} {α : Type u}

/--
The search between two indices, both included.  A probe returns the result of the
comparison and what the search returns if they are equal.
-/
def searchLoop (probe : Int → Except ε (Int × α)) :
    Nat → Int → Int → Except ε (Option α)
  | 0, _, _ => .ok none
  | fuel + 1, l, r =>
      if r < l then .ok none
      else
        match probe (l + (r - l) / 2) with
        | .error e => .error e
        | .ok (res, found) =>
            if 0 < res then searchLoop probe fuel l (l + (r - l) / 2 - 1)
            else if res = 0 then .ok (some found)
            else searchLoop probe fuel (l + (r - l) / 2 + 1) r

/-- The search in a table of `n` entries. -/
def search (probe : Int → Except ε (Int × α)) (n : Nat) : Except ε (Option α) :=
  searchLoop probe n 0 (n - 1)

/-- The probes of a table of `n` entries return, and their comparisons are sorted. -/
structure Sorted (probe : Int → Except ε (Int × α)) (n : Nat)
    (compare : Int → Int) (entry : Int → α) : Prop where
  probe_eq : ∀ {i : Int}, 0 ≤ i → i < n → probe i = .ok (compare i, entry i)
  behind : ∀ {i j : Int}, 0 ≤ i → i < j → j < n → 0 < compare i → 0 < compare j
  before : ∀ {i j : Int}, 0 ≤ i → i < j → j < n → compare j < 0 → compare i < 0

/-- What the search returns: an equal entry, or nothing if there is none. -/
def Answers (n : Nat) (compare : Int → Int) (entry : Int → α) : Option α → Prop
  | some a => ∃ i : Int, 0 ≤ i ∧ i < n ∧ compare i = 0 ∧ entry i = a
  | none => ∀ i : Int, 0 ≤ i → i < n → compare i ≠ 0

variable {probe : Int → Except ε (Int × α)} {n : Nat}
  {compare : Int → Int} {entry : Int → α}

/-- No entry is equal once the entries outside the indices are all there are. -/
theorem answers_none
    {l r : Int}
    (hlt : r < l)
    (hbefore : ∀ i, 0 ≤ i → i < l → compare i < 0)
    (hbehind : ∀ i : Int, r < i → i < n → 0 < compare i) :
    Answers n compare entry none := by
  intro i hi hn heq
  rcases lt_or_ge i l with hil | hil
  · have := hbefore i hi hil
    omega
  · have := hbehind i (by omega) hn
    omega

/-- The entries outside the indices have been ruled out. -/
theorem Sorted.searchLoop
    (h : Sorted probe n compare entry)
    {fuel : Nat}
    {l r : Int}
    (hl : 0 ≤ l)
    (hr : r < n)
    (hfuel : r + 1 - l ≤ fuel)
    (hbefore : ∀ i, 0 ≤ i → i < l → compare i < 0)
    (hbehind : ∀ i : Int, r < i → i < n → 0 < compare i) :
    ∃ result, searchLoop probe fuel l r = .ok result ∧ Answers n compare entry result := by
  induction fuel generalizing l r with
  | zero => exact ⟨none, rfl, answers_none (by omega) hbefore hbehind⟩
  | succ fuel ih =>
      rw [BinarySearch.searchLoop]
      by_cases hlt : r < l
      · exact ⟨none, if_pos hlt, answers_none hlt hbefore hbehind⟩
      · rw [if_neg hlt]
        generalize hindex : l + (r - l) / 2 = index
        have hlow : l ≤ index := by omega
        have hhigh : index ≤ r := by omega
        rw [h.probe_eq (by omega) (by omega)]
        rcases lt_trichotomy (compare index) 0 with hres | hres | hres
        · simp only [if_neg (show ¬ 0 < compare index by omega),
            if_neg (show ¬ compare index = 0 by omega)]
          apply ih (by omega) hr (by omega) _ hbehind
          intro i hi hle
          rcases lt_or_ge i index with hlt' | hge
          · exact h.before hi hlt' (by omega) hres
          · have heq : i = index := by omega
            rwa [heq]
        · simp only [if_neg (show ¬ 0 < compare index by omega), if_pos hres]
          exact ⟨some (entry index), rfl, index, by omega, by omega, hres, rfl⟩
        · simp only [if_pos hres]
          apply ih hl (by omega) (by omega) hbefore
          intro i hi hn
          rcases lt_or_ge index i with hlt' | hge
          · exact h.behind (by omega) hlt' hn hres
          · have heq : i = index := by omega
            rwa [heq]

/-- **The search finds an equal entry** of a sorted table, if there is one. -/
theorem Sorted.search
    (h : Sorted probe n compare entry) :
    ∃ result, search probe n = .ok result ∧ Answers n compare entry result := by
  apply h.searchLoop (Int.le_refl 0) (by omega) (by omega)
  · intro i hi hlt
    omega
  · intro i hi hlt
    omega

end BinarySearch
end Lib
end AgencyNode
