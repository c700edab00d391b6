import Mathlib.Algebra.Order.Ring.Int
import Mathlib.Algebra.Ring.Nat
import Mathlib.Data.List.Induction

/-!
# Items laid end to end

The offsets at which the items of a flattened list start, the table that lists
them in fields of one width, and bytes written over others.
-/

namespace AgencyNode
namespace Lib
namespace Frames

universe u

variable {α : Type u}

/-! ### Offsets -/

/-- The offsets of items laid end to end. -/
def offsets (start : Nat) : List (List α) → List Nat
  | [] => []
  | x :: xs => start :: offsets (start + x.length) xs

@[simp] theorem length_offsets
    (start : Nat)
    (xs : List (List α)) :
    (offsets start xs).length = xs.length := by
  induction xs generalizing start with
  | nil => rfl
  | cons x xs ih => simp [offsets, ih]

theorem offsets_eq_map
    (start : Nat)
    (xs : List (List α)) :
    offsets start xs =
      (List.range xs.length).map fun i => start + (xs.take i).flatten.length := by
  induction xs generalizing start with
  | nil => rfl
  | cons x xs ih =>
      rw [offsets, ih, List.length_cons, List.range_succ_eq_map, List.map_cons, List.map_map]
      congr 1
      apply List.map_congr_left
      intro i _
      simp only [Function.comp_apply, List.take_succ_cons, List.flatten_cons,
        List.length_append]
      omega

theorem getElem?_offsets
    {start i : Nat}
    {xs : List (List α)}
    (hi : i < xs.length) :
    (offsets start xs)[i]? = some (start + (xs.take i).flatten.length) := by
  rw [offsets_eq_map, List.getElem?_map, List.getElem?_range hi, Option.map_some]

theorem offsets_append_singleton
    (start : Nat)
    (xs : List (List α))
    (x : List α) :
    offsets start (xs ++ [x]) = offsets start xs ++ [start + xs.flatten.length] := by
  induction xs generalizing start with
  | nil => simp [offsets]
  | cons y xs ih =>
      rw [List.cons_append, offsets, offsets, ih, List.cons_append, List.flatten_cons,
        List.length_append, Nat.add_assoc]

/-- The same items somewhere else. -/
theorem map_sub_offsets
    {start diff : Nat}
    (xs : List (List α))
    (h : diff ≤ start) :
    (offsets start xs).map (· - diff) = offsets (start - diff) xs := by
  induction xs generalizing start with
  | nil => rfl
  | cons x xs ih =>
      rw [offsets, offsets, List.map_cons, ih (by omega)]
      congr 2
      omega

/-- The items from the one at an offset on. -/
theorem drop_flatten
    (xs : List (List α))
    (i : Nat) :
    xs.flatten.drop (xs.take i).flatten.length = (xs.drop i).flatten := by
  conv_lhs => rw [← List.take_append_drop i xs]
  rw [List.flatten_append, List.take_append_drop, List.drop_left]

theorem length_flatten_take_le
    (xs : List (List α))
    (i : Nat) :
    (xs.take i).flatten.length ≤ xs.flatten.length := by
  conv_rhs => rw [← List.take_append_drop i xs, List.flatten_append, List.length_append]
  exact Nat.le_add_right _ _

/-- Items of one length. -/
theorem length_flatten_of_forall
    {xs : List (List α)}
    {size : Nat}
    (h : ∀ x ∈ xs, x.length = size) :
    xs.flatten.length = xs.length * size := by
  induction xs with
  | nil => simp
  | cons x xs ih =>
      rw [List.flatten_cons, List.length_append, h x List.mem_cons_self,
        ih fun y hy => h y (List.mem_cons_of_mem x hy), List.length_cons, Nat.succ_mul,
        Nat.add_comm]

/-! ### Tables -/

section Table

variable {β : Type u} {field : β → List α} {width : Nat}

theorem length_flatMap_of_forall
    (hfield : ∀ b, (field b).length = width)
    (table : List β) :
    (table.flatMap field).length = table.length * width := by
  have hall : ∀ x ∈ table.map field, x.length = width := by
    intro x hx
    obtain ⟨b, _, rfl⟩ := List.mem_map.mp hx
    exact hfield b
  rw [List.flatMap_def, length_flatten_of_forall hall, List.length_map]

end Table

/-! ### Writing over -/

/-- Write over the items from a position on. -/
def overwrite (s : List α) (i : Nat) (part : List α) : List α :=
  s.take i ++ part ++ s.drop (i + part.length)

theorem overwrite_append
    (front old part back : List α)
    (h : part.length = old.length) :
    overwrite (front ++ old ++ back) front.length part = front ++ part ++ back := by
  rw [overwrite, h, List.append_assoc front old back, List.take_left, ← List.append_assoc,
    ← List.length_append, List.drop_left]

/-- Nothing gets lost behind what is written. -/
theorem length_le_overwrite
    (s : List α)
    (i : Nat)
    (part : List α) :
    s.length ≤ (overwrite s i part).length := by
  rw [overwrite, List.length_append, List.length_append, List.length_take, List.length_drop]
  omega

end Frames
end Lib
end AgencyNode
