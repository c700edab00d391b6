import Mathlib.Init

/-!
# Runtime

What the C++ program leaves to its runtime:

* the ways in which a call may fail to return normally (`Fault`), and the
  computations that may do so (`Exec`);
* the type `double`, kept opaque: only the literals and operations the program
  uses are named;
* `std::hash<std::string>`, of which nothing is assumed.
-/

namespace AgencyNode

/-- The exceptions velocypack throws when a slice is used outside its domain. -/
inductive VPackException where
  | invalidValueType (what : String)
  | indexOutOfBounds
  | noJsonEquivalent
deriving DecidableEq, Repr

/-- The ways in which a call does not return normally. -/
inductive Fault where
  /-- `*p` or `p->` on a `node_ptr` that is `nullptr`. -/
  | nullptrDereference
  /-- A loop whose condition never becomes false. -/
  | nonTermination
  /-- `std::terminate` has been called. -/
  | terminate
  /-- A velocypack exception has been thrown. -/
  | exception (e : VPackException)
deriving DecidableEq, Repr

/-- A computation that returns a value or fails with a fault. -/
abbrev Exec := Except Fault

namespace Exec

universe u v

variable {α : Type u} {β : Type u}

theorem bind_eq_ok
    {x : Exec α}
    {f : α → Exec β}
    {b : β} :
    (x >>= f) = .ok b ↔ ∃ a, x = .ok a ∧ f a = .ok b := by
  cases x with
  | error e =>
      constructor
      · intro h
        cases h
      · rintro ⟨a, h, _⟩
        cases h
  | ok a =>
      constructor
      · intro h
        exact ⟨a, rfl, h⟩
      · rintro ⟨a', h, hf⟩
        cases h
        exact hf

@[simp] theorem ok_bind
    (a : α)
    (f : α → Exec β) :
    ((.ok a : Exec α) >>= f) = f a := by
  rfl

@[simp] theorem error_bind
    (e : Fault)
    (f : α → Exec β) :
    ((.error e : Exec α) >>= f) = .error e := by
  rfl

@[simp] theorem pure_eq_ok
    (a : α) :
    (pure a : Exec α) = .ok a := by
  rfl

theorem toOption_eq_some
    {x : Exec α}
    {a : α} :
    x.toOption = some a ↔ x = .ok a := by
  cases x <;> simp [Except.toOption]

end Exec

/-- The double precision numbers, as far as the program computes with them. -/
class Double (D : Type) where
  /-- `double{}`. -/
  zero : D
  /-- `1.0`. -/
  one : D
  /-- `T{V}` for an integer literal. -/
  ofInt : Int → D
  add : D → D → D
  /-- The comparison `==`, which need not be reflexive. -/
  eq : D → D → Bool
  /-- `!std::isnan(x) && std::isfinite(x)`. -/
  isFinite : D → Bool
  /-- The text `velocypack::Dumper` writes for a finite number. -/
  dump : D → String
  zero_ne_one : zero ≠ one

/-- Integers in place of doubles, to evaluate the program on examples. -/
instance : Double Int where
  zero := 0
  one := 1
  ofInt := fun v => v
  add := fun a b => a + b
  eq := fun a b => a == b
  isFinite := fun _ => true
  dump := Int.repr
  zero_ne_one := by decide

/-- `std::hash<std::string>`. -/
class StdHash where
  hash : String → UInt64

/-- A hash function to evaluate the program on examples; all keys collide. -/
@[reducible] def constantHash : StdHash where
  hash := fun _ => 0

end AgencyNode
