import Mathlib.Algebra.Order.Ring.Int
import Mathlib.Algebra.Ring.Nat
import Mathlib.Data.List.Basic

/-!
# Natural numbers as bytes

Two encodings of natural numbers: little endian with a fixed number of bytes,
and groups of seven bits, the least significant one first, of which all but the
last are marked (unsigned LEB128).  Both are read back from the front of a list,
so that anything may follow.
-/

namespace AgencyNode
namespace Lib
namespace ByteIntegers

/-! ### Little endian -/

/-- The low bytes of a number. -/
def littleEndian : Nat → Nat → List UInt8
  | 0, _ => []
  | width + 1, x => UInt8.ofNat x :: littleEndian width (x / 256)

/-- The number its bytes stand for. -/
def ofLittleEndian : List UInt8 → Nat
  | [] => 0
  | b :: t => b.toNat + 256 * ofLittleEndian t

@[simp] theorem length_littleEndian
    (width x : Nat) :
    (littleEndian width x).length = width := by
  induction width generalizing x with
  | zero => rfl
  | succ width ih => simp [littleEndian, ih]

theorem ofLittleEndian_littleEndian
    {width x : Nat}
    (hx : x < 256 ^ width) :
    ofLittleEndian (littleEndian width x) = x := by
  induction width generalizing x with
  | zero =>
      simp only [Nat.pow_zero, Nat.lt_one_iff] at hx
      rw [hx]
      rfl
  | succ width ih =>
      rw [Nat.pow_succ] at hx
      have hdiv : x / 256 < 256 ^ width := by
        rw [Nat.div_lt_iff_lt_mul (by decide)]
        exact hx
      rw [littleEndian, ofLittleEndian, ih hdiv, UInt8.toNat_ofNat']
      omega

/-! ### Groups of seven bits -/

/-- The groups of a number that has at most `fuel` groups behind the first. -/
def lebLoop : Nat → Nat → List UInt8
  | 0, x => [UInt8.ofNat (x % 128)]
  | fuel + 1, x =>
      if 128 ≤ x then UInt8.ofNat (x % 128 + 128) :: lebLoop fuel (x / 128)
      else [UInt8.ofNat (x % 128)]

/-- The groups of a number. -/
def leb (x : Nat) : List UInt8 :=
  lebLoop x x

/-- Read a number up to the first group that is not marked. -/
def readLeb : List UInt8 → Option Nat
  | [] => none
  | b :: t =>
      if 128 ≤ b.toNat then (readLeb t).map fun x => b.toNat % 128 + 128 * x
      else some b.toNat

theorem lebLoop_of_lt
    {fuel x : Nat}
    (hx : x < 128) :
    lebLoop fuel x = [UInt8.ofNat x] := by
  cases fuel with
  | zero => rw [lebLoop, Nat.mod_eq_of_lt hx]
  | succ fuel => rw [lebLoop, if_neg (by omega), Nat.mod_eq_of_lt hx]

/-- The fuel does not matter, as long as there is enough of it. -/
theorem lebLoop_eq
    {fuel fuel' x : Nat}
    (h : x ≤ fuel)
    (h' : x ≤ fuel') :
    lebLoop fuel x = lebLoop fuel' x := by
  induction fuel generalizing fuel' x with
  | zero =>
      have hx : x < 128 := by omega
      rw [lebLoop_of_lt hx, lebLoop_of_lt hx]
  | succ fuel ih =>
      by_cases hx : 128 ≤ x
      · cases fuel' with
        | zero => omega
        | succ fuel' =>
            have hrest : lebLoop fuel (x / 128) = lebLoop fuel' (x / 128) :=
              ih (by omega) (by omega)
            rw [lebLoop, lebLoop, if_pos hx, if_pos hx, hrest]
      · rw [lebLoop_of_lt (by omega), lebLoop_of_lt (by omega)]

theorem leb_of_lt
    {x : Nat}
    (hx : x < 128) :
    leb x = [UInt8.ofNat x] :=
  lebLoop_of_lt hx

theorem leb_of_le
    {x : Nat}
    (hx : 128 ≤ x) :
    leb x = UInt8.ofNat (x % 128 + 128) :: leb (x / 128) := by
  unfold leb
  obtain ⟨fuel, rfl⟩ : ∃ fuel, x = fuel + 1 := ⟨x - 1, by omega⟩
  rw [lebLoop, if_pos hx]
  congr 1
  exact lebLoop_eq (by omega) (Nat.le_refl _)

/-- The induction over the groups of a number. -/
theorem leb_induction
    {motive : Nat → Prop}
    (last : ∀ x, x < 128 → motive x)
    (group : ∀ x, 128 ≤ x → motive (x / 128) → motive x)
    (x : Nat) :
    motive x := by
  induction x using Nat.strong_induction_on with
  | _ x ih =>
      by_cases hx : 128 ≤ x
      · exact group x hx (ih _ (by omega))
      · exact last x (by omega)

theorem leb_ne_nil
    (x : Nat) :
    leb x ≠ [] := by
  by_cases hx : 128 ≤ x
  · rw [leb_of_le hx]
    exact List.cons_ne_nil _ _
  · rw [leb_of_lt (by omega)]
    exact List.cons_ne_nil _ _

/-- A number is read back, whatever follows. -/
theorem readLeb_leb
    (x : Nat)
    (t : List UInt8) :
    readLeb (leb x ++ t) = some x := by
  induction x using leb_induction with
  | last x hx =>
      have hvalue : (UInt8.ofNat x).toNat = x := by
        rw [UInt8.toNat_ofNat']
        omega
      rw [leb_of_lt hx, List.singleton_append, readLeb, hvalue, if_neg (by omega)]
  | group x hx ih =>
      have hvalue : (UInt8.ofNat (x % 128 + 128)).toNat = x % 128 + 128 := by
        rw [UInt8.toNat_ofNat']
        omega
      rw [leb_of_le hx, List.cons_append, readLeb, hvalue, if_pos (by omega), ih,
        Option.map_some]
      congr 1
      omega

/-- More groups make for larger numbers. -/
theorem length_leb_mono
    {x y : Nat}
    (h : x ≤ y) :
    (leb x).length ≤ (leb y).length := by
  induction x using leb_induction generalizing y with
  | last x hx =>
      rw [leb_of_lt hx]
      exact List.length_pos_iff.mpr (leb_ne_nil y)
  | group x hx ih =>
      rw [leb_of_le hx, leb_of_le (x := y) (by omega), List.length_cons, List.length_cons]
      have := ih (y := y / 128) (by omega)
      omega

/-- One more group is enough for a number 128 times as large. -/
theorem length_leb_le_succ
    {x y : Nat}
    (h : y / 128 ≤ x) :
    (leb y).length ≤ (leb x).length + 1 := by
  by_cases hy : 128 ≤ y
  · rw [leb_of_le hy, List.length_cons]
    exact Nat.succ_le_succ (length_leb_mono h)
  · rw [leb_of_lt (by omega)]
    exact Nat.succ_le_succ (Nat.zero_le _)

theorem length_leb_le
    (x : Nat) :
    (leb x).length ≤ x + 1 := by
  induction x using leb_induction with
  | last x hx =>
      rw [leb_of_lt hx]
      exact Nat.succ_le_succ (Nat.zero_le _)
  | group x hx ih =>
      rw [leb_of_le hx, List.length_cons]
      omega

end ByteIntegers
end Lib
end AgencyNode
