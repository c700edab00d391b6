import AgencyNode.Runtime
import Mathlib.Algebra.Group.Nat.Defs

/-!
# helper-strings.h

`stringToNumber` reads a key as an array index of type `std::size_t`.  It
accepts every string made of decimal digits, also the empty one and numerals
with leading zeros, and it computes modulo `2 ^ 64`.

The second half relates it to `std::to_string`: the numerals without leading
zeros are exactly the strings the latter produces.
-/

namespace AgencyNode

/-- The number of values of `std::size_t`. -/
def sizeTModulus : Nat := 2 ^ 64

/-- The largest value of `std::size_t`. -/
def sizeTMax : Nat := 2 ^ 64 - 1

/-- The loop of `string_to_number`, with the accumulator `a`. -/
def stringToNumberLoop (a : Nat) :
    List Char → Option Nat
  | [] => some a
  | c :: str =>
      if '0' ≤ c ∧ c ≤ '9' then
        stringToNumberLoop
          ((10 * a + (c.toNat - '0'.toNat)) % sizeTModulus) str
      else
        none

/-- `string_to_number<std::size_t>`. -/
def stringToNumber (str : String) : Option Nat :=
  stringToNumberLoop 0 str.toList

/-- `std::to_string` on `std::size_t`. -/
def stdToString (i : Nat) : String :=
  Nat.repr i

theorem digit_iff_isDigit
    (c : Char) :
    ('0' ≤ c ∧ c ≤ '9') ↔ c.isDigit = true := by
  rw [Char.isDigit_iff_toNat]
  rfl

/-- On digits the loop computes the decimal value modulo `2 ^ 64`. -/
theorem stringToNumberLoop_of_digits
    (a : Nat)
    (str : List Char)
    (hstr : ∀ c ∈ str, c.isDigit = true) :
    ∃ b, stringToNumberLoop a str = some b ∧
      b % sizeTModulus = Nat.ofDigitChars 10 str a % sizeTModulus := by
  induction str generalizing a with
  | nil =>
      exact ⟨a, rfl, by simp⟩
  | cons c str ih =>
      have hc := (digit_iff_isDigit c).mpr (hstr c List.mem_cons_self)
      obtain ⟨b, hb, hmod⟩ :=
        ih ((10 * a + (c.toNat - '0'.toNat)) % sizeTModulus)
          (fun d hd => hstr d (List.mem_cons_of_mem _ hd))
      refine ⟨b, ?_, ?_⟩
      · rw [stringToNumberLoop, if_pos hc, hb]
      · have hshift : ∀ init, Nat.ofDigitChars 10 str init =
            10 ^ str.length * init + Nat.ofDigitChars 10 str 0 := by
          intro init
          exact Nat.ofDigitChars_eq_ofDigitChars_zero
        rw [hmod, Nat.ofDigitChars_cons, hshift, hshift (10 * a + _)]
        simp [Nat.add_mod, Nat.mul_mod]

/-- A result of the loop on at least one digit is a `std::size_t`. -/
theorem stringToNumberLoop_lt
    {a b : Nat}
    {str : List Char}
    (h : stringToNumberLoop a str = some b)
    (ha : a < sizeTModulus) :
    b < sizeTModulus := by
  induction str generalizing a with
  | nil =>
      simp [stringToNumberLoop] at h
      omega
  | cons c str ih =>
      rw [stringToNumberLoop] at h
      split at h
      · exact ih h (Nat.mod_lt _ (by simp [sizeTModulus]))
      · cases h

theorem stringToNumber_lt
    {str : String}
    {i : Nat}
    (h : stringToNumber str = some i) :
    i < sizeTModulus := by
  exact stringToNumberLoop_lt h (by simp [sizeTModulus])

/-- The loop accepts digits only. -/
theorem isDigit_of_stringToNumberLoop
    {a b : Nat}
    {str : List Char}
    (h : stringToNumberLoop a str = some b) :
    ∀ c ∈ str, c.isDigit = true := by
  induction str generalizing a with
  | nil =>
      intro c hc
      simp at hc
  | cons c str ih =>
      rw [stringToNumberLoop] at h
      split at h
      · intro d hd
        rcases List.mem_cons.mp hd with rfl | hd
        · exact (digit_iff_isDigit d).mp (by assumption)
        · exact ih h d hd
      · cases h

/-- The value of a string of digits is its decimal value modulo `2 ^ 64`. -/
theorem stringToNumber_of_digits
    {str : String}
    (hstr : ∀ c ∈ str.toList, c.isDigit = true) :
    stringToNumber str =
      some (Nat.ofDigitChars 10 str.toList 0 % sizeTModulus) := by
  obtain ⟨b, hb, hmod⟩ := stringToNumberLoop_of_digits 0 str.toList hstr
  have hlt := stringToNumber_lt hb
  rw [Nat.mod_eq_of_lt hlt] at hmod
  rw [stringToNumber, hb, hmod]

theorem stringToNumber_eq_none_iff
    {str : String} :
    stringToNumber str = none ↔ ¬ ∀ c ∈ str.toList, c.isDigit = true := by
  constructor
  · intro h hdigits
    rw [stringToNumber_of_digits hdigits] at h
    cases h
  · intro h
    cases hn : stringToNumber str with
    | none =>
        rfl
    | some i =>
        exact absurd (isDigit_of_stringToNumberLoop hn) h

/-- A printed index is read back modulo `2 ^ 64`. -/
theorem stringToNumber_stdToString
    (i : Nat) :
    stringToNumber (stdToString i) = some (i % sizeTModulus) := by
  have hdigits : ∀ c ∈ (stdToString i).toList, c.isDigit = true := by
    intro c hc
    rw [stdToString, Nat.toList_repr] at hc
    exact Nat.isDigit_of_mem_toDigits (by omega) (by omega) hc
  rw [stringToNumber_of_digits hdigits, stdToString, Nat.toList_repr,
    Nat.ofDigitChars_toDigits (by omega) (by omega)]

theorem stdToString_injective :
    Function.Injective stdToString := by
  intro i j h
  have hi : Nat.ofDigitChars 10 (stdToString i).toList 0 = i := by
    rw [stdToString, Nat.toList_repr, Nat.ofDigitChars_toDigits (by omega) (by omega)]
  have hj : Nat.ofDigitChars 10 (stdToString j).toList 0 = j := by
    rw [stdToString, Nat.toList_repr, Nat.ofDigitChars_toDigits (by omega) (by omega)]
  rw [← hi, h, hj]

/-- A string of decimal digits only. -/
def AllDigits (str : String) : Prop :=
  ∀ c ∈ str.toList, c.isDigit = true

/-- A decimal numeral without leading zeros. -/
def CanonicalNumeral (str : String) : Prop :=
  ∃ i, str = stdToString i

/--
A path component that addresses at most one array element under one name: it
is not empty, and if it is made of digits only then it is a canonical decimal
numeral below `2 ^ 64 - 1`.
-/
def CanonicalComponent (str : String) : Prop :=
  str ≠ "" ∧ (AllDigits str → ∃ i, i < sizeTMax ∧ str = stdToString i)

theorem CanonicalComponent.index_cases
    {str : String}
    (h : CanonicalComponent str) :
    stringToNumber str = none ∨
      ∃ i, i < sizeTMax ∧ str = stdToString i ∧ stringToNumber str = some i := by
  by_cases hdigits : AllDigits str
  · obtain ⟨i, hi, rfl⟩ := h.2 hdigits
    refine Or.inr ⟨i, hi, rfl, ?_⟩
    rw [stringToNumber_stdToString, Nat.mod_eq_of_lt]
    exact Nat.lt_trans hi (by decide)
  · exact Or.inl (stringToNumber_eq_none_iff.mpr hdigits)

/-- Distinct canonical components do not name the same index. -/
theorem CanonicalComponent.index_inj
    {a b : String}
    {i : Nat}
    (ha : CanonicalComponent a)
    (hb : CanonicalComponent b)
    (hai : stringToNumber a = some i)
    (hbi : stringToNumber b = some i) :
    a = b := by
  rcases ha.index_cases with h | ⟨i', _, rfl, h⟩
  · simp [h] at hai
  · rcases hb.index_cases with h' | ⟨j', _, rfl, h'⟩
    · simp [h'] at hbi
    · rw [h] at hai
      rw [h'] at hbi
      cases hai
      cases hbi
      rfl

theorem CanonicalComponent.index_lt
    {a : String}
    {i : Nat}
    (ha : CanonicalComponent a)
    (hai : stringToNumber a = some i) :
    i < sizeTMax := by
  rcases ha.index_cases with h | ⟨i', hi', _, h⟩
  · simp [h] at hai
  · rw [h] at hai
    cases hai
    exact hi'

theorem CanonicalComponent.eq_stdToString
    {a : String}
    {i : Nat}
    (ha : CanonicalComponent a)
    (hai : stringToNumber a = some i) :
    a = stdToString i := by
  rcases ha.index_cases with h | ⟨i', _, heq, h⟩
  · simp [h] at hai
  · rw [h] at hai
    cases hai
    exact heq

/-- A component is canonical if its index, if it has one, prints as the component. -/
theorem canonicalComponent_iff
    {str : String} :
    CanonicalComponent str ↔
      str ≠ "" ∧ ∀ i ∈ stringToNumber str, i < sizeTMax ∧ str = stdToString i := by
  constructor
  · intro h
    refine ⟨h.1, ?_⟩
    intro i hi
    exact ⟨h.index_lt hi, h.eq_stdToString hi⟩
  · rintro ⟨hne, h⟩
    refine ⟨hne, ?_⟩
    intro hdigits
    exact ⟨_, h _ (stringToNumber_of_digits hdigits)⟩

instance : DecidablePred CanonicalComponent := fun str =>
  decidable_of_iff'
    (str ≠ "" ∧
      (stringToNumber str).all
        (fun i => decide (i < sizeTMax ∧ str = stdToString i)) = true) (by
    rw [canonicalComponent_iff, Option.all_eq_true]
    simp)

end AgencyNode
