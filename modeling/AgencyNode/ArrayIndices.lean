import AgencyNode.NodeContainer

/-!
# Path components as array indices

An array takes a path component for the index that `string_to_number` reads.
Where the component is the decimal form of a number below `2 ^ 64 - 1`, this is
the number.  The empty string is read as zero, longer numerals are read modulo
`2 ^ 64`, and with the index `2 ^ 64 - 1` the padding loop never ends.
-/

namespace AgencyNode

open Lib

variable {D : Type}

/-- The number whose decimal form the string is, if it is made of digits. -/
def decimalValue (key : String) : Nat :=
  Nat.ofDigitChars 10 key.toList 0

/-- A non-empty string of decimal digits. -/
def IsDecimal (key : String) : Prop :=
  key ≠ "" ∧ AllDigits key

theorem stringToNumber_eq_some_iff
    {key : String}
    {i : Nat} :
    stringToNumber key = some i ↔
      AllDigits key ∧ i = decimalValue key % sizeTModulus := by
  constructor
  · intro h
    have hdigits : AllDigits key := isDigit_of_stringToNumberLoop h
    rw [stringToNumber_of_digits hdigits, Option.some.injEq] at h
    exact ⟨hdigits, h.symm⟩
  · rintro ⟨hdigits, rfl⟩
    exact stringToNumber_of_digits hdigits

namespace NodeArray

/-! ## Reading and writing an index -/

theorem getImpl_eq_some
    {a : NodeArray D}
    {key : String}
    {i : Nat}
    (hkey : stringToNumber key = some i)
    (hi : i < sizeTMax)
    {n : Node D}
    (h : getImpl a key = some n) :
    a[i]? = some (some n) := by
  rw [getImpl_of_index hkey hi, List.getD_eq_getElem?_getD] at h
  cases helement : a[i]? with
  | none =>
      rw [helement] at h
      cases h
  | some element =>
      rw [helement] at h
      exact congrArg some h

/-- The array that a write of the index leaves behind. -/
theorem setImpl_of_index
    {a : NodeArray D}
    {key : String}
    {i : Nat}
    (hkey : stringToNumber key = some i)
    (hi : i < sizeTMax)
    (v : NodePtr D) :
    setImpl a key v = .ok (some (.array ((padTo .null a (i + 1)).set i v))) := by
  have hpad := padLoop_eq hi (i + 1) a (by omega)
  simp only [setImpl, hkey, hpad]
  rfl

/-! ## The contract of an index -/

/--
A key addresses an element of the array only if it is the decimal index of the
element; writing there changes this element only.
-/
structure AddressedByDecimalIndex (a : NodeArray D) (key : String) : Prop where
  /-- `string_to_number` reads the decimal numbers of the type. -/
  number : ∀ i, stringToNumber key = some i ↔
    IsDecimal key ∧ decimalValue key < sizeTModulus ∧ i = decimalValue key
  /-- What is found is the element at the decimal index. -/
  get : ∀ n, getImpl a key = some n →
    IsDecimal key ∧ a[decimalValue key]? = some (some n)
  /-- What is written is the element at the decimal index. -/
  set : ∀ v, (stringToNumber key).isSome →
    ∃ b, setImpl a key v = .ok (some (.array b)) ∧
      b.length = max a.length (decimalValue key + 1) ∧
        b[decimalValue key]? = some v ∧
          ∀ j, j < a.length → j ≠ decimalValue key → b[j]? = a[j]?

theorem AddressedByDecimalIndex.ne_empty
    {a : NodeArray D}
    {key : String}
    (h : a.AddressedByDecimalIndex key) :
    key ≠ "" := by
  rintro rfl
  exact ((h.number 0).mp rfl).1.1 rfl

theorem AddressedByDecimalIndex.lt
    {a : NodeArray D}
    {key : String}
    (h : a.AddressedByDecimalIndex key)
    (hdigits : AllDigits key) :
    decimalValue key < sizeTMax := by
  have hkey := stringToNumber_of_digits hdigits
  obtain ⟨_, hlt, _⟩ := (h.number _).mp hkey
  have hmod : decimalValue key % sizeTModulus = decimalValue key :=
    Nat.mod_eq_of_lt hlt
  have hne : decimalValue key ≠ sizeTMax := by
    intro hmax
    obtain ⟨b, hset, _⟩ := h.set none (by rw [hkey]; rfl)
    have hindex : stringToNumber key = some sizeTMax := by
      rw [hkey, ← hmax, ← hmod]
      rfl
    simp [setImpl, hindex, padLoop_sizeTMax] at hset
  simp only [sizeTModulus, sizeTMax] at hlt hne ⊢
  omega

/--
**A key addresses by its decimal index** unless it is empty or a numeral from
`2 ^ 64 - 1` on.
-/
theorem addressedByDecimalIndex_iff
    (a : NodeArray D)
    (key : String) :
    a.AddressedByDecimalIndex key ↔
      key ≠ "" ∧ (AllDigits key → decimalValue key < sizeTMax) := by
  constructor
  · intro h
    exact ⟨h.ne_empty, h.lt⟩
  · rintro ⟨hne, hlt⟩
    have hnumber : ∀ i, stringToNumber key = some i ↔
        IsDecimal key ∧ decimalValue key < sizeTModulus ∧ i = decimalValue key := by
      intro i
      rw [stringToNumber_eq_some_iff]
      constructor
      · rintro ⟨hdigits, rfl⟩
        have hsize : decimalValue key < sizeTModulus :=
          Nat.lt_trans (hlt hdigits) (by decide)
        exact ⟨⟨hne, hdigits⟩, hsize, Nat.mod_eq_of_lt hsize⟩
      · rintro ⟨⟨_, hdigits⟩, hsize, rfl⟩
        exact ⟨hdigits, (Nat.mod_eq_of_lt hsize).symm⟩
    refine ⟨hnumber, ?_, ?_⟩
    · intro n hget
      cases hkey : stringToNumber key with
      | none =>
          rw [getImpl_of_none hkey] at hget
          cases hget
      | some i =>
          obtain ⟨hdecimal, _, rfl⟩ := (hnumber i).mp hkey
          exact ⟨hdecimal, getImpl_eq_some hkey (hlt hdecimal.2) hget⟩
    · intro v haccepted
      obtain ⟨i, hkey⟩ := Option.isSome_iff_exists.mp haccepted
      obtain ⟨hdecimal, _, rfl⟩ := (hnumber i).mp hkey
      refine ⟨_, setImpl_of_index hkey (hlt hdecimal.2) v, ?_, ?_, ?_⟩
      · rw [List.length_set, length_padTo]
      · rw [getElem?_write, if_pos rfl]
      · intro j hj hne
        rw [getElem?_write, if_neg hne, if_pos hj]

/-- The numeral of `2 ^ 64` addresses the first element. -/
theorem addressedByDecimalIndex_modulus :
    ¬ NodeArray.AddressedByDecimalIndex
      [some (.bool true : Node Int)] "18446744073709551616" := by
  intro h
  have hget : getImpl [some (.bool true : Node Int)] "18446744073709551616" =
      some (.bool true) := by rfl
  obtain ⟨_, helement⟩ := h.get _ hget
  have hnone : [some (Node.bool true : Node Int)][
      decimalValue "18446744073709551616"]? = none := by
    apply List.getElem?_eq_none
    decide
  rw [hnone] at helement
  cases helement

end NodeArray

end AgencyNode
