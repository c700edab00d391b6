import Mathlib.Data.List.Basic

/-!
# UTF-8, byte by byte

Programs that pass UTF-8 through look at the first byte of a character only: it
says how many bytes follow.  `Shape` is what such a program relies on.  A byte
below 0x80 is a character of its own, and all bytes of a longer character are at
least 0x80.
-/

namespace AgencyNode
namespace Lib
namespace Utf8

/-- The bytes of some characters. -/
def encode (l : List Char) : List UInt8 :=
  l.flatMap String.utf8EncodeChar

@[simp] theorem encode_nil :
    encode [] = [] := by
  rfl

theorem encode_cons
    (c : Char)
    (l : List Char) :
    encode (c :: l) = String.utf8EncodeChar c ++ encode l := by
  rfl

theorem encode_append
    (l l' : List Char) :
    encode (l ++ l') = encode l ++ encode l' :=
  List.flatMap_append

theorem byteArray_toList_loop
    (b : ByteArray)
    (i : Nat)
    (r : List UInt8) :
    ByteArray.toList.loop b i r = r.reverse ++ b.data.toList.drop i := by
  induction hn : b.size - i generalizing i r with
  | zero =>
      have hsize : ¬ i < b.size := by omega
      have hdrop : b.data.toList.drop i = [] := by
        apply List.drop_of_length_le
        rw [Array.length_toList, ByteArray.size_data]
        omega
      rw [ByteArray.toList.loop, if_neg hsize, hdrop, List.append_nil]
  | succ n ih =>
      have hsize : i < b.size := by omega
      have hlength : i < b.data.toList.length := by
        rw [Array.length_toList, ByteArray.size_data]
        exact hsize
      have hget : b.get! i = b.data.toList[i] := by
        have hdata : i < b.data.size := by rwa [ByteArray.size_data]
        rw [Array.getElem_toList]
        exact getElem!_pos b.data i hdata
      rw [ByteArray.toList.loop, if_pos hsize, ih (i + 1) _ (by omega),
        List.drop_eq_getElem_cons hlength, hget]
      simp

theorem byteArray_toList
    (b : ByteArray) :
    b.toList = b.data.toList := by
  rw [ByteArray.toList, byteArray_toList_loop]
  rfl

theorem toUTF8_toList
    (s : String) :
    s.toUTF8.toList = encode s.toList := by
  rw [byteArray_toList, String.toUTF8_eq_toByteArray, ← String.utf8Encode_toList,
    List.utf8Encode, List.toList_data_toByteArray]
  rfl

/-- The bytes of a string decode to the string. -/
theorem fromUTF8?_toUTF8
    (s : String) :
    String.fromUTF8? ⟨s.toUTF8.toList.toArray⟩ = some s := by
  have hbytes : (⟨s.toUTF8.toList.toArray⟩ : ByteArray) = s.toByteArray := by
    rw [byteArray_toList, Array.toArray_toList, String.toUTF8_eq_toByteArray]
  rw [hbytes, String.fromUTF8?, dif_pos s.isValidUTF8]
  rfl

theorem toUTF8_injective :
    Function.Injective fun s : String => s.toUTF8.toList := by
  intro s s' h
  have hs := fromUTF8?_toUTF8 s
  have hs' := fromUTF8?_toUTF8 s'
  have h : s.toUTF8.toList = s'.toUTF8.toList := h
  rw [h, hs'] at hs
  exact (Option.some.inj hs).symm

/-! ## The bytes of one character -/

/-- What the bytes of a character look like. -/
inductive Shape : List UInt8 → Prop
  | one
      {a : UInt8}
      (ha : a < 0x80) :
      Shape [a]
  | two
      {a b : UInt8}
      (ha : a &&& 0xe0 = 0xc0)
      (hb : 0x80 ≤ b) :
      Shape [a, b]
  | three
      {a b c : UInt8}
      (ha : a &&& 0xf0 = 0xe0)
      (hb : 0x80 ≤ b)
      (hc : 0x80 ≤ c) :
      Shape [a, b, c]
  | four
      {a b c d : UInt8}
      (ha : a &&& 0xf8 = 0xf0)
      (hb : 0x80 ≤ b)
      (hc : 0x80 ≤ c)
      (hd : 0x80 ≤ d) :
      Shape [a, b, c, d]

/-- A property of all bytes can be checked on the numbers below 256. -/
theorem forall_byte
    {p : UInt8 → Prop}
    (h : ∀ n < 256, p (UInt8.ofNat n))
    (b : UInt8) :
    p b := by
  have hb := h b.toNat b.toNat_lt
  rwa [UInt8.ofNat_toNat] at hb

theorem lead_two (b : UInt8) :
    (b &&& 0x1f ||| 0xc0) &&& 0xe0 = 0xc0 :=
  forall_byte (p := fun b => (b &&& 0x1f ||| 0xc0) &&& 0xe0 = 0xc0) (by decide +kernel) b

theorem lead_three (b : UInt8) :
    (b &&& 0x0f ||| 0xe0) &&& 0xf0 = 0xe0 :=
  forall_byte (p := fun b => (b &&& 0x0f ||| 0xe0) &&& 0xf0 = 0xe0) (by decide +kernel) b

theorem lead_four (b : UInt8) :
    (b &&& 0x07 ||| 0xf0) &&& 0xf8 = 0xf0 :=
  forall_byte (p := fun b => (b &&& 0x07 ||| 0xf0) &&& 0xf8 = 0xf0) (by decide +kernel) b

theorem continuation (b : UInt8) :
    0x80 ≤ (b &&& 0x3f ||| 0x80) :=
  forall_byte (p := fun b => 0x80 ≤ (b &&& 0x3f ||| 0x80)) (by decide +kernel) b

theorem le_of_lead :
    ∀ n < 256, (UInt8.ofNat n &&& 0xe0 = 0xc0 ∨ UInt8.ofNat n &&& 0xf0 = 0xe0 ∨
      UInt8.ofNat n &&& 0xf8 = 0xf0) → 0x80 ≤ UInt8.ofNat n := by
  decide +kernel

/-- No byte of a longer character is a character of its own. -/
theorem Shape.le_of_mem
    {l : List UInt8}
    (h : Shape l)
    (hlong : 1 < l.length)
    {b : UInt8}
    (hb : b ∈ l) :
    0x80 ≤ b := by
  have hlead := forall_byte (p := fun a =>
    (a &&& 0xe0 = 0xc0 ∨ a &&& 0xf0 = 0xe0 ∨ a &&& 0xf8 = 0xf0) → 0x80 ≤ a) le_of_lead
  cases h with
  | one _ => exact absurd hlong (by simp)
  | two ha hb' =>
      have ha' := hlead _ (.inl ha)
      simp only [List.mem_cons, List.not_mem_nil, or_false] at hb
      rcases hb with rfl | rfl <;> assumption
  | three ha hb' hc =>
      have ha' := hlead _ (.inr (.inl ha))
      simp only [List.mem_cons, List.not_mem_nil, or_false] at hb
      rcases hb with rfl | rfl | rfl <;> assumption
  | four ha hb' hc hd =>
      have ha' := hlead _ (.inr (.inr ha))
      simp only [List.mem_cons, List.not_mem_nil, or_false] at hb
      rcases hb with rfl | rfl | rfl | rfl <;> assumption

theorem shape_utf8EncodeChar (c : Char) :
    Shape (String.utf8EncodeChar c) := by
  rcases c.utf8Size_eq with h | h | h | h
  · rw [String.utf8EncodeChar_eq_singleton h]
    have hval := UInt32.le_iff_toNat_le.mp (Char.utf8Size_eq_one_iff.mp h)
    apply Shape.one
    rw [UInt8.lt_iff_toNat_lt, UInt32.toNat_toUInt8]
    change c.val.toNat % 256 < 128
    change c.val.toNat ≤ 127 at hval
    omega
  · rw [String.utf8EncodeChar_eq_cons_cons h]
    exact .two (lead_two _) (continuation _)
  · rw [String.utf8EncodeChar_eq_cons_cons_cons h]
    exact .three (lead_three _) (continuation _) (continuation _)
  · rw [String.utf8EncodeChar_eq_cons_cons_cons_cons h]
    exact .four (lead_four _) (continuation _) (continuation _) (continuation _)

end Utf8
end Lib
end AgencyNode
