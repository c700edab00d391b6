import AgencyNode.VPackWriting

/-!
# Reading what has been written

What the accessors of a slice read in memory that starts with known bytes.
Anything may follow the bytes of the value.
-/

namespace AgencyNode
namespace VPack

open Lib Lib.ByteIntegers Lib.Frames

theorem toNat_ofNat_of_lt
    {n : Nat}
    (h : n < 2 ^ 64) :
    (UInt64.ofNat n).toNat = n := by
  rw [UInt64.toNat_ofNat']
  exact Nat.mod_eq_of_lt h

theorem ofNat_lt_ofNat
    {m n : Nat}
    (hm : m < 2 ^ 64)
    (hn : n < 2 ^ 64) :
    UInt64.ofNat m < UInt64.ofNat n ↔ m < n := by
  rw [UInt64.lt_iff_toNat_lt, toNat_ofNat_of_lt hm, toNat_ofNat_of_lt hn]

theorem ofNat_add_one
    (n : Nat) :
    UInt64.ofNat n + 1 = UInt64.ofNat (n + 1) := by
  rw [UInt64.ofNat_add]
  rfl

/-! ### Bytes and integers -/

theorem byteAt_append
    {front : Memory}
    {b : UInt8}
    {t : Memory}
    {offset : ValueLength}
    (h : offset.toNat = front.length) :
    byteAt (front ++ b :: t) offset = .ok b := by
  rw [byteAt, h, List.getElem?_append_right (Nat.le_refl _), Nat.sub_self]
  rfl

theorem bytesAt_append
    {front part : Memory}
    {t : Memory}
    {offset : ValueLength}
    {length : Nat}
    (h : offset.toNat = front.length)
    (hlength : length = part.length) :
    bytesAt (front ++ (part ++ t)) offset length = .ok part := by
  rw [bytesAt, h, hlength, List.drop_left, List.take_left, if_pos]
  rw [List.length_append, List.length_append]
  omega

theorem readInteger_append
    {front : Memory}
    {w x : Nat}
    {t : Memory}
    {offset length : ValueLength}
    (h : offset.toNat = front.length)
    (hlength : length.toNat = w)
    (hx : x < 256 ^ w) :
    readInteger (front ++ (littleEndian w x ++ t)) offset length = .ok (UInt64.ofNat x) := by
  have hread := bytesAt_append (t := t) h (hlength.trans (length_littleEndian w x).symm)
  rw [readInteger, hread]
  exact congrArg (fun y => Except.ok (UInt64.ofNat y)) (ofLittleEndian_littleEndian hx)

theorem advance_append
    {front : Memory}
    {t : Memory}
    {offset : ValueLength}
    (h : offset.toNat = front.length) :
    Slice.advance (front ++ t) offset = t := by
  rw [Slice.advance, h, List.drop_left]

theorem readVariableValueLength_append
    {front : Memory}
    (x : Nat)
    {t : Memory}
    {offset : ValueLength}
    (h : offset.toNat = front.length) :
    readVariableValueLength (front ++ (leb x ++ t)) offset = .ok (UInt64.ofNat x) := by
  rw [readVariableValueLength, h, List.drop_left, readGroups, readLeb_leb]

theorem readVariableValueLengthReverse_append
    {front : Memory}
    (x : Nat)
    {t : Memory}
    {offset : ValueLength}
    (h : offset.toNat + 1 = front.length + (leb x).length) :
    readVariableValueLengthReverse (front ++ ((leb x).reverse ++ t)) offset =
      .ok (UInt64.ofNat x) := by
  have htake : (front ++ ((leb x).reverse ++ t)).take (offset.toNat + 1) =
      front ++ (leb x).reverse := by
    rw [← List.append_assoc, List.take_left']
    rw [h, List.length_append, List.length_reverse]
  rw [readVariableValueLengthReverse, if_pos, htake, List.reverse_append,
    List.reverse_reverse, readGroups, readLeb_leb]
  rw [List.length_append, List.length_append, List.length_reverse]
  omega

/-! ### Strings -/

theorem stringData_ne_nil
    (name : Memory) :
    stringData name ≠ [] := by
  rw [stringData]
  split
  · exact List.cons_ne_nil _ _
  · exact List.cons_ne_nil _ _

/-- The two forms of a string. -/
theorem stringData_cases
    (name : Memory) :
    (∃ b : UInt8, b.toNat = 0x40 + name.length ∧ name.length ≤ 126 ∧
      stringData name = b :: name) ∨
    126 < name.length ∧
      stringData name = 0xbf :: (littleEndian 8 name.length ++ name) := by
  rw [stringData]
  by_cases h : name.length ≤ 126
  · left
    refine ⟨UInt8.ofNat (0x40 + name.length), ?_, h, if_pos h⟩
    rw [UInt8.toNat_ofNat']
    omega
  · right
    exact ⟨by omega, if_neg h⟩

theorem typeMap_string
    {h : UInt8}
    (hlow : 0x40 ≤ h.toNat)
    (hhigh : h.toNat ≤ 0xbf) :
    typeMap h = .string := by
  simp only [typeMap, UInt8.le_iff_toNat_le, ← UInt8.toNat_inj, UInt8.reduceToNat]
  simp (disch := omega) only [if_neg, if_pos]

theorem fixedTypeLengths_string
    {h : UInt8}
    (hlow : 0x40 ≤ h.toNat)
    (hhigh : h.toNat ≤ 0xbe) :
    fixedTypeLengths h = h.toNat - 0x40 + 1 := by
  simp only [fixedTypeLengths, UInt8.le_iff_toNat_le, ← UInt8.toNat_inj, UInt8.reduceToNat]
  simp (disch := omega) only [if_neg, if_pos]

section Strings

variable {name : Memory} (t : Memory)

variable (name) in
theorem head_stringData :
    ∃ h : UInt8, Slice.head (stringData name ++ t) = .ok h ∧ typeMap h = .string ∧ h ≠ 0 := by
  obtain ⟨b, hb, hle, hdata⟩ | ⟨_, hdata⟩ := stringData_cases name
  · refine ⟨b, ?_, typeMap_string (by omega) (by omega), ?_⟩
    · rw [hdata]
      rfl
    · rintro rfl
      rw [UInt8.toNat_zero] at hb
      omega
  · refine ⟨0xbf, ?_, by decide, by decide⟩
    rw [hdata]
    rfl

theorem length_stringData_le
    (name : Memory) :
    name.length < (stringData name).length := by
  obtain ⟨b, _, _, hdata⟩ | ⟨_, hdata⟩ := stringData_cases name
  · rw [hdata, List.length_cons]
    omega
  · rw [hdata, List.length_cons, List.length_append, length_littleEndian]
    omega

theorem isString_stringData :
    Slice.isString (stringData name ++ t) = .ok true := by
  obtain ⟨h, hhead, htype, _⟩ := head_stringData name t
  simp [Slice.isString, Slice.isType, hhead, htype]

theorem makeKey_stringData :
    Slice.makeKey (stringData name ++ t) = .ok (stringData name ++ t) := by
  obtain ⟨h, hhead, htype, _⟩ := head_stringData name t
  simp [Slice.makeKey, hhead, htype]

section Bounded

variable (hname : (stringData name).length < 2 ^ 64)

include hname

theorem readInteger_longString
    (h : 126 < name.length) :
    readInteger (stringData name ++ t) 1 8 = .ok (UInt64.ofNat name.length) := by
  have hlt := length_stringData_le name
  have hdata : stringData name ++ t =
      [0xbf] ++ (littleEndian 8 name.length ++ (name ++ t)) := by
    rw [stringData, if_neg (by omega)]
    simp
  rw [hdata]
  exact readInteger_append rfl rfl (by omega)

theorem byteSize_stringData :
    Slice.byteSize (stringData name ++ t) = .ok (UInt64.ofNat (stringData name).length) := by
  obtain ⟨b, hb, hle, hdata⟩ | ⟨hlt, hdata⟩ := stringData_cases name
  · have hfixed := fixedTypeLengths_string (h := b) (by omega) (by omega)
    have hhead : Slice.head (stringData name ++ t) = .ok b := by
      rw [hdata]
      rfl
    have hsize : fixedTypeLengths b = (stringData name).length := by
      rw [hfixed, hdata, List.length_cons]
      omega
    rw [Slice.byteSize, hhead]
    rw [Read.ok_bind, if_pos (by omega), hsize]
    rfl
  · have hhead : Slice.head (stringData name ++ t) = .ok 0xbf := by
      rw [hdata]
      rfl
    have hread := readInteger_longString t hname hlt
    have hsize : (stringData name).length = 1 + 8 + name.length := by
      rw [hdata, List.length_cons, List.length_append, length_littleEndian]
      omega
    have hvariable : Slice.variableByteSize (stringData name ++ t) 0xbf =
        (readInteger (stringData name ++ t) 1 8 >>= fun length => pure (1 + 8 + length)) := rfl
    rw [Slice.byteSize, hhead, Read.ok_bind, if_neg (by decide), hvariable, hread, hsize,
      UInt64.ofNat_add]
    rfl

theorem getStringUnchecked_stringData :
    Slice.getStringUnchecked (stringData name ++ t) = .ok name := by
  obtain ⟨b, hb, hle, hdata⟩ | ⟨hlt, hdata⟩ := stringData_cases name
  · have hhead : Slice.head (stringData name ++ t) = .ok b := by
      rw [hdata]
      rfl
    have hshort : (0x40 ≤ b && b ≤ 0xbe : Bool) = true := by
      simp only [UInt8.le_iff_toNat_le, hb, UInt8.reduceToNat, Bool.and_eq_true,
        decide_eq_true_eq]
      omega
    rw [Slice.getStringUnchecked, hhead, Read.ok_bind, if_pos hshort, hdata]
    have hassoc : b :: name ++ t = [b] ++ (name ++ t) := rfl
    rw [hassoc]
    exact bytesAt_append rfl (by omega)
  · have hhead : Slice.head (stringData name ++ t) = .ok 0xbf := by
      rw [hdata]
      rfl
    have hread := readInteger_longString t hname hlt
    have hlength := length_stringData_le name
    rw [Slice.getStringUnchecked, hhead, Read.ok_bind, if_neg (by decide), hread, Read.ok_bind,
      toNat_ofNat_of_lt (by omega), hdata]
    have hassoc : 0xbf :: (littleEndian 8 name.length ++ name) ++ t =
        (0xbf :: littleEndian 8 name.length) ++ (name ++ t) := by simp
    rw [hassoc]
    apply bytesAt_append _ rfl
    rw [List.length_cons, length_littleEndian]
    rfl

/-- On a string the check makes no difference. -/
theorem getString_stringData :
    Slice.getString (stringData name ++ t) = .ok name := by
  obtain ⟨h, hhead, htype, _⟩ := head_stringData name t
  rw [← getStringUnchecked_stringData t hname, Slice.getString, Slice.getStringUnchecked, hhead,
    Read.ok_bind, Read.ok_bind]
  obtain ⟨b, hb, hle, hdata⟩ | ⟨hlt, hdata⟩ := stringData_cases name
  · have heq : b = h := by
      rw [hdata] at hhead
      injection hhead
    subst heq
    have hshort : (0x40 ≤ b && b ≤ 0xbe : Bool) = true := by
      simp only [UInt8.le_iff_toNat_le, hb, UInt8.reduceToNat, Bool.and_eq_true,
        decide_eq_true_eq]
      omega
    rw [if_pos hshort, if_pos hshort]
  · have heq : 0xbf = h := by
      rw [hdata] at hhead
      injection hhead
    subst heq
    rfl

theorem behind_stringData :
    Slice.behind (stringData name ++ t) = .ok t := by
  rw [Slice.behind, byteSize_stringData t hname]
  exact congrArg Except.ok (advance_append (toNat_ofNat_of_lt hname))

end Bounded

end Strings

end VPack
end AgencyNode
