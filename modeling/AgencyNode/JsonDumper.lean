import AgencyNode.JsonGrammar
import AgencyNode.Lib.Utf8
import AgencyNode.Serialization

/-!
# velocypack::Dumper

The dumper writes the bytes of a text, with the default options.  It decides by
the first byte of a character how many bytes to pass through.  For the values of
`Json`, whose strings are UTF-8, it writes the text of `Json.text`, and the parser
reads the value back from it, or it throws at a number that is not finite.
-/

namespace AgencyNode

open Lib
open FlatStore (bytes)
open Utf8 (encode)

namespace Dumper

/-! ## Strings -/

/-- `EscapeTable`, below 0x80. -/
def escapeTable (c : UInt8) : UInt8 :=
  if c < 0x20 then
    if c == 0x08 then 0x62
    else if c == 0x09 then 0x74
    else if c == 0x0a then 0x6e
    else if c == 0x0c then 0x66
    else if c == 0x0d then 0x72
    else 0x75
  else if c == 0x22 || c == 0x2f || c == 0x5c then c
  else 0

/-- A digit of a `\u00XX` escape. -/
def hexByte (i : UInt8) : UInt8 :=
  if i < 10 then 0x30 + i else 0x41 + i - 10

/-- What `dumpString` writes for a byte below 0x80. -/
def dumpByte (c : UInt8) : Text :=
  let esc := escapeTable c
  if esc != 0 then
    (if c != 0x2f then [0x5c] else []) ++ esc ::
      (if esc == 0x75 then [0x30, 0x30, hexByte (c / 16), hexByte (c % 16)] else [])
  else [c]

/-- `dumpString`; `none` is the exception `InvalidUtf8Sequence`. -/
def dumpString : Text → Option Text
  | [] => some []
  | c :: p =>
      if c &&& 0x80 == 0 then (dumpString p).map (dumpByte c ++ ·)
      else if c &&& 0xe0 == 0xc0 then
        match p with
        | c1 :: p => (dumpString p).map ([c, c1] ++ ·)
        | _ => none
      else if c &&& 0xf0 == 0xe0 then
        match p with
        | c1 :: c2 :: p => (dumpString p).map ([c, c1, c2] ++ ·)
        | _ => none
      else if c &&& 0xf8 == 0xf0 then
        match p with
        | c1 :: c2 :: c3 :: p => (dumpString p).map ([c, c1, c2, c3] ++ ·)
        | _ => none
      -- a byte that cannot begin a character is dropped
      else dumpString p

/-- The case of a string in `dumpValue`. -/
def dumpQuoted (value : String) : Option Text :=
  (dumpString (bytes value)).map fun t => 0x22 :: (t ++ [0x22])

/-! ## Values -/

section Values

variable {D : Type} [Double D]

mutual

/--
`dumpValue`; the members of an object are in the order of the iterator.  The
exception at a number that is not finite is `NoJsonEquivalent`.
-/
def dumpValue : Json D → Option Text
  | .null => some (bytes "null")
  | .bool true => some (bytes "true")
  | .bool false => some (bytes "false")
  | .number value =>
      if Double.isFinite value then some (bytes (Double.dump value)) else none
  | .string value => dumpQuoted value
  | .array elements => (dumpElements true elements).map fun t => 0x5b :: (t ++ [0x5d])
  | .object members => (dumpMembers true members).map fun t => 0x7b :: (t ++ [0x7d])

/-- The loop over an array; `isFirst` is that of the iterator. -/
def dumpElements (isFirst : Bool) : List (Json D) → Option Text
  | [] => some []
  | element :: elements => do
      let t ← dumpValue element
      let behind ← dumpElements false elements
      return (if !isFirst then [0x2c] else []) ++ (t ++ behind)

/-- The loop over an object. -/
def dumpMembers (isFirst : Bool) : List (String × Json D) → Option Text
  | [] => some []
  | (key, value) :: members => do
      let k ← dumpQuoted key
      let t ← dumpValue value
      let behind ← dumpMembers false members
      return (if !isFirst then [0x2c] else []) ++ (k ++ 0x3a :: (t ++ behind))

end

end Values

/-! ## The text of `Json.text` -/

theorem bytes_eq
    (s : String) :
    bytes s = encode s.toList :=
  Utf8.toUTF8_toList s

theorem bytes_ofList
    (l : List Char) :
    bytes (String.ofList l) = encode l := by
  rw [bytes_eq, String.toList_ofList]

theorem bytes_append
    (s s' : String) :
    bytes (s ++ s') = bytes s ++ bytes s' := by
  rw [bytes_eq, bytes_eq, bytes_eq, String.toList_append, Utf8.encode_append]

/-- The characters below 0x80 are the bytes below 0x80. -/
theorem encode_dumpChar_ascii :
    ∀ n < 0x80,
      String.utf8EncodeChar (Char.ofNat n) = [UInt8.ofNat n] ∧
        encode (Json.dumpChar (Char.ofNat n)) = dumpByte (UInt8.ofNat n) := by
  decide +kernel

theorem dumpString_one
    {a : UInt8}
    (ha : a < 0x80)
    (p : Text) :
    dumpString (a :: p) = (dumpString p).map (dumpByte a ++ ·) := by
  have hall : ∀ n < 256, UInt8.ofNat n < 0x80 → (UInt8.ofNat n &&& 0x80 == 0) = true := by
    decide +kernel
  have hbyte := Utf8.forall_byte (p := fun b => b < 0x80 → (b &&& 0x80 == 0) = true) hall a ha
  rw [dumpString.eq_def]
  exact if_pos hbyte

theorem dumpString_shape
    {b : Text}
    (h : Utf8.Shape b)
    (hlong : 1 < b.length)
    (p : Text) :
    dumpString (b ++ p) = (dumpString p).map (b ++ ·) := by
  -- the masks of the first byte exclude each other
  have hmasks : ∀ n < 256,
      (UInt8.ofNat n &&& 0xe0 = 0xc0 → (UInt8.ofNat n &&& 0x80 == 0) = false) ∧
      (UInt8.ofNat n &&& 0xf0 = 0xe0 → (UInt8.ofNat n &&& 0x80 == 0) = false ∧
        (UInt8.ofNat n &&& 0xe0 == 0xc0) = false) ∧
      (UInt8.ofNat n &&& 0xf8 = 0xf0 → (UInt8.ofNat n &&& 0x80 == 0) = false ∧
        (UInt8.ofNat n &&& 0xe0 == 0xc0) = false ∧
        (UInt8.ofNat n &&& 0xf0 == 0xe0) = false) := by
    decide +kernel
  have hmask := Utf8.forall_byte (p := fun a =>
    (a &&& 0xe0 = 0xc0 → (a &&& 0x80 == 0) = false) ∧
    (a &&& 0xf0 = 0xe0 → (a &&& 0x80 == 0) = false ∧ (a &&& 0xe0 == 0xc0) = false) ∧
    (a &&& 0xf8 = 0xf0 → (a &&& 0x80 == 0) = false ∧ (a &&& 0xe0 == 0xc0) = false ∧
      (a &&& 0xf0 == 0xe0) = false)) hmasks
  cases h with
  | one _ => exact absurd hlong (by simp)
  | @two a b ha _ =>
      have h1 := (hmask a).1 ha
      rw [dumpString.eq_def]
      simp [h1, ha]
  | @three a b c ha _ _ =>
      obtain ⟨h1, h2⟩ := (hmask a).2.1 ha
      rw [dumpString.eq_def]
      simp [h1, h2, ha]
  | @four a b c d ha _ _ _ =>
      obtain ⟨h1, h2, h3⟩ := (hmask a).2.2 ha
      rw [dumpString.eq_def]
      simp [h1, h2, h3, ha]

theorem dumpChar_of_le
    {c : Char}
    (hc : 0x80 ≤ c.toNat) :
    Json.dumpChar c = [c] := by
  have hne : ∀ d : Char, d.toNat < 0x80 → c ≠ d := by
    rintro d hd rfl
    omega
  rw [Json.dumpChar, if_neg (hne _ (by decide)), if_neg (hne _ (by decide)),
    if_neg (by omega), if_neg (by omega), if_neg (by omega), if_neg (by omega),
    if_neg (by omega), if_neg (by omega)]

theorem one_lt_length_utf8EncodeChar
    {c : Char}
    (hc : 0x80 ≤ c.toNat) :
    1 < (String.utf8EncodeChar c).length := by
  rw [String.length_utf8EncodeChar]
  have hone : c.utf8Size ≠ 1 := by
    intro h
    have hval := UInt32.le_iff_toNat_le.mp (Char.utf8Size_eq_one_iff.mp h)
    change c.toNat ≤ 127 at hval
    omega
  have := c.utf8Size_pos
  omega

theorem dumpString_utf8EncodeChar
    (c : Char)
    (p : Text) :
    dumpString (String.utf8EncodeChar c ++ p) =
      (dumpString p).map (encode (Json.dumpChar c) ++ ·) := by
  by_cases hc : c.toNat < 0x80
  · obtain ⟨hencode, hdump⟩ := encode_dumpChar_ascii c.toNat hc
    rw [Char.ofNat_toNat] at hencode hdump
    have hbyte : UInt8.ofNat c.toNat < 0x80 := by
      rw [UInt8.lt_iff_toNat_lt, UInt8.toNat_ofNat']
      change c.toNat % 256 < 128
      omega
    rw [hencode, hdump, List.singleton_append, dumpString_one hbyte]
  · rw [dumpChar_of_le (Nat.not_lt.mp hc), Utf8.encode_cons, Utf8.encode_nil,
      List.append_nil]
    exact dumpString_shape (Utf8.shape_utf8EncodeChar c)
      (one_lt_length_utf8EncodeChar (Nat.not_lt.mp hc)) p

/-- A string in UTF-8 does not raise `InvalidUtf8Sequence`. -/
theorem dumpString_encode
    (l : List Char) :
    dumpString (encode l) = some (encode (l.flatMap Json.dumpChar)) := by
  induction l with
  | nil => rfl
  | cons c l ih =>
      rw [Utf8.encode_cons, dumpString_utf8EncodeChar, ih, List.flatMap_cons,
        Utf8.encode_append]
      rfl

theorem dumpQuoted_eq
    (value : String) :
    dumpQuoted value = some (bytes (Json.dumpString value)) := by
  rw [dumpQuoted, bytes_eq value, dumpString_encode, Json.dumpString, bytes_append,
    bytes_append, bytes_ofList, bytes_ofList]
  rfl

/-! ## Values -/

/-- A comma stands before each text but the first. -/
theorem bytes_intercalate
    (t : String)
    (ts : List String) :
    bytes (",".intercalate (t :: ts)) =
      bytes t ++ ts.flatMap fun t => 0x2c :: bytes t := by
  induction ts generalizing t with
  | nil => rw [String.intercalate_singleton, List.flatMap_nil, List.append_nil]
  | cons t' ts ih =>
      rw [String.intercalate_cons_cons, bytes_append, bytes_append, ih, bytes_ofList,
        List.append_assoc, List.flatMap_cons]
      rfl

section Values

variable {D : Type} [Double D]

/-- The dumper writes the texts, and a comma before each but the first. -/
def joined (isFirst : Bool) (ts : List String) : Text :=
  if isFirst then bytes (",".intercalate ts) else ts.flatMap fun t => 0x2c :: bytes t

theorem joined_nil
    (isFirst : Bool) :
    joined isFirst [] = [] := by
  cases isFirst with
  | false => rfl
  | true => exact bytes_eq ""

theorem joined_cons
    (isFirst : Bool)
    (t : String)
    (ts : List String) :
    joined isFirst (t :: ts) =
      (if !isFirst then [0x2c] else []) ++ (bytes t ++ joined false ts) := by
  cases isFirst with
  | false => rfl
  | true => exact bytes_intercalate t ts

theorem joined_true
    (t : String)
    (ts : List String) :
    joined true (t :: ts) = bytes t ++ joined false ts :=
  joined_cons true t ts

theorem joined_false
    (t : String)
    (ts : List String) :
    joined false (t :: ts) = 0x2c :: joined true (t :: ts) := by
  rw [joined_cons, joined_cons]
  rfl

theorem dumpElements_eq
    {elements : List (Json D)}
    (h : ∀ s ∈ elements,
      dumpValue s = if s.isFinite then some (bytes s.text) else none)
    (isFirst : Bool) :
    dumpElements isFirst elements =
      if Json.isFiniteElements elements
      then some (joined isFirst (Json.textElements elements)) else none := by
  induction elements generalizing isFirst with
  | nil =>
      rw [dumpElements, Json.textElements, joined_nil]
      rfl
  | cons s elements ih =>
      rw [dumpElements, h s List.mem_cons_self, Json.textElements, joined_cons,
        Json.isFiniteElements, ih (fun s hs => h s (List.mem_cons_of_mem _ hs)) false]
      cases s.isFinite with
      | false => rfl
      | true => cases Json.isFiniteElements elements <;> rfl

theorem dumpMembers_eq
    {members : List (String × Json D)}
    (h : ∀ member ∈ members,
      dumpValue member.2 = if member.2.isFinite then some (bytes member.2.text) else none)
    (isFirst : Bool) :
    dumpMembers isFirst members =
      if Json.isFiniteMembers members
      then some (joined isFirst (Json.textMembers members)) else none := by
  induction members generalizing isFirst with
  | nil =>
      rw [dumpMembers, Json.textMembers, joined_nil]
      rfl
  | cons member members ih =>
      obtain ⟨key, value⟩ := member
      have hvalue : dumpValue value = if value.isFinite then some (bytes value.text) else none :=
        h _ List.mem_cons_self
      rw [dumpMembers, dumpQuoted_eq, hvalue, Json.textMembers, joined_cons,
        Json.isFiniteMembers, ih (fun s hs => h s (List.mem_cons_of_mem _ hs)) false,
        bytes_append, bytes_append, bytes_ofList, List.append_assoc, List.append_assoc]
      cases value.isFinite with
      | false => rfl
      | true => cases Json.isFiniteMembers members <;> rfl

/--
The dumper writes the bytes of the text `Json.text`, and throws when a number is not
finite.
-/
theorem dumpValue_eq
    (s : Json D) :
    dumpValue s = if s.isFinite then some (bytes s.text) else none := by
  induction s using Json.induction with
  | null => rfl
  | bool value => cases value <;> rfl
  | number value => rfl
  | string value => exact dumpQuoted_eq value
  | array elements ih =>
      rw [dumpValue, dumpElements_eq ih, Json.text, bytes_append, bytes_append,
        bytes_ofList, bytes_ofList, Json.isFinite]
      cases Json.isFiniteElements elements <;> rfl
  | object members ih =>
      rw [dumpValue, dumpMembers_eq ih, Json.text, bytes_append, bytes_append,
        bytes_ofList, bytes_ofList, Json.isFinite]
      cases Json.isFiniteMembers members <;> rfl

/-- `Json.dump` gives what the dumper writes. -/
theorem dumpValue_eq_dump
    (s : Json D) :
    dumpValue s = s.dump.toOption.map bytes := by
  rw [dumpValue_eq, Json.dump]
  cases s.isFinite <;> rfl

end Values

end Dumper

end AgencyNode
