import AgencyNode.JsonDumper

/-!
# Values and their texts

The parser reads a dumped value back, whatever its strings are, if it reads the
numbers in it back.  What it returns is the `Document` of the value.
-/

namespace AgencyNode

open Lib
open FlatStore (bytes)
open Utf8 (encode)

/-! ## Documents of values -/

namespace Document

variable {D : Type}

mutual

/-- The document of a value, whose strings are UTF-8. -/
def ofJson : Json D → Document D
  | .null => .null
  | .bool value => .bool value
  | .number value => .number value
  | .string value => .string (bytes value)
  | .array elements => .array (ofJsonElements elements)
  | .object members => .object (ofJsonMembers members)

def ofJsonElements : List (Json D) → List (Document D)
  | [] => []
  | element :: elements => ofJson element :: ofJsonElements elements

def ofJsonMembers : List (String × Json D) → List (Text × Document D)
  | [] => []
  | member :: members => ofJsonMember member :: ofJsonMembers members

def ofJsonMember : String × Json D → Text × Document D
  | (key, value) => (bytes key, ofJson value)

end

mutual

/-- The value of a document, if its strings are UTF-8. -/
def toJson? : Document D → Option (Json D)
  | .null => some .null
  | .bool value => some (.bool value)
  | .number value => some (.number value)
  | .string value => (String.fromUTF8? ⟨value.toArray⟩).map .string
  | .array elements => (toJsonElements? elements).map .array
  | .object members => (toJsonMembers? members).map .object

def toJsonElements? : List (Document D) → Option (List (Json D))
  | [] => some []
  | element :: elements => do
      let element ← toJson? element
      let elements ← toJsonElements? elements
      return element :: elements

def toJsonMembers? : List (Text × Document D) → Option (List (String × Json D))
  | [] => some []
  | member :: members => do
      let member ← toJsonMember? member
      let members ← toJsonMembers? members
      return member :: members

def toJsonMember? : Text × Document D → Option (String × Json D)
  | (key, value) => do
      let key ← String.fromUTF8? ⟨key.toArray⟩
      let value ← toJson? value
      return (key, value)

end

theorem toJson?_ofJson
    (s : Json D) :
    (ofJson s).toJson? = some s := by
  induction s using Json.induction with
  | null => rfl
  | bool value => rfl
  | number value => rfl
  | string value =>
      rw [ofJson, toJson?, bytes, Utf8.fromUTF8?_toUTF8]
      rfl
  | array elements ih =>
      have helements : toJsonElements? (ofJsonElements elements) = some elements := by
        induction elements with
        | nil => rfl
        | cons element elements ih' =>
            rw [ofJsonElements, toJsonElements?, ih element List.mem_cons_self,
              ih' fun s hs => ih s (List.mem_cons_of_mem _ hs)]
            rfl
      rw [ofJson, toJson?, helements]
      rfl
  | object members ih =>
      have hmembers : toJsonMembers? (ofJsonMembers members) = some members := by
        induction members with
        | nil => rfl
        | cons member members ih' =>
            obtain ⟨key, value⟩ := member
            rw [ofJsonMembers, toJsonMembers?, ofJsonMember, toJsonMember?, bytes,
              Utf8.fromUTF8?_toUTF8, ih (key, value) List.mem_cons_self,
              ih' fun member hs => ih member (List.mem_cons_of_mem _ hs)]
            rfl
      rw [ofJson, toJson?, hmembers]
      rfl

end Document

namespace Parser

/-! ## Reading strings -/

theorem isPlain_of_le
    {b : UInt8}
    (hb : 0x80 ≤ b) :
    isPlain b = true := by
  have hall : ∀ n < 256, 0x80 ≤ UInt8.ofNat n → isPlain (UInt8.ofNat n) = true := by
    decide +kernel
  exact Utf8.forall_byte (p := fun b => 0x80 ≤ b → isPlain b = true) hall b hb

/-- The three forms in which the dumper writes a byte below 0x80. -/
theorem dumpByte_forms :
    ∀ n < 0x80,
      Dumper.dumpByte (UInt8.ofNat n) = [UInt8.ofNat n] ∧ isPlain (UInt8.ofNat n) = true ∨
      Dumper.dumpByte (UInt8.ofNat n) = [0x5c, Dumper.escapeTable (UInt8.ofNat n)] ∧
        escapedByte (Dumper.escapeTable (UInt8.ofNat n)) = some (UInt8.ofNat n) ∨
      Dumper.dumpByte (UInt8.ofNat n) =
          [0x5c, 0x75, 0x30, 0x30, Dumper.hexByte (UInt8.ofNat n / 16),
            Dumper.hexByte (UInt8.ofNat n % 16)] ∧
        hexValue (Dumper.hexByte (UInt8.ofNat n / 16)) = some (n / 16) ∧
        hexValue (Dumper.hexByte (UInt8.ofNat n % 16)) = some (n % 16) := by
  decide +kernel

/-- What the dumper writes for a byte below 0x80 stands for that byte. -/
theorem characters_dumpByte
    {n : Nat}
    (hn : n < 0x80)
    {t b t' : Text}
    (h : Characters t b t') :
    Characters (Dumper.dumpByte (UInt8.ofNat n) ++ t) (UInt8.ofNat n :: b) t' := by
  rcases dumpByte_forms n hn with ⟨hdump, hplain⟩ | ⟨hdump, hescape⟩ | ⟨hdump, hhigh, hlow⟩
  · rw [hdump]
    exact .plain hplain h
  · rw [hdump]
    exact .escape hescape h
  · have hnumber : hexNumber 0 [0x30, 0x30, Dumper.hexByte (UInt8.ofNat n / 16),
        Dumper.hexByte (UInt8.ofNat n % 16)] = some n := by
      have hzero : hexValue 0x30 = some 0 := by decide
      rw [hexNumber_cons, hzero, Option.bind_some, hexNumber_cons, hzero, Option.bind_some,
        hexNumber_cons, hhigh, Option.bind_some, hexNumber_cons, hlow, Option.bind_some]
      simp only [Nat.zero_mul, Nat.zero_add, Nat.div_add_mod']
      rfl
    have hlone : ¬ IsHigh n := fun hhigh => by
      have := hhigh.1
      omega
    have hread := Characters.unicode ⟨_, rfl, hnumber, rfl⟩ (absurd · hlone) h
    rw [encodeUnicode, if_pos hn] at hread
    rw [hdump]
    exact hread

theorem characters_plains
    {l : Text}
    (hl : ∀ i ∈ l, isPlain i = true)
    {t b t' : Text}
    (h : Characters t b t') :
    Characters (l ++ t) (l ++ b) t' := by
  induction l with
  | nil => exact h
  | cons i l ih =>
      exact .plain (hl i List.mem_cons_self) (ih fun j hj => hl j (List.mem_cons_of_mem _ hj))

theorem characters_dumpChar
    (c : Char)
    {t b t' : Text}
    (h : Characters t b t') :
    Characters (encode (Json.dumpChar c) ++ t) (String.utf8EncodeChar c ++ b) t' := by
  by_cases hc : c.toNat < 0x80
  · obtain ⟨hencode, hdump⟩ := Dumper.encode_dumpChar_ascii c.toNat hc
    rw [Char.ofNat_toNat] at hencode hdump
    rw [hencode, hdump]
    exact characters_dumpByte hc h
  · have hlong := Dumper.one_lt_length_utf8EncodeChar (Nat.not_lt.mp hc)
    rw [Dumper.dumpChar_of_le (Nat.not_lt.mp hc), Utf8.encode_cons, Utf8.encode_nil,
      List.append_nil]
    refine characters_plains (fun i hi => ?_) h
    exact isPlain_of_le ((Utf8.shape_utf8EncodeChar c).le_of_mem hlong hi)

theorem characters_dumpString
    (l : List Char)
    (t : Text) :
    Characters (encode (l.flatMap Json.dumpChar) ++ 0x22 :: t) (encode l) t := by
  induction l with
  | nil => exact .quote t
  | cons c l ih =>
      rw [List.flatMap_cons, Utf8.encode_append, List.append_assoc, Utf8.encode_cons]
      exact characters_dumpChar c ih

/-- A dumped string is a text of the string. -/
theorem characters_bytes_dumpString
    (value : String)
    (t : Text) :
    ∃ b, bytes (Json.dumpString value) = 0x22 :: b ∧ Characters (b ++ t) (bytes value) t := by
  refine ⟨encode (value.toList.flatMap Json.dumpChar) ++ [0x22], ?_, ?_⟩
  · rw [Json.dumpString, Dumper.bytes_append, Dumper.bytes_append, Dumper.bytes_ofList,
      Dumper.bytes_ofList]
    rfl
  · rw [List.append_assoc, List.singleton_append, Dumper.bytes_eq]
    exact characters_dumpString _ t

/-! ## Reading values -/

section Values

variable {D : Type} [ParserDouble D]

/-- What stands behind a value in a dumped text. -/
def Ends (t : Text) : Prop :=
  t = [] ∨ ∃ i t', t = i :: t' ∧ (i = 0x2c ∨ i = 0x5d ∨ i = 0x7d)

/-- The number has a text, from which the parser reads it back. -/
def Readable (value : D) : Prop :=
  Double.isFinite value = true ∧
    ∀ t, Ends t → parseNumber (bytes (Double.dump value) ++ t) = .ok (value, t)

theorem next_cons
    {i : UInt8}
    (hi : isWhiteSpace i = false)
    (t : Text) :
    Next i (i :: t) t :=
  List.dropWhile_cons_of_neg (by simp [hi])

theorem Readable.reads
    {value : D}
    (h : Readable value)
    {t : Text}
    (ht : Ends t) :
    Reads (bytes (Double.dump value) ++ t) (.value (.number value)) t := by
  have hparse := h.2 t ht
  obtain ⟨n, htext, hend, hvalue⟩ := parseNumber_eq_ok_iff.mp hparse
  obtain ⟨i, t', hcons, hi⟩ := n.head t
  have hblank : isWhiteSpace i = false := by
    rw [isWhiteSpace, Bool.or_eq_false_iff, Bool.or_eq_false_iff, Bool.or_eq_false_iff]
    refine ⟨⟨⟨?_, ?_⟩, ?_⟩, ?_⟩
    all_goals exact ne_of_number_head hi (by decide)
  refine .number (n := n) ?_ hend hvalue
  rw [htext, hcons]
  exact next_cons hblank t'

/-! ### Integers -/

theorem ends_not_digit
    {i : UInt8}
    {t : Text}
    (ht : Ends (i :: t)) :
    isDigit i = false ∧ (i == 0x2e) = false ∧ (i == 0x65 || i == 0x45) = false := by
  rcases ht with h | ⟨j, t', h, hj⟩
  · cases h
  · cases h
    rcases hj with rfl | rfl | rfl <;> decide

theorem utf8EncodeChar_of_isDigit
    {c : Char}
    (hc : c.isDigit = true) :
    String.utf8EncodeChar c = [UInt8.ofNat c.toNat] ∧ isDigit (UInt8.ofNat c.toNat) = true ∧
      digit (UInt8.ofNat c.toNat) = c.toNat - '0'.toNat := by
  have hall : ∀ n < 58, 48 ≤ n → String.utf8EncodeChar (Char.ofNat n) = [UInt8.ofNat n] ∧
      isDigit (UInt8.ofNat n) = true ∧ digit (UInt8.ofNat n) = n - '0'.toNat := by
    decide +kernel
  obtain ⟨hlow, hhigh⟩ := Char.isDigit_iff_toNat.mp hc
  have h := hall c.toNat (Nat.lt_succ_of_le hhigh) hlow
  rwa [Char.ofNat_toNat] at h

/-- Digits whose value fits into 64 bits are scanned to that value. -/
theorem scanDigits_encode
    {l : List Char}
    (hl : ∀ c ∈ l, c.isDigit = true)
    {a : Nat}
    (ha : Nat.ofDigitChars 10 l a < 2 ^ 64)
    (x : D)
    {t : Text}
    (ht : Ends t) :
    scanDigits ⟨a, x, true⟩ (encode l ++ t) =
      .ok (⟨Nat.ofDigitChars 10 l a, x, true⟩, t) := by
  induction l generalizing a with
  | nil =>
      rw [Utf8.encode_nil, List.nil_append, Nat.ofDigitChars_nil]
      cases t with
      | nil => rfl
      | cons i t =>
          rw [scanDigits, (ends_not_digit ht).1]
          rfl
  | cons c l ih =>
      obtain ⟨hencode, hdigit, hvalue⟩ := utf8EncodeChar_of_isDigit (hl c List.mem_cons_self)
      rw [Nat.ofDigitChars_cons] at ha ⊢
      -- the value only grows
      have hle : 10 * a + (c.toNat - '0'.toNat) ≤
          Nat.ofDigitChars 10 l (10 * a + (c.toNat - '0'.toNat)) := by
        rw [Nat.ofDigitChars_eq_ofDigitChars_zero]
        exact Nat.le_trans (Nat.le_mul_of_pos_left _ (Nat.pow_pos (by decide)))
          (Nat.le_add_right _ _)
      have hadd : (⟨a, x, true⟩ : ParsedNumber D).addDigit (UInt8.ofNat c.toNat) =
          .ok ⟨10 * a + (c.toNat - '0'.toNat), x, true⟩ := by
        rw [ParsedNumber.addDigit]
        simp only [hvalue, if_true]
        rw [if_pos (by omega), Nat.mul_comm a 10]
      rw [Utf8.encode_cons, hencode, List.append_assoc, List.singleton_append, scanDigits,
        if_pos hdigit, hadd, Result.ok_bind,
        ih (fun c hc => hl c (List.mem_cons_of_mem _ hc)) ha]

/-- A numeral but zero does not begin with the digit zero. -/
theorem toDigits_cons
    {n : Nat}
    (hn : 0 < n) :
    ∃ c l, Nat.toDigits 10 n = c :: l ∧ c ≠ '0' := by
  induction n using Nat.strongRecOn with
  | ind n ih =>
      by_cases hlt : n < 10
      · refine ⟨n.digitChar, [], Nat.toDigits_of_lt_base hlt, ?_⟩
        rw [Ne, Nat.digitChar_eq_zero]
        omega
      · obtain ⟨c, l, htail, hc⟩ := ih (n / 10) (by omega) (by omega)
        refine ⟨c, l ++ [(n % 10).digitChar], ?_, hc⟩
        rw [Nat.toDigits_of_base_le (by decide) (by omega), htail, List.cons_append]

theorem parseRest_ends
    {t : Text}
    (ht : Ends t)
    (start : Text)
    (negative : Bool)
    (value : ParsedNumber D) :
    parseRest start negative value t = .ok (addInteger negative value, t) := by
  cases t with
  | nil => rfl
  | cons i t =>
      obtain ⟨_, hpoint, hexponent⟩ := ends_not_digit ht
      rw [parseRest]
      simp only [hpoint, hexponent, Bool.false_eq_true, if_false]

/-- The digits of a number below `2 ^ 64`, from the first one on. -/
theorem scanInteger_toDigits
    {n : Nat}
    (hn : n < 2 ^ 64)
    {t : Text}
    (ht : Ends t) :
    ∃ i t', encode (Nat.toDigits 10 n) ++ t = i :: t' ∧ isDigit i = true ∧
      scanInteger i t' = .ok ((⟨n, Double.zero, true⟩ : ParsedNumber D), t) := by
  by_cases hpos : 0 < n
  · obtain ⟨c, l, hcons, hc⟩ := toDigits_cons hpos
    have hdigits : ∀ c ∈ Nat.toDigits 10 n, c.isDigit = true :=
      fun c hc => Nat.isDigit_of_mem_toDigits (by decide) (by decide) hc
    have hvalue : Nat.ofDigitChars 10 (Nat.toDigits 10 n) 0 = n :=
      Nat.ofDigitChars_ten_toDigits
    have hscan := scanDigits_encode hdigits (a := 0) (by rwa [hvalue]) (Double.zero : D) ht
    rw [hvalue] at hscan
    obtain ⟨hencode, hdigit, _⟩ :=
      utf8EncodeChar_of_isDigit (hdigits c (by rw [hcons]; exact List.mem_cons_self))
    refine ⟨UInt8.ofNat c.toNat, encode l ++ t, ?_, hdigit, ?_⟩
    · rw [hcons, Utf8.encode_cons, hencode, List.append_assoc, List.singleton_append]
    · rw [hcons, Utf8.encode_cons, hencode, List.append_assoc, List.singleton_append] at hscan
      have hne : (UInt8.ofNat c.toNat != 0x30) = true := by
        rw [bne_iff_ne]
        intro heq
        have hnat : c.toNat % 256 = 48 := by
          rw [← UInt8.toNat_ofNat', heq]
          rfl
        have hlt := (Char.isDigit_iff_toNat.mp
          (hdigits c (by rw [hcons]; exact List.mem_cons_self))).2
        change c.toNat ≤ 57 at hlt
        apply hc
        rw [← Char.ofNat_toNat c, show c.toNat = 48 by omega]
      rw [scanInteger, if_pos hne]
      exact hscan
  · obtain rfl : n = 0 := by omega
    exact ⟨0x30, t, rfl, rfl, rfl⟩

/--
An integer of 64 bits, signed or not, is read back if it is dumped as a numeral and
`static_cast` restores it.
-/
theorem readable_of_int
    {value : D}
    {i : Int}
    (hfinite : Double.isFinite value = true)
    (hmin : -2 ^ 63 ≤ i)
    (hmax : i < 2 ^ 64)
    (hdump : Double.dump value = Int.repr i)
    (hvalue : Double.ofInt i = value) :
    Readable value := by
  refine ⟨hfinite, fun t ht => ?_⟩
  rw [hdump, Int.repr_eq_if]
  by_cases hi : 0 ≤ i
  · obtain ⟨j, t', hcons, hj, hscan⟩ := scanInteger_toDigits (D := D) (n := i.toNat) (by omega) ht
    have hsign : (j == 0x2d) = false := by
      rw [beq_eq_false_iff_ne]
      rintro rfl
      cases hj
    rw [if_pos hi, Dumper.bytes_eq, Nat.toList_repr, hcons, parseNumber, getOneOrThrow,
      Result.ok_bind]
    simp only [hsign, skipSign, Bool.false_eq_true, if_false, Result.ok_bind, hj, expect_true,
      hscan]
    rw [parseRest_ends ht]
    change Except.ok (Double.ofInt (i.toNat : Int), t) = _
    rw [Int.toNat_of_nonneg hi, hvalue]
  · obtain ⟨j, t', hcons, hj, hscan⟩ :=
      scanInteger_toDigits (D := D) (n := (-i).toNat) (by omega) ht
    rw [if_neg hi, Dumper.bytes_append, Dumper.bytes_ofList, Dumper.bytes_eq, Nat.toList_repr,
      List.append_assoc, hcons]
    change parseNumber (0x2d :: j :: t') = _
    rw [parseNumber, getOneOrThrow, Result.ok_bind]
    simp only [skipSign, getOneOrThrow, beq_self_eq_true, if_true, Result.ok_bind, hj,
      expect_true, hscan]
    rw [parseRest_ends ht]
    congr 2
    rw [addInteger]
    simp only [Bool.not_true, Bool.false_eq_true, if_false, if_true]
    by_cases hmin' : (-i).toNat ≤ 2 ^ 63 - 1
    · rw [if_pos hmin', Int.toNat_of_nonneg (by omega), Int.neg_neg, hvalue]
    · have hboundary : (-i).toNat = 2 ^ 63 := by omega
      rw [if_neg hmin', if_pos hboundary, show (-2 ^ 63 : Int) = i by omega, hvalue]

theorem reads_string
    (value : String)
    (t : Text) :
    Reads (bytes (Json.dumpString value) ++ t)
      (.value (.string (bytes value) : Document D)) t := by
  obtain ⟨b, hb, hparse⟩ := characters_bytes_dumpString value t
  rw [hb]
  exact .string (next_cons rfl _) hparse

/-- The elements of an array, behind its bracket. -/
theorem reads_elements
    {elements : List (Json D)}
    (h : ∀ s ∈ elements, ∀ t, Ends t →
      Reads (bytes s.text ++ t) (.value (.ofJson s)) t)
    (hne : elements ≠ [])
    (t : Text) :
    Reads (Dumper.joined true (Json.textElements elements) ++ 0x5d :: t)
      (.elements (Document.ofJsonElements elements)) t := by
  induction elements with
  | nil => exact absurd rfl hne
  | cons s elements ih =>
      have hs := h s List.mem_cons_self
      rw [Json.textElements, Dumper.joined_true, List.append_assoc]
      cases elements with
      | nil =>
          rw [Json.textElements, Dumper.joined_nil]
          have hend : Ends (0x5d :: t) := .inr ⟨_, _, rfl, .inr (.inl rfl)⟩
          exact .lastElement (hs _ hend) (next_cons rfl t)
      | cons s' elements =>
          have hbehind := ih (fun s hs => h s (List.mem_cons_of_mem _ hs)) (List.cons_ne_nil _ _)
          rw [Json.textElements] at hbehind ⊢
          rw [Dumper.joined_false]
          have hend : ∀ t : Text, Ends (0x2c :: t) := fun t => .inr ⟨_, _, rfl, .inl rfl⟩
          exact .element (hs _ (hend _)) (next_cons rfl _) hbehind

/-- The members of an object, behind its brace. -/
theorem reads_members
    {members : List (String × Json D)}
    (h : ∀ member ∈ members, ∀ t, Ends t →
      Reads (bytes member.2.text ++ t) (.value (.ofJson member.2)) t)
    (hne : members ≠ [])
    (t : Text) :
    Reads (Dumper.joined true (Json.textMembers members) ++ 0x7d :: t)
      (.members (Document.ofJsonMembers members)) t := by
  induction members with
  | nil => exact absurd rfl hne
  | cons member members ih =>
      obtain ⟨key, value⟩ := member
      have hvalue : ∀ t, Ends t →
          Reads (bytes value.text ++ t) (.value (.ofJson value)) t :=
        h _ List.mem_cons_self
      rw [Json.textMembers, Dumper.joined_true, Dumper.bytes_append, Dumper.bytes_append,
        Dumper.bytes_ofList]
      change Reads (_ ++ [0x3a] ++ _ ++ _ ++ _) _ _
      rw [List.append_assoc, List.append_assoc, List.append_assoc]
      cases members with
      | nil =>
          rw [Json.textMembers, Dumper.joined_nil]
          have hend : Ends (0x7d :: t) := .inr ⟨_, _, rfl, .inr (.inr rfl)⟩
          obtain ⟨b, hb, hkey⟩ := characters_bytes_dumpString key
            ([0x3a] ++ (bytes value.text ++ ([] ++ 0x7d :: t)))
          rw [hb]
          exact .lastMember (next_cons rfl _) hkey (next_cons rfl _) (hvalue _ hend)
            (next_cons rfl t)
      | cons member' members =>
          have hbehind := ih (fun s hs => h s (List.mem_cons_of_mem _ hs)) (List.cons_ne_nil _ _)
          rw [Json.textMembers] at hbehind ⊢
          rw [Dumper.joined_false]
          have hend : ∀ t : Text, Ends (0x2c :: t) := fun t => .inr ⟨_, _, rfl, .inl rfl⟩
          obtain ⟨b, hb, hkey⟩ := characters_bytes_dumpString key
            ([0x3a] ++ (bytes value.text ++ (0x2c :: Dumper.joined true
              ((Json.dumpString member'.1 ++ ":" ++ member'.2.text) ::
                Json.textMembers members) ++ 0x7d :: t)))
          rw [hb]
          exact .member (next_cons rfl _) hkey (next_cons rfl _) (hvalue _ (hend _))
            (next_cons rfl _) hbehind

/-- A dumped value is a text of the grammar. -/
theorem reads_dumpValue
    (s : Json D)
    (hnumbers : ∀ value, Json.Below (.number value) s → Readable value)
    (t : Text)
    (ht : Ends t) :
    Reads (bytes s.text ++ t) (.value (.ofJson s)) t := by
  induction s using Json.induction generalizing t with
  | null =>
      have hnull : bytes "null" = 0x6e :: bytes "ull" := by
        rw [Dumper.bytes_eq, Dumper.bytes_eq]
        rfl
      rw [Json.text, hnull]
      exact .nullToken (next_cons rfl _)
  | bool value =>
      cases value with
      | false =>
          have hfalse : bytes "false" = 0x66 :: bytes "alse" := by
            rw [Dumper.bytes_eq, Dumper.bytes_eq]
            rfl
          rw [Json.text, hfalse]
          exact .falseToken (next_cons rfl _)
      | true =>
          have htrue : bytes "true" = 0x74 :: bytes "rue" := by
            rw [Dumper.bytes_eq, Dumper.bytes_eq]
            rfl
          rw [Json.text, htrue]
          exact .trueToken (next_cons rfl _)
  | number value => exact (hnumbers value .refl).reads ht
  | string value => exact reads_string value t
  | array elements ih =>
      have helements : ∀ s ∈ elements, ∀ t, Ends t →
          Reads (bytes s.text ++ t) (.value (.ofJson s)) t :=
        fun s hs t => ih s hs (fun value hbelow => hnumbers value (.element hs hbelow)) t
      rw [Json.text, Dumper.bytes_append, Dumper.bytes_append, Dumper.bytes_ofList,
        Dumper.bytes_ofList, List.append_assoc, List.append_assoc]
      cases elements with
      | nil =>
          have hempty := Dumper.joined_nil true
          rw [show bytes (",".intercalate (Json.textElements ([] : List (Json D)))) = [] from
            hempty]
          exact .emptyArray (next_cons rfl _) (next_cons rfl t)
      | cons s elements =>
          exact .array (next_cons rfl _)
            (reads_elements helements (List.cons_ne_nil _ _) t)
  | object members ih =>
      have hmembers : ∀ member ∈ members, ∀ t, Ends t →
          Reads (bytes member.2.text ++ t) (.value (.ofJson member.2)) t :=
        fun member hs t =>
          ih member hs (fun value hbelow => hnumbers value (.member hs hbelow)) t
      rw [Json.text, Dumper.bytes_append, Dumper.bytes_append, Dumper.bytes_ofList,
        Dumper.bytes_ofList, List.append_assoc, List.append_assoc]
      cases members with
      | nil =>
          have hempty := Dumper.joined_nil true
          rw [show bytes (",".intercalate (Json.textMembers ([] : List (String × Json D)))) = []
            from hempty]
          exact .emptyObject (next_cons rfl _) (next_cons rfl t)
      | cons member members =>
          exact .object (next_cons rfl _)
            (reads_members hmembers (List.cons_ne_nil _ _) t)

/-- The dumper does not throw if every number below the value is finite. -/
theorem isFinite_of_below
    (s : Json D)
    (hnumbers : ∀ value, Json.Below (.number value) s → Double.isFinite value = true) :
    s.isFinite = true := by
  induction s using Json.induction with
  | null => rfl
  | bool value => rfl
  | number value => exact hnumbers value .refl
  | string value => rfl
  | array elements ih =>
      rw [Json.isFinite, Json.isFiniteElements_eq_all, List.all_eq_true]
      exact fun s hs => ih s hs fun value hbelow => hnumbers value (.element hs hbelow)
  | object members ih =>
      rw [Json.isFinite, Json.isFiniteMembers_eq_all, List.all_eq_true]
      exact fun member hs =>
        ih member hs fun value hbelow => hnumbers value (.member hs hbelow)

/-- No value begins with a byte order mark. -/
theorem withoutBom_eq
    {t t' : Text}
    {p : Part D}
    (h : Reads t p t') :
    withoutBom t = t := by
  rw [withoutBom]
  apply if_neg
  intro hbom
  obtain ⟨behind, rfl⟩ := List.isPrefixOf_iff_prefix.mp hbom
  obtain ⟨i, t1, hnext, _, hi⟩ := h.next
  have hbytes : bytes "\uFEFF" = [0xef, 0xbb, 0xbf] := by
    rw [Dumper.bytes_eq]
    rfl
  have hmark : Next 0xef (bytes "\uFEFF" ++ behind) (0xbb :: 0xbf :: behind) := by
    rw [hbytes]
    exact next_cons rfl _
  have hcons : (0xef : UInt8) = i := (List.cons.inj (hmark.symm.trans hnext)).1
  rw [← hcons] at hi
  exact absurd hi (by decide)

end Values

end Parser

end AgencyNode
