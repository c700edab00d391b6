import Mathlib.Data.List.Induction
import Mathlib.Data.List.TakeWhile
import AgencyNode.JsonParser

/-!
# Numerals

What `parseNumber` accepts and which value it returns, without the scanning.  A
`Numeral` and its parts are well formed by construction.  Integers of up to 64 bits
are exact; `atof` reads what has a fraction or an exponent.
-/

namespace AgencyNode

namespace Parser

namespace Result

variable {α β : Type}

theorem bind_eq_ok
    {x : Result α}
    {f : α → Result β}
    {b : β} :
    (x >>= f) = .ok b ↔ ∃ a, x = .ok a ∧ f a = .ok b := by
  cases x with
  | error e =>
      constructor
      · intro h
        cases h
      · rintro ⟨a, h, _⟩
        cases h
  | ok a =>
      constructor
      · intro h
        exact ⟨a, rfl, h⟩
      · rintro ⟨a', h, hf⟩
        cases h
        exact hf

@[simp] theorem ok_bind
    (a : α)
    (f : α → Result β) :
    ((.ok a : Result α) >>= f) = f a := by
  rfl

@[simp] theorem error_bind
    (e : ParserException)
    (f : α → Result β) :
    ((.error e : Result α) >>= f) = .error e := by
  rfl

@[simp] theorem pure_eq_ok
    (a : α) :
    (pure a : Result α) = .ok a := by
  rfl

end Result

theorem expect_eq_ok
    {condition : Bool}
    {what : String}
    {u : Unit} :
    expect condition what = .ok u ↔ condition = true := by
  cases condition with
  | false =>
      constructor
      · intro h
        cases h
      · intro h
        cases h
  | true => exact ⟨fun _ => rfl, fun _ => rfl⟩

@[simp] theorem expect_true
    (what : String) :
    expect true what = .ok () := by
  rfl

theorem getOneOrThrow_eq_ok
    {what : String}
    {t t' : Text}
    {i : UInt8} :
    getOneOrThrow what t = .ok (i, t') ↔ t = i :: t' := by
  cases t with
  | nil =>
      constructor
      · intro h
        cases h
      · intro h
        cases h
  | cons j t =>
      constructor
      · intro h
        cases h
        rfl
      · intro h
        cases h
        rfl

/-! ## Digits -/

/-- At least one digit. -/
structure Digits where
  text : Text
  ne_nil : text ≠ []
  isDigit : ∀ i ∈ text, isDigit i = true

/-- The text does not begin with a digit. -/
def NoDigit (t : Text) : Prop :=
  ∀ i ∈ t.head?, isDigit i = false

/-- The number of which these are the decimal digits. -/
def decimal (digits : Text) : Nat :=
  digits.foldl (fun n i => n * 10 + digit i) 0

theorem decimal_snoc
    (digits : Text)
    (i : UInt8) :
    decimal (digits ++ [i]) = decimal digits * 10 + digit i := by
  rw [decimal, List.foldl_append]
  rfl

theorem isDigit_iff
    {i : UInt8} :
    isDigit i = true ↔ 0x30 ≤ i.toNat ∧ i.toNat ≤ 0x39 := by
  rw [isDigit, Bool.and_eq_true, decide_eq_true_iff, decide_eq_true_iff,
    UInt8.le_iff_toNat_le, UInt8.le_iff_toNat_le]
  rfl

theorem digit_le
    {i : UInt8}
    (hi : isDigit i = true) :
    digit i ≤ 9 := by
  have := isDigit_iff.mp hi
  rw [digit]
  omega

theorem dropWhile_isDigit
    (t : Text) :
    NoDigit (t.dropWhile isDigit) := by
  intro i hi
  have hhead := List.head?_dropWhile_not isDigit t
  rw [Option.mem_def.mp hi] at hhead
  simpa using hhead

theorem Digits.head?_eq
    (digits : Digits)
    {i : UInt8}
    {t t' : Text}
    (h : i :: t = digits.text ++ t') :
    digits.text.head? = some i := by
  obtain ⟨text, hne, _⟩ := digits
  cases text with
  | nil => exact absurd rfl hne
  | cons j text =>
      cases h
      rfl

/-- Scanning digits stops behind the last one. -/
theorem Digits.scan
    (digits : Digits)
    {t : Text}
    (ht : NoDigit t) :
    (digits.text ++ t).takeWhile Parser.isDigit = digits.text ∧
      (digits.text ++ t).dropWhile Parser.isDigit = t := by
  have hbehind : t.takeWhile Parser.isDigit = [] ∧ t.dropWhile Parser.isDigit = t := by
    cases t with
    | nil => exact ⟨rfl, rfl⟩
    | cons i t =>
        have hi : ¬ Parser.isDigit i = true := by
          rw [ht i rfl]
          exact Bool.false_ne_true
        exact ⟨List.takeWhile_cons_of_neg hi, List.dropWhile_cons_of_neg hi⟩
  rw [List.takeWhile_append_of_pos digits.isDigit, List.dropWhile_append_of_pos digits.isDigit,
    hbehind.1, hbehind.2, List.append_nil]
  exact ⟨rfl, rfl⟩

/-- The digits at the front of a text, from its first byte on. -/
def scanned {i : UInt8} (hi : isDigit i = true) (t : Text) : Digits where
  text := (i :: t).takeWhile isDigit
  ne_nil := by
    rw [List.takeWhile_cons_of_pos hi]
    exact List.cons_ne_nil _ _
  isDigit := fun _ hj => (List.mem_takeWhile_imp hj)

/-! ## Numerals -/

/-- The exponent: `e` or `E`, perhaps a sign, and digits. -/
structure Exponent where
  letter : UInt8
  letter_eq : letter = 0x65 ∨ letter = 0x45
  sign : Option UInt8
  sign_eq : ∀ i ∈ sign, i = 0x2b ∨ i = 0x2d
  digits : Digits

/-- What stands behind the integer. -/
structure Rest where
  fraction : Option Digits
  exponent : Option Exponent

/-- A numeral; only the integer zero begins with the digit zero. -/
structure Numeral where
  negative : Bool
  integer : Digits
  leading : integer.text.head? = some 0x30 → integer.text = [0x30]
  rest : Rest

/-- The text behind the letter. -/
def Exponent.tail (e : Exponent) : Text :=
  e.sign.toList ++ e.digits.text

def Rest.text (r : Rest) : Text :=
  (match r.fraction with
    | none => []
    | some digits => 0x2e :: digits.text) ++
  (match r.exponent with
    | none => []
    | some e => e.letter :: e.tail)

def Numeral.text (n : Numeral) : Text :=
  (if n.negative then [0x2d] else []) ++ (n.integer.text ++ n.rest.text)

/-- The text does not begin with the letter of an exponent. -/
def NoExponent (t : Text) : Prop :=
  ∀ i ∈ t.head?, i ≠ 0x65 ∧ i ≠ 0x45

theorem Numeral.length_pos
    (n : Numeral) :
    0 < n.text.length := by
  have := List.length_pos_iff.mpr n.integer.ne_nil
  rw [Numeral.text, List.length_append, List.length_append]
  omega

/-- In front of the text, this is no part of a longer numeral. -/
def Rest.EndsBefore (r : Rest) (t : Text) : Prop :=
  match r.exponent, r.fraction with
  | some _, _ => NoDigit t
  | none, some _ => NoDigit t ∧ NoExponent t
  | none, none => t.head? ≠ some 0x2e ∧ NoExponent t

/-- A zero may have digits behind it, which are not read. -/
def Numeral.EndsBefore (n : Numeral) (t : Text) : Prop :=
  (n.integer.text ≠ [0x30] → NoDigit t) ∧ n.rest.EndsBefore t

section Values

variable {D : Type} [ParserDouble D]

/--
What digits are read as: an integer, if it fits into 64 bits, and otherwise a double,
which is computed digit by digit and must stay finite.
-/
inductive OfDigits : Text → ParsedNumber D → Prop
  | integer
      {digits : Text}
      (h : decimal digits < 2 ^ 64) :
      OfDigits digits ⟨decimal digits, Double.zero, true⟩
  | double
      {digits : Text}
      {i : UInt8}
      {value : ParsedNumber D}
      {x : D}
      (h : OfDigits digits value)
      (hlarge : 2 ^ 64 ≤ decimal (digits ++ [i]))
      (hx : x = Double.add (ParserDouble.mul value.asDouble (Double.ofInt 10))
        (Double.ofInt (digit i)))
      (hfinite : Double.isFinite x = true) :
      OfDigits (digits ++ [i]) ⟨value.intValue, x, false⟩

/-- The digits of a fraction, of which the first counts `pot`, added to `x`. -/
def fractionFrom (pot x : D) : Text → D
  | [] => x
  | i :: digits =>
      fractionFrom (ParserDouble.div pot (Double.ofInt 10))
        (Double.add x (ParserDouble.mul pot (Double.ofInt (digit i)))) digits

def signed (negative : Bool) (x : D) : D :=
  if negative then ParserDouble.neg x else x

/-- A number without fraction and exponent; below `-2 ^ 63` it is a double. -/
def integerValue (negative : Bool) (value : ParsedNumber D) : D :=
  if value.isInteger = true ∧ (negative = true → value.intValue ≤ 2 ^ 63) then
    Double.ofInt (if negative then -(value.intValue : Int) else value.intValue)
  else signed negative value.asDouble

/-- The value that the parser computes itself, up to the exponent. -/
def Rest.mantissa (r : Rest) (negative : Bool) (value : ParsedNumber D) : D :=
  match r.fraction with
  | none => signed negative value.asDouble
  | some digits =>
      Double.add (signed negative value.asDouble)
        (signed negative (fractionFrom ParserDouble.tenth Double.zero digits.text))

/-- The number does not leave the range with this exponent. -/
def Exponent.InRange (e : Exponent) (mantissa : D) : Prop :=
  ∃ value : ParsedNumber D, OfDigits e.digits.text value ∧
    Double.isFinite (ParserDouble.mul mantissa
      (ParserDouble.powTen (signed (e.sign == some 0x2d) value.asDouble))) = true

/--
The value of a numeral that begins at `start`: `atof` decides where there is a
fraction or an exponent, but for a fraction at the very end of the text.
-/
def Rest.Denotes (r : Rest) (start : Text) (negative : Bool) (value : ParsedNumber D)
    (behind : Text) (v : D) : Prop :=
  match r.exponent with
  | some e => e.InRange (r.mantissa negative value) ∧ v = ParserDouble.atof start
  | none =>
      match r.fraction, behind with
      | none, _ => v = integerValue negative value
      | some _, [] => v = r.mantissa negative value
      | some _, _ :: _ => v = ParserDouble.atof start

/-- The value `v` of a numeral in front of the text `behind`. -/
def Numeral.Denotes (n : Numeral) (behind : Text) (v : D) : Prop :=
  ∃ value, OfDigits n.integer.text value ∧
    n.rest.Denotes (n.text ++ behind) n.negative value behind v

/-! ### Scanning digits -/

/-- One more digit: the double takes over as soon as 64 bits are not enough. -/
theorem addDigit_eq
    (value : ParsedNumber D)
    {i : UInt8}
    (hi : isDigit i = true) :
    value.addDigit i =
      if value.isInteger = true ∧ value.intValue * 10 + digit i < 2 ^ 64 then
        .ok { value with intValue := value.intValue * 10 + digit i }
      else
        let x := Double.add (ParserDouble.mul value.asDouble (Double.ofInt 10))
          (Double.ofInt (digit i))
        if Double.isFinite x then .ok ⟨value.intValue, x, false⟩
        else .error .numberOutOfRange := by
  have hle := digit_le hi
  obtain ⟨n, x, isInteger⟩ := value
  rw [ParsedNumber.addDigit]
  cases isInteger with
  | false =>
      rw [if_neg Bool.false_ne_true, if_neg (fun h => Bool.false_ne_true h.1)]
      rfl
  | true =>
      have hbound : (n < 1844674407370955161 ∨ n = 1844674407370955161 ∧ digit i ≤ 5) ↔
          n * 10 + digit i < 2 ^ 64 := by omega
      simp only [hbound, if_true, true_and]
      rfl

theorem OfDigits.cases_isInteger
    {digits : Text}
    {value : ParsedNumber D}
    (h : OfDigits digits value) :
    (decimal digits < 2 ^ 64 ∧ value = ⟨decimal digits, Double.zero, true⟩) ∨
      (2 ^ 64 ≤ decimal digits ∧ value.isInteger = false) := by
  cases h with
  | integer h => exact .inl ⟨h, rfl⟩
  | double _ hlarge _ _ => exact .inr ⟨hlarge, rfl⟩

theorem foldlM_addDigit_iff
    {digits : Text}
    (hdigits : ∀ i ∈ digits, isDigit i = true)
    {value : ParsedNumber D} :
    digits.foldlM ParsedNumber.addDigit ParsedNumber.zero = Except.ok value ↔
      OfDigits digits value := by
  induction digits using List.reverseRecOn generalizing value with
  | nil =>
      constructor
      · intro h
        cases h
        exact .integer (by decide)
      · intro h
        generalize hnil : ([] : Text) = l at h
        cases h with
        | integer _ =>
            rw [← hnil]
            rfl
        | double _ _ _ _ => simp at hnil
  | append_singleton digits i ih =>
      have hinit : ∀ j ∈ digits, isDigit j = true :=
        fun j hj => hdigits j (List.mem_append_left _ hj)
      have hi : isDigit i = true := hdigits i (List.mem_append_right _ List.mem_cons_self)
      have hsnoc := decimal_snoc digits i
      rw [List.foldlM_append, Result.bind_eq_ok]
      simp only [List.foldlM_cons, List.foldlM_nil, bind_pure, ih hinit, addDigit_eq _ hi]
      constructor
      · rintro ⟨u, hu, h⟩
        by_cases hfits : u.isInteger = true ∧ u.intValue * 10 + digit i < 2 ^ 64
        · rw [if_pos hfits] at h
          cases h
          rcases hu.cases_isInteger with ⟨_, rfl⟩ | ⟨_, hdouble⟩
          · rw [← hsnoc] at hfits ⊢
            exact .integer hfits.2
          · exact absurd hfits.1 (by simp [hdouble])
        · rw [if_neg hfits] at h
          by_cases hfinite : Double.isFinite (Double.add (ParserDouble.mul u.asDouble
              (Double.ofInt 10)) (Double.ofInt (digit i))) = true
          · rw [if_pos hfinite] at h
            cases h
            refine .double hu ?_ rfl hfinite
            rcases hu.cases_isInteger with ⟨_, rfl⟩ | ⟨hlarge, _⟩
            · rw [hsnoc]
              exact Nat.not_lt.mp fun hlt => hfits ⟨rfl, hlt⟩
            · omega
          · rw [if_neg hfinite] at h
            cases h
      · intro h
        generalize hl : digits ++ [i] = l at h
        cases h with
        | integer h =>
            subst hl
            rw [hsnoc] at h ⊢
            refine ⟨⟨decimal digits, Double.zero, true⟩, .integer (by omega), ?_⟩
            rw [if_pos ⟨rfl, h⟩]
        | @double digits' j u x hu hlarge hx hfinite =>
            obtain ⟨rfl, hj⟩ := List.append_inj' hl rfl
            cases hj
            refine ⟨u, hu, ?_⟩
            have hfits : ¬ (u.isInteger = true ∧ u.intValue * 10 + digit i < 2 ^ 64) := by
              rintro ⟨hinteger, hlt⟩
              rcases hu.cases_isInteger with ⟨_, rfl⟩ | ⟨_, hdouble⟩
              · rw [hsnoc] at hlarge
                exact absurd hlt (Nat.not_lt.mpr hlarge)
              · exact absurd hinteger (by simp [hdouble])
            rw [if_neg hfits]
            subst hx
            exact if_pos hfinite

theorem scanDigits_eq
    (value : ParsedNumber D)
    (t : Text) :
    scanDigits value t = (do
      let value ← (t.takeWhile isDigit).foldlM ParsedNumber.addDigit value
      return (value, t.dropWhile isDigit)) := by
  induction t generalizing value with
  | nil => rfl
  | cons i t ih =>
      rw [scanDigits]
      by_cases hi : isDigit i = true
      · rw [if_pos hi, List.takeWhile_cons_of_pos hi, List.dropWhile_cons_of_pos hi,
          List.foldlM_cons, bind_assoc]
        simp only [ih]
      · rw [if_neg hi, List.takeWhile_cons_of_neg hi, List.dropWhile_cons_of_neg hi]
        rfl

/-- From a digit on, all digits are scanned. -/
theorem scanDigits_eq_ok_iff
    {i : UInt8}
    (hi : isDigit i = true)
    {t t' : Text}
    {value : ParsedNumber D} :
    scanDigits ParsedNumber.zero (i :: t) = .ok (value, t') ↔
      ∃ digits : Digits, i :: t = digits.text ++ t' ∧ NoDigit t' ∧
        OfDigits digits.text value := by
  rw [scanDigits_eq, Result.bind_eq_ok]
  constructor
  · rintro ⟨u, hu, h⟩
    cases h
    refine ⟨scanned hi t, List.takeWhile_append_dropWhile.symm, dropWhile_isDigit _, ?_⟩
    exact (foldlM_addDigit_iff (scanned hi t).isDigit).mp hu
  · rintro ⟨digits, ht, hbehind, hvalue⟩
    obtain ⟨htake, hdrop⟩ := digits.scan hbehind
    rw [ht, htake, hdrop]
    exact ⟨value, (foldlM_addDigit_iff digits.isDigit).mpr hvalue, rfl⟩

theorem scanFractional_eq
    (pot x : D)
    (t : Text) :
    scanFractional pot x t =
      (fractionFrom pot x (t.takeWhile isDigit), t.dropWhile isDigit) := by
  induction t generalizing pot x with
  | nil => rfl
  | cons i t ih =>
      rw [scanFractional]
      by_cases hi : isDigit i = true
      · rw [if_pos hi, List.takeWhile_cons_of_pos hi, List.dropWhile_cons_of_pos hi, ih]
        rfl
      · rw [if_neg hi, List.takeWhile_cons_of_neg hi, List.dropWhile_cons_of_neg hi]
        rfl

/-! ### Scanning numerals -/

theorem skipSign_eq_ok_iff
    {isSign : Bool}
    {i j : UInt8}
    {t t' : Text} :
    skipSign isSign i t = .ok (j, t') ↔
      if isSign = true then t = j :: t' else i :: t = j :: t' := by
  cases isSign with
  | false =>
      constructor
      · intro h
        cases h
        rfl
      · intro h
        cases h
        rfl
  | true => exact getOneOrThrow_eq_ok

/-- The integer zero. -/
def Digits.zero : Digits where
  text := [0x30]
  ne_nil := List.cons_ne_nil _ _
  isDigit := List.forall_mem_singleton.mpr rfl

theorem scanInteger_eq_ok_iff
    {i : UInt8}
    (hi : isDigit i = true)
    {t t' : Text}
    {value : ParsedNumber D} :
    scanInteger i t = .ok (value, t') ↔
      ∃ integer : Digits, (integer.text.head? = some 0x30 → integer.text = [0x30]) ∧
        i :: t = integer.text ++ t' ∧ (integer.text ≠ [0x30] → NoDigit t') ∧
          OfDigits integer.text value := by
  have hzero : (OfDigits [0x30] value : Prop) ↔ ParsedNumber.zero = value := by
    refine (foldlM_addDigit_iff Digits.zero.isDigit).symm.trans ?_
    change Except.ok (ParsedNumber.zero : ParsedNumber D) = Except.ok value ↔ _
    rw [Except.ok.injEq]
  rw [scanInteger]
  by_cases hne : (i != 0x30) = true
  · have hleading : i ≠ 0x30 := bne_iff_ne.mp hne
    rw [if_pos hne, scanDigits_eq_ok_iff hi]
    constructor
    · rintro ⟨integer, ht, hbehind, hvalue⟩
      refine ⟨integer, fun hhead => ?_, ht, fun _ => hbehind, hvalue⟩
      rw [integer.head?_eq ht] at hhead
      exact absurd (Option.some.inj hhead) hleading
    · rintro ⟨integer, _, ht, hbehind, hvalue⟩
      refine ⟨integer, ht, hbehind fun hzero => ?_, hvalue⟩
      have hhead := integer.head?_eq ht
      rw [hzero] at hhead
      exact hleading (Option.some.inj hhead).symm
  · obtain rfl : i = 0x30 := by simpa using hne
    rw [if_neg hne]
    constructor
    · intro h
      cases h
      exact ⟨Digits.zero, fun _ => rfl, rfl, fun h => absurd rfl h, hzero.mpr rfl⟩
    · rintro ⟨integer, hleading, ht, _, hvalue⟩
      have htext := hleading (integer.head?_eq ht)
      rw [htext] at ht hvalue
      cases ht
      rw [hzero.mp hvalue]
      rfl

theorem parseExponent_eq_ok_iff
    {letter : UInt8}
    (hletter : letter = 0x65 ∨ letter = 0x45)
    {start t t' : Text}
    {mantissa v : D} :
    parseExponent start mantissa t = .ok (v, t') ↔
      ∃ e : Exponent, e.letter = letter ∧ t = e.tail ++ t' ∧ NoDigit t' ∧
        e.InRange mantissa ∧ v = ParserDouble.atof start := by
  constructor
  · intro h
    rw [parseExponent] at h
    obtain ⟨⟨i, t1⟩, hi, h⟩ := Result.bind_eq_ok.mp h
    obtain ⟨⟨j, t2⟩, hj, h⟩ := Result.bind_eq_ok.mp h
    obtain ⟨_, hdigit, h⟩ := Result.bind_eq_ok.mp h
    obtain ⟨⟨value, t3⟩, hscan, h⟩ := Result.bind_eq_ok.mp h
    obtain ⟨digits, hdigits, hbehind, hvalue⟩ :=
      (scanDigits_eq_ok_iff (expect_eq_ok.mp hdigit)).mp hscan
    dsimp only at h
    have hexponent : ∃ e : Exponent, e.letter = letter ∧ t = e.tail ++ t3 ∧
        e.digits = digits ∧ (e.sign == some 0x2d) = (i == 0x2d) := by
      rw [getOneOrThrow_eq_ok.mp hi]
      have hnext := skipSign_eq_ok_iff.mp hj
      by_cases hsign : (i == 0x2b || i == 0x2d) = true
      · rw [if_pos hsign] at hnext
        refine ⟨⟨letter, hletter, some i, ?_, digits⟩, rfl, ?_, rfl, ?_⟩
        · rintro _ ⟨⟩
          rwa [Bool.or_eq_true, beq_iff_eq, beq_iff_eq] at hsign
        · rw [hnext, hdigits]
          rfl
        · rw [Option.some_beq_some]
      · rw [if_neg hsign] at hnext
        refine ⟨⟨letter, hletter, none, ?_, digits⟩, rfl, ?_, rfl, ?_⟩
        · rintro _ ⟨⟩
        · rw [hnext, hdigits]
          rfl
        · rw [Bool.not_eq_true, Bool.or_eq_false_iff] at hsign
          exact hsign.2.symm
    obtain ⟨e, hletter, ht, rfl, hsign⟩ := hexponent
    change (if Double.isFinite (ParserDouble.mul mantissa
      (ParserDouble.powTen (signed (i == 0x2d) value.asDouble))) = true then _ else _) = _ at h
    rw [← hsign] at h
    split at h
    · next hfinite =>
        cases h
        exact ⟨e, hletter, ht, hbehind, ⟨value, hvalue, hfinite⟩, rfl⟩
    · cases h
  · rintro ⟨e, hletter, rfl, hbehind, ⟨value, hvalue, hfinite⟩, rfl⟩
    obtain ⟨i, digits, hdigits⟩ := List.exists_cons_of_ne_nil e.digits.ne_nil
    have hi : isDigit i = true := e.digits.isDigit i (by rw [hdigits]; exact List.mem_cons_self)
    have hscan : scanDigits ParsedNumber.zero (i :: (digits ++ t')) = .ok (value, t') := by
      refine (scanDigits_eq_ok_iff hi).mpr ⟨e.digits, ?_, hbehind, hvalue⟩
      rw [hdigits, List.cons_append]
    -- with and without a sign, the exponent is read from its first digit on
    have hread : ∀ j t, skipSign (j == 0x2b || j == 0x2d) j t = .ok (i, digits ++ t') →
        (e.sign == some 0x2d) = (j == 0x2d) →
        parseExponent start mantissa (j :: t) = .ok (ParserDouble.atof start, t') := by
      intro j t hskip hsign
      rw [hsign] at hfinite
      rw [parseExponent, getOneOrThrow, Result.ok_bind]
      dsimp only
      rw [hskip, Result.ok_bind]
      dsimp only
      rw [hi, expect_true, Result.ok_bind, hscan, Result.ok_bind]
      exact if_pos hfinite
    rw [Exponent.tail, hdigits]
    cases hsign : e.sign with
    | none =>
        have hne : ∀ j : UInt8, isDigit j = false → (i == j) = false :=
          fun j hj => beq_eq_false_iff_ne.mpr fun heq => by simp [← heq, hi] at hj
        refine hread i (digits ++ t') ?_ ?_
        · rw [hne 0x2b rfl, hne 0x2d rfl]
          rfl
        · rw [hsign, hne 0x2d rfl]
          rfl
    | some j =>
        refine hread j (i :: (digits ++ t')) ?_ ?_
        · rw [Bool.or_eq_true_iff.mpr ((e.sign_eq j hsign).imp beq_iff_eq.mpr beq_iff_eq.mpr)]
          rfl
        · rw [hsign, Option.some_beq_some]

theorem isExponentLetter_eq_false
    {i : UInt8}
    {t : Text}
    (h : NoExponent (i :: t)) :
    (i == 0x65 || i == 0x45) = false := by
  obtain ⟨hlower, hupper⟩ := h i rfl
  rw [beq_eq_false_iff_ne.mpr hlower, beq_eq_false_iff_ne.mpr hupper]
  rfl

theorem noExponent_cons
    {i : UInt8}
    (hi : (i == 0x65 || i == 0x45) = false)
    (t : Text) :
    NoExponent (i :: t) := by
  rintro _ ⟨⟩
  rw [Bool.or_eq_false_iff] at hi
  exact ⟨beq_eq_false_iff_ne.mp hi.1, beq_eq_false_iff_ne.mp hi.2⟩

/-- The digits of a fraction are scanned, and then the exponent, if there is one. -/
theorem parseFraction_append
    (start : Text)
    (negative : Bool)
    (value : ParsedNumber D)
    (digits : Digits)
    (t : Text) :
    NoDigit t → parseFraction start (signed negative) value.asDouble (digits.text ++ t) =
      let mantissa := (⟨some digits, none⟩ : Rest).mantissa negative value
      match t with
      | [] => .ok (mantissa, [])
      | i :: behind =>
          if (i == 0x65 || i == 0x45) = true then parseExponent start mantissa behind
          else .ok (ParserDouble.atof start, i :: behind) := by
  intro ht
  obtain ⟨i, l, hdigits⟩ := List.exists_cons_of_ne_nil digits.ne_nil
  have hi : isDigit i = true := digits.isDigit i (by rw [hdigits]; exact List.mem_cons_self)
  obtain ⟨htake, hdrop⟩ := digits.scan ht
  rw [hdigits, List.cons_append] at htake hdrop
  rw [parseFraction, hdigits, List.cons_append, getOneOrThrow, Result.ok_bind]
  dsimp only
  rw [hi, expect_true, Result.ok_bind, scanDigitsFractional, scanFractional_eq, htake, hdrop,
    ← hdigits]
  cases t <;> rfl

theorem parseFraction_eq_ok_iff
    {start t t' : Text}
    {negative : Bool}
    {value : ParsedNumber D}
    {v : D} :
    parseFraction start (signed negative) value.asDouble t = .ok (v, t') ↔
      ∃ (digits : Digits) (exponent : Option Exponent),
        0x2e :: t = (⟨some digits, exponent⟩ : Rest).text ++ t' ∧
          (⟨some digits, exponent⟩ : Rest).EndsBefore t' ∧
          (⟨some digits, exponent⟩ : Rest).Denotes start negative value t' v := by
  constructor
  · intro h
    have hdigits : ∃ (digits : Digits) (t1 : Text), t = digits.text ++ t1 ∧ NoDigit t1 := by
      rw [parseFraction] at h
      obtain ⟨⟨i, t1⟩, hi, h⟩ := Result.bind_eq_ok.mp h
      obtain ⟨_, hdigit, _⟩ := Result.bind_eq_ok.mp h
      refine ⟨scanned (expect_eq_ok.mp hdigit) t1, (i :: t1).dropWhile isDigit, ?_,
        dropWhile_isDigit _⟩
      rw [getOneOrThrow_eq_ok.mp hi]
      exact List.takeWhile_append_dropWhile.symm
    obtain ⟨digits, t1, rfl, hbehind⟩ := hdigits
    rw [parseFraction_append start negative value digits _ hbehind] at h
    refine ⟨digits, ?_⟩
    cases t1 with
    | nil =>
        cases h
        exact ⟨none, by simp [Rest.text], ⟨hbehind, fun _ h => by cases h⟩, rfl⟩
    | cons i t1 =>
        dsimp only at h
        split at h
        · next hletter =>
            rw [Bool.or_eq_true, beq_iff_eq, beq_iff_eq] at hletter
            obtain ⟨e, rfl, rfl, hend, hrange, rfl⟩ := (parseExponent_eq_ok_iff hletter).mp h
            exact ⟨some e, by simp [Rest.text], hend, hrange, rfl⟩
        · next hletter =>
            cases h
            rw [Bool.not_eq_true] at hletter
            exact ⟨none, by simp [Rest.text], ⟨hbehind, noExponent_cons hletter t1⟩, rfl⟩
  · rintro ⟨digits, exponent, ht, hend, hvalue⟩
    cases exponent with
    | none =>
        obtain ⟨hbehind, hletter⟩ := hend
        obtain rfl : t = digits.text ++ t' := by simpa [Rest.text] using ht
        rw [parseFraction_append start negative value digits _ hbehind]
        cases t' with
        | nil =>
            rw [show v = _ from hvalue]
        | cons i t' =>
            dsimp only
            rw [isExponentLetter_eq_false hletter, if_neg Bool.false_ne_true,
              show v = _ from hvalue]
    | some e =>
        obtain rfl : t = digits.text ++ e.letter :: (e.tail ++ t') := by
          simpa [Rest.text] using ht
        obtain ⟨hrange, rfl⟩ := hvalue
        have hletter : NoDigit (e.letter :: (e.tail ++ t')) := by
          rintro _ ⟨⟩
          rcases e.letter_eq with h | h <;> rw [h] <;> rfl
        rw [parseFraction_append start negative value digits _ hletter]
        dsimp only
        rw [Bool.or_eq_true_iff.mpr (e.letter_eq.imp beq_iff_eq.mpr beq_iff_eq.mpr), if_pos rfl]
        exact (parseExponent_eq_ok_iff e.letter_eq).mpr ⟨e, rfl, rfl, hend, hrange, rfl⟩

theorem addInteger_eq
    (negative : Bool)
    (value : ParsedNumber D) :
    addInteger negative value = integerValue negative value := by
  obtain ⟨n, x, isInteger⟩ := value
  rw [addInteger, integerValue]
  cases isInteger with
  | false => cases negative <;> rfl
  | true =>
      cases negative with
      | false => simp
      | true =>
          by_cases hle : n ≤ 2 ^ 63
          · simp only [Bool.not_true, Bool.false_eq_true, if_false, if_true, true_and, hle,
              forall_const]
            split_ifs with hlt heq
            · rfl
            · rw [heq]
              rfl
            · omega
          · simp only [Bool.not_true, Bool.false_eq_true, if_false, if_true, true_and, hle,
              forall_const]
            rw [if_neg (by omega), if_neg (by omega)]
            rfl

theorem parseRest_eq_ok_iff
    {start t t' : Text}
    {negative : Bool}
    {value : ParsedNumber D}
    {v : D} :
    parseRest start negative value t = .ok (v, t') ↔
      ∃ r : Rest, t = r.text ++ t' ∧ r.EndsBefore t' ∧
        r.Denotes start negative value t' v := by
  constructor
  · intro h
    cases t with
    | nil =>
        cases h
        refine ⟨⟨none, none⟩, rfl, ⟨?_, fun _ h => by cases h⟩, addInteger_eq _ _⟩
        exact fun h => by cases h
    | cons i t =>
        rw [parseRest] at h
        dsimp only at h
        split at h
        · next hpoint =>
            rw [beq_iff_eq.mp hpoint]
            obtain ⟨digits, exponent, ht, hend, hvalue⟩ := parseFraction_eq_ok_iff.mp h
            exact ⟨_, ht, hend, hvalue⟩
        · next hpoint =>
            split at h
            · next hletter =>
                rw [Bool.or_eq_true, beq_iff_eq, beq_iff_eq] at hletter
                obtain ⟨e, rfl, rfl, hend, hrange, rfl⟩ :=
                  (parseExponent_eq_ok_iff hletter).mp h
                exact ⟨⟨none, some e⟩, rfl, hend, hrange, rfl⟩
            · next hletter =>
                cases h
                rw [Bool.not_eq_true] at hletter
                refine ⟨⟨none, none⟩, rfl, ⟨?_, noExponent_cons hletter t⟩,
                  addInteger_eq _ _⟩
                exact fun h => hpoint (beq_iff_eq.mpr (Option.some.inj h))
  · rintro ⟨⟨fraction, exponent⟩, rfl, hend, hvalue⟩
    cases fraction with
    | some digits =>
        change parseFraction start (signed negative) value.asDouble _ = _
        exact parseFraction_eq_ok_iff.mpr ⟨digits, exponent, rfl, hend, hvalue⟩
    | none =>
        cases exponent with
        | some e =>
            obtain ⟨hrange, rfl⟩ := hvalue
            have hread : parseExponent start (signed negative value.asDouble)
                (e.tail ++ t') = .ok (ParserDouble.atof start, t') :=
              (parseExponent_eq_ok_iff e.letter_eq).mpr ⟨e, rfl, rfl, hend, hrange, rfl⟩
            change parseRest start negative value (e.letter :: (e.tail ++ t')) = _
            rcases e.letter_eq with h | h <;> rw [h] <;> exact hread
        | none =>
            rw [show v = _ from hvalue, ← addInteger_eq]
            cases t' with
            | nil => rfl
            | cons i t' =>
                have hpoint : (i == 0x2e) = false :=
                  beq_eq_false_iff_ne.mpr fun h => hend.1 (congrArg some h)
                change parseRest start negative value (i :: t') = _
                rw [parseRest]
                simp only [hpoint, isExponentLetter_eq_false hend.2, Bool.false_eq_true,
                  if_false]

/-- What stands behind the integer ends with a digit, or is not there. -/
theorem Rest.EndsBefore.noDigit_iff
    {r : Rest}
    {t : Text}
    (h : r.EndsBefore t) :
    NoDigit (r.text ++ t) ↔ NoDigit t := by
  obtain ⟨fraction, exponent⟩ := r
  have hpoint : ∀ t : Text, NoDigit (0x2e :: t) := by
    rintro t _ ⟨⟩
    rfl
  cases fraction with
  | some digits =>
      have hbehind : NoDigit t := by
        cases exponent with
        | some e => exact h
        | none => exact h.1
      exact ⟨fun _ => hbehind, fun _ => hpoint _⟩
  | none =>
      cases exponent with
      | none => exact Iff.rfl
      | some e =>
          refine ⟨fun _ => h, fun _ => ?_⟩
          rintro _ ⟨⟩
          rcases e.letter_eq with h | h <;> rw [h] <;> rfl

/--
**The parser reads numerals**: it accepts a text that begins with a numeral which does
not go on behind it, and returns the value of the numeral.
-/
theorem parseNumber_eq_ok_iff
    {t t' : Text}
    {v : D} :
    parseNumber t = .ok (v, t') ↔
      ∃ n : Numeral, t = n.text ++ t' ∧ n.EndsBefore t' ∧ n.Denotes t' v := by
  constructor
  · intro h
    rw [parseNumber] at h
    obtain ⟨⟨i, t1⟩, hi, h⟩ := Result.bind_eq_ok.mp h
    obtain ⟨⟨j, t2⟩, hj, h⟩ := Result.bind_eq_ok.mp h
    obtain ⟨_, hdigit, h⟩ := Result.bind_eq_ok.mp h
    obtain ⟨⟨value, t3⟩, hscan, h⟩ := Result.bind_eq_ok.mp h
    obtain ⟨integer, hleading, hsplit, hbehind, hvalue⟩ :=
      (scanInteger_eq_ok_iff (expect_eq_ok.mp hdigit)).mp hscan
    obtain ⟨r, rfl, hend, hdenotes⟩ := parseRest_eq_ok_iff.mp h
    have hnext := skipSign_eq_ok_iff.mp hj
    have ht : t = (⟨i == 0x2d, integer, hleading, r⟩ : Numeral).text ++ t' := by
      rw [getOneOrThrow_eq_ok.mp hi, Numeral.text, List.append_assoc, List.append_assoc,
        ← hsplit]
      dsimp only
      by_cases hsign : (i == 0x2d) = true
      · rw [if_pos hsign] at hnext ⊢
        rw [hnext, beq_iff_eq.mp hsign]
        rfl
      · rw [if_neg hsign] at hnext ⊢
        exact hnext
    refine ⟨⟨i == 0x2d, integer, hleading, r⟩, ht, ⟨?_, hend⟩, value, hvalue, ?_⟩
    · exact fun hne => hend.noDigit_iff.mp (hbehind hne)
    · rw [← ht]
      exact hdenotes
  · rintro ⟨⟨negative, integer, hleading, r⟩, ht, ⟨hbehind, hend⟩, value, hvalue, hdenotes⟩
    obtain ⟨j, l, hinteger⟩ := List.exists_cons_of_ne_nil integer.ne_nil
    have hj : isDigit j = true := integer.isDigit j (by rw [hinteger]; exact List.mem_cons_self)
    have hscan : scanInteger j (l ++ (r.text ++ t')) = .ok (value, r.text ++ t') := by
      refine (scanInteger_eq_ok_iff hj).mpr ⟨integer, hleading, ?_, ?_, hvalue⟩
      · rw [hinteger, List.cons_append]
      · exact fun hne => hend.noDigit_iff.mpr (hbehind hne)
    rw [← ht] at hdenotes
    have hrest := parseRest_eq_ok_iff.mpr ⟨r, rfl, hend, hdenotes⟩
    -- with and without a sign, the numeral is read from its first digit on
    have hread : ∀ i t1, t = i :: t1 → (i == 0x2d) = negative →
        skipSign negative i t1 = .ok (j, l ++ (r.text ++ t')) →
        parseNumber t = .ok (v, t') := by
      rintro i t1 rfl hsign hskip
      rw [parseNumber, getOneOrThrow, Result.ok_bind]
      dsimp only
      rw [hsign, hskip, Result.ok_bind]
      dsimp only
      rw [hj, expect_true, Result.ok_bind, hscan, Result.ok_bind]
      exact hrest
    rw [Numeral.text, hinteger] at ht
    cases negative with
    | true => exact hread 0x2d (j :: (l ++ (r.text ++ t'))) (by simpa using ht) rfl rfl
    | false =>
        refine hread j (l ++ (r.text ++ t')) (by simpa using ht) ?_ rfl
        rw [beq_eq_false_iff_ne]
        rintro rfl
        cases hj

end Values

end Parser

end AgencyNode
