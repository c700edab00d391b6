import Mathlib.Algebra.Order.Ring.Int
import AgencyNode.FlatStore

/-!
# velocypack::Parser

The parser behind `node_from_file`, with the default options.  A text is the
bytes from the current position on, so `consume` takes the head of the list and
`unconsume` puts it back.  Where the builder receives a value, the parser here
returns it.  The default options do not ask for `validateUtf8Strings`, so a string
may be any bytes.

White space and the parts of a string without quotes and escapes are passed over
in blocks, as long as at least sixteen bytes are left.
-/

namespace AgencyNode

open FlatStore (bytes)

/-- The bytes of a text. -/
abbrev Text := List UInt8

/-- The operations on doubles that only the parser uses. -/
class ParserDouble (D : Type) extends Double D where
  neg : D → D
  mul : D → D → D
  div : D → D → D
  /-- The literal `0.1`. -/
  tenth : D
  /-- `pow(10, x)`. -/
  powTen : D → D
  /-- `atof`. -/
  atof : Text → D

/-- Integers in place of doubles, to evaluate the parser on examples. -/
instance parserDoubleInt : ParserDouble Int where
  neg := fun a => -a
  mul := fun a b => a * b
  div := fun a b => a / b
  tenth := 0
  powTen := fun a => 10 ^ a.toNat
  atof := fun _ => 0

/-- What the builder holds behind the parser: a value whose strings are bytes. -/
inductive Document (D : Type) where
  | null
  | bool (value : Bool)
  | number (value : D)
  | string (value : Text)
  | array (elements : List (Document D))
  | object (members : List (Text × Document D))

/-- The exceptions of the parser. -/
inductive ParserException where
  | parseError (what : String)
  | unexpectedControlCharacter
  | numberOutOfRange
  /-- The recursion was not given enough fuel, which does not happen in `parse`. -/
  | outOfFuel
deriving DecidableEq, Repr

namespace Parser

/-- What a parser function returns; most return the text behind, too. -/
abbrev Result := Except ParserException

def parseError {α : Type} (what : String) : Result α :=
  .error (.parseError what)

/-- Throw unless a condition holds. -/
def expect (condition : Bool) (what : String) : Result Unit :=
  if condition then .ok () else parseError what

/-- `getOneOrThrow`. -/
def getOneOrThrow (what : String) : Text → Result (UInt8 × Text)
  | [] => parseError what
  | i :: t => .ok (i, t)

/-! ## White space -/

/-- `isWhiteSpace`. -/
def isWhiteSpace (i : UInt8) : Bool :=
  i == 0x20 || i == 0x09 || i == 0x0a || i == 0x0d

/-- `JSONSkipWhiteSpace`. -/
def jsonSkipWhiteSpace (src : Text) (limit : Nat) : Nat :=
  ((src.take limit).takeWhile isWhiteSpace).length

/-- The `do` loop of `skipWhiteSpace`. -/
def skipWhiteSpaceLoop (err : String) : Text → Result (UInt8 × Text)
  | [] => parseError err
  | c :: t => if isWhiteSpace c then skipWhiteSpaceLoop err t else .ok (c, c :: t)

/-- `skipWhiteSpace`, which does not consume the byte it returns. -/
def skipWhiteSpace (err : String) (t : Text) : Result (UInt8 × Text) :=
  match t with
  | [] => parseError err
  | c :: behind =>
      if !isWhiteSpace c then .ok (c, t)
      else
        let skip : Result (UInt8 × Text) :=
          let remaining := t.length
          let count := if remaining ≥ 16 then jsonSkipWhiteSpace t (remaining - 15) else 0
          skipWhiteSpaceLoop err (t.drop count)
        if c == 0x20 then
          match behind with
          | [] => parseError err
          | c' :: _ => if !isWhiteSpace c' then .ok (c', behind) else skip
        else skip

/-! ## Numbers -/

section Numbers

variable {D : Type} [ParserDouble D]

/-- `ParsedNumber`; the integer fits into 64 bits. -/
structure ParsedNumber (D : Type) where
  intValue : Nat
  doubleValue : D
  isInteger : Bool

/-- The constructor of `ParsedNumber`. -/
def ParsedNumber.zero : ParsedNumber D :=
  ⟨0, Double.zero, true⟩

/-- The digit `i - '0'`. -/
def digit (i : UInt8) : Nat := i.toNat - 0x30

/-- `'0' <= i && i <= '9'`. -/
def isDigit (i : UInt8) : Bool :=
  0x30 ≤ i && i ≤ 0x39

/-- `ParsedNumber::addDigit`. -/
def ParsedNumber.addDigit (value : ParsedNumber D) (i : UInt8) :
    Result (ParsedNumber D) :=
  let addDouble (doubleValue : D) : Result (ParsedNumber D) :=
    let doubleValue := Double.add (ParserDouble.mul doubleValue (Double.ofInt 10))
      (Double.ofInt (digit i))
    if Double.isFinite doubleValue then
      .ok { value with doubleValue := doubleValue, isInteger := false }
    else .error .numberOutOfRange
  if value.isInteger then
    -- one more digit must not overflow
    if value.intValue < 1844674407370955161 ∨
        value.intValue = 1844674407370955161 ∧ digit i ≤ 5 then
      .ok { value with intValue := value.intValue * 10 + digit i }
    else addDouble (Double.ofInt value.intValue)
  else addDouble value.doubleValue

/-- `ParsedNumber::asDouble`. -/
def ParsedNumber.asDouble (value : ParsedNumber D) : D :=
  if value.isInteger then Double.ofInt value.intValue else value.doubleValue

/-- `scanDigits`. -/
def scanDigits (value : ParsedNumber D) : Text → Result (ParsedNumber D × Text)
  | [] => .ok (value, [])
  | i :: t =>
      if isDigit i then do
        let value ← value.addDigit i
        scanDigits value t
      else .ok (value, i :: t)

/-- The loop of `scanDigitsFractional`. -/
def scanFractional (pot x : D) : Text → D × Text
  | [] => (x, [])
  | i :: t =>
      if isDigit i then
        scanFractional (ParserDouble.div pot (Double.ofInt 10))
          (Double.add x (ParserDouble.mul pot (Double.ofInt (digit i)))) t
      else (x, i :: t)

/-- `scanDigitsFractional`. -/
def scanDigitsFractional (t : Text) : D × Text :=
  scanFractional ParserDouble.tenth Double.zero t

/-- What `parseNumber` adds for a number without fraction and exponent. -/
def addInteger (negative : Bool) (value : ParsedNumber D) : D :=
  if !value.isInteger then
    if negative then ParserDouble.neg value.doubleValue else value.doubleValue
  else if negative then
    if value.intValue ≤ 2 ^ 63 - 1 then Double.ofInt (-(value.intValue : Int))
    else if value.intValue = 2 ^ 63 then Double.ofInt (-2 ^ 63)
    else ParserDouble.neg (Double.ofInt value.intValue)
  else Double.ofInt value.intValue

/-- The next byte, if the byte `i` was a sign. -/
def skipSign (isSign : Bool) (i : UInt8) (t : Text) : Result (UInt8 × Text) :=
  if isSign then getOneOrThrow "Incomplete number" t else .ok (i, t)

/-- The digits from `i` on; no digit may follow a zero. -/
def scanInteger (i : UInt8) (t : Text) : Result (ParsedNumber D × Text) :=
  if i != 0x30 then scanDigits ParsedNumber.zero (i :: t)
  else .ok (ParsedNumber.zero, t)

/-- `parseNumber` behind the `e` of an exponent. -/
def parseExponent (start : Text) (fractionalPart : D) (t : Text) : Result (D × Text) := do
  let (i, t) ← getOneOrThrow "Incomplete number" t
  let negative := i == 0x2d
  let (i, t) ← skipSign (i == 0x2b || i == 0x2d) i t
  expect (isDigit i) "Incomplete number"
  let (exponent, t) ← scanDigits ParsedNumber.zero (i :: t)
  let exponent := exponent.asDouble
  let fractionalPart := ParserDouble.mul fractionalPart
    (ParserDouble.powTen (if negative then ParserDouble.neg exponent else exponent))
  if Double.isFinite fractionalPart then
    return (ParserDouble.atof start, t)
  else .error .numberOutOfRange

/-- `parseNumber` behind the point of a fraction. -/
def parseFraction (start : Text) (sign : D → D) (value : D) (t : Text) :
    Result (D × Text) := do
  let (i, t) ← getOneOrThrow "Incomplete number" t
  expect (isDigit i) "Incomplete number"
  let (fraction, t) := scanDigitsFractional (i :: t)
  let fractionalPart := Double.add (sign value) (sign fraction)
  match t with
  | [] => return (fractionalPart, [])
  | i :: t =>
      if i == 0x65 || i == 0x45 then parseExponent start fractionalPart t
      -- the digits are read a second time, for the precision
      else return (ParserDouble.atof start, i :: t)

/-- `parseNumber` behind the integer. -/
def parseRest (start : Text) (negative : Bool) (value : ParsedNumber D) (t : Text) :
    Result (D × Text) :=
  let sign (x : D) : D := if negative then ParserDouble.neg x else x
  match t with
  | [] => .ok (addInteger negative value, [])
  | i :: t =>
      if i == 0x2e then parseFraction start sign value.asDouble t
      else if i == 0x65 || i == 0x45 then parseExponent start (sign value.asDouble) t
      else .ok (addInteger negative value, i :: t)

/-- `parseNumber`. -/
def parseNumber (start : Text) : Result (D × Text) := do
  let (i, t) ← getOneOrThrow "Expecting digit" start
  let negative := i == 0x2d
  let (i, t) ← skipSign negative i t
  expect (isDigit i) "Expecting digit"
  let (value, t) ← scanInteger i t
  parseRest start negative value t

end Numbers

/-! ## Strings -/

/-- The bytes that `JSONStringCopy` copies. -/
def isPlain (i : UInt8) : Bool :=
  0x20 ≤ i && i != 0x5c && i != 0x22

/-- `JSONStringCopy`. -/
def jsonStringCopy (src : Text) (limit : Nat) : Nat :=
  ((src.take limit).takeWhile isPlain).length

/-- How many bytes `parseString` copies at once. -/
def copyCount (t : Text) : Nat :=
  let remainder := t.length
  if remainder ≥ 16 then jsonStringCopy t (remainder - 15) else 0

/-- One digit of a `\uXXXX` escape. -/
def hexValue (i : UInt8) : Option Nat :=
  if 0x30 ≤ i && i ≤ 0x39 then some (i.toNat - 0x30)
  else if 0x61 ≤ i && i ≤ 0x66 then some (i.toNat - 0x61 + 10)
  else if 0x41 ≤ i && i ≤ 0x46 then some (i.toNat - 0x41 + 10)
  else none

/-- The four digits of a `\uXXXX` escape, and the text behind them. -/
def parseHex : Nat → Nat → Text → Result (Nat × Text)
  | 0, v, t => .ok (v, t)
  | _ + 1, _, [] => parseError "Unfinished \\uXXXX escape sequence"
  | j + 1, v, i :: t =>
      match hexValue i with
      | some d => parseHex j (v * 16 + d) t
      | none => parseError "Illegal \\uXXXX escape sequence"

/-- The bytes in the builder and the high surrogate seen last, or zero. -/
structure StringState where
  out : Text
  highSurrogate : Nat

/-- Append some bytes that are no high surrogate. -/
def StringState.append (s : StringState) (b : Text) : StringState :=
  ⟨s.out ++ b, 0⟩

/-- Append the character of a `\uXXXX` escape. -/
def StringState.appendUnicode (s : StringState) (v : Nat) : StringState :=
  let three : Text :=
    [UInt8.ofNat (0xe0 + v / 2 ^ 12), UInt8.ofNat (0x80 + v / 2 ^ 6 % 64),
      UInt8.ofNat (0x80 + v % 64)]
  if v < 0x80 then s.append [UInt8.ofNat v]
  else if v < 0x800 then
    s.append [UInt8.ofNat (0xc0 + v / 2 ^ 6), UInt8.ofNat (0x80 + v % 64)]
  else if 0xdc00 ≤ v ∧ v < 0xe000 ∧ s.highSurrogate ≠ 0 then
    -- the bytes of the high surrogate are taken back
    let v := 0x10000 + (s.highSurrogate - 0xd800) * 2 ^ 10 + v - 0xdc00
    ⟨s.out.take (s.out.length - 3) ++
      [UInt8.ofNat (0xf0 + v / 2 ^ 18), UInt8.ofNat (0x80 + v / 2 ^ 12 % 64),
        UInt8.ofNat (0x80 + v / 2 ^ 6 % 64), UInt8.ofNat (0x80 + v % 64)], 0⟩
  else if 0xd800 ≤ v ∧ v < 0xdc00 then ⟨s.out ++ three, v⟩
  else s.append three

/-- The byte that a letter behind a backslash stands for. -/
def escapedByte (i : UInt8) : Option UInt8 :=
  if i == 0x22 || i == 0x2f || i == 0x5c then some i
  else if i == 0x62 then some 0x08
  else if i == 0x66 then some 0x0c
  else if i == 0x6e then some 0x0a
  else if i == 0x72 then some 0x0d
  else if i == 0x74 then some 0x09
  else none

/-- The escape sequence behind a backslash. -/
def parseEscape (s : StringState) : Text → Result (StringState × Text)
  | [] => parseError "Invalid escape sequence"
  | i :: t =>
      match escapedByte i with
      | some b => .ok (s.append [b], t)
      | none =>
          if i == 0x75 then do
            let (v, t) ← parseHex 4 0 t
            return (s.appendUnicode v, t)
          else parseError "Invalid escape sequence"

theorem parseHex_length
    {j v : Nat}
    {t t' : Text}
    {v' : Nat}
    (h : parseHex j v t = .ok (v', t')) :
    t'.length ≤ t.length := by
  induction j generalizing v t with
  | zero =>
      cases h
      exact Nat.le_refl _
  | succ j ih =>
      cases t with
      | nil => cases h
      | cons i t =>
          rw [parseHex] at h
          cases hi : hexValue i with
          | none =>
              rw [hi] at h
              cases h
          | some d =>
              rw [hi] at h
              exact Nat.le_succ_of_le (ih h)

theorem parseEscape_length
    {s s' : StringState}
    {t t' : Text}
    (h : parseEscape s t = .ok (s', t')) :
    t'.length ≤ t.length := by
  cases t with
  | nil => cases h
  | cons i t =>
      rw [parseEscape] at h
      cases hi : escapedByte i with
      | some b =>
          rw [hi] at h
          cases h
          exact Nat.le_succ _
      | none =>
          simp only [hi] at h
          by_cases hu : (i == 0x75) = true
          · rw [if_pos hu] at h
            cases hv : parseHex 4 0 t with
            | error e =>
                rw [hv] at h
                cases h
            | ok p =>
                rw [hv] at h
                cases h
                exact Nat.le_succ_of_le (parseHex_length hv)
          · rw [if_neg hu] at h
            cases h

/-- `parseString`, behind the opening quote. -/
def parseString (s : StringState) (t : Text) : Result (Text × Text) :=
  let count := copyCount t
  let s : StringState := ⟨s.out ++ t.take count, s.highSurrogate⟩
  match _hdrop : t.drop count with
  | [] => parseError "Unfinished string"
  | i :: behind =>
      if i == 0x22 then .ok (s.out, behind)
      else if i == 0x5c then
        match _hescape : parseEscape s behind with
        | .error e => .error e
        | .ok (s, behind) => parseString s behind
      else if i &&& 0x80 == 0 && i < 0x20 then .error .unexpectedControlCharacter
      else parseString (s.append [i]) behind
termination_by t.length
decreasing_by
  · have hlength := congrArg List.length _hdrop
    have := parseEscape_length _hescape
    rw [List.length_drop, List.length_cons] at hlength
    omega
  · have hlength := congrArg List.length _hdrop
    rw [List.length_drop, List.length_cons] at hlength
    omega

/-! ## Values -/

section Values

variable {D : Type} [ParserDouble D]

/-- `parseTrue`, `parseFalse` and `parseNull`, behind the first letter. -/
def parseLiteral {α : Type} (letters : Text) (what : String) (value : α) (t : Text) :
    Result (α × Text) :=
  if letters.isPrefixOf t then .ok (value, t.drop letters.length)
  else parseError what

/-- `parseTrue`. -/
def parseTrue (t : Text) : Result (Document D × Text) :=
  parseLiteral (bytes "rue") "Expecting 'true'" (.bool true) t

/-- `parseFalse`. -/
def parseFalse (t : Text) : Result (Document D × Text) :=
  parseLiteral (bytes "alse") "Expecting 'false'" (.bool false) t

/-- `parseNull`. -/
def parseNull (t : Text) : Result (Document D × Text) :=
  parseLiteral (bytes "ull") "Expecting 'null'" .null t

/-- The loop of `parseArray`. -/
def parseElements (parseJson : Text → Result (Document D × Text)) :
    Nat → Text → Result (List (Document D) × Text)
  | 0, _ => .error .outOfFuel
  | fuel + 1, t => do
      let (element, t) ← parseJson t
      let (i, t) ← skipWhiteSpace "Expecting ',' or ']'" t
      if i == 0x5d then return ([element], t.tail)
      expect (i == 0x2c) "Expecting ',' or ']'"
      let (elements, t) ← parseElements parseJson fuel t.tail
      return (element :: elements, t)

/-- `parseArray`, behind the bracket. -/
def parseArray (parseJson : Text → Result (Document D × Text)) (fuel : Nat) (t : Text) :
    Result (Document D × Text) := do
  let (i, t) ← skipWhiteSpace "Expecting item or ']'" t
  if i == 0x5d then return (.array [], t.tail)
  let (elements, t) ← parseElements parseJson fuel t
  return (.array elements, t)

/-- The loop of `parseObject`; `i` is the byte `skipWhiteSpace` has returned. -/
def parseMembers (parseJson : Text → Result (Document D × Text)) :
    Nat → UInt8 → Text → Result (List (Text × Document D) × Text)
  | 0, _, _ => .error .outOfFuel
  | fuel + 1, i, t => do
      expect (i == 0x22) "Expecting '\"' or '\x7d'"
      let (key, t) ← parseString ⟨[], 0⟩ t.tail
      let (i, t) ← skipWhiteSpace "Expecting ':'" t
      expect (i == 0x3a) "Expecting ':'"
      let (value, t) ← parseJson t.tail
      let (i, t) ← skipWhiteSpace "Expecting ',' or '\x7d'" t
      if i == 0x7d then return ([(key, value)], t.tail)
      expect (i == 0x2c) "Expecting ',' or '\x7d'"
      let (i, t) ← skipWhiteSpace "Expecting '\"' or '\x7d'" t.tail
      let (members, t) ← parseMembers parseJson fuel i t
      return ((key, value) :: members, t)

/-- `parseObject`, behind the brace. -/
def parseObject (parseJson : Text → Result (Document D × Text)) (fuel : Nat) (t : Text) :
    Result (Document D × Text) := do
  let (i, t) ← skipWhiteSpace "Expecting item or '\x7d'" t
  if i == 0x7d then return (.object [], t.tail)
  let (members, t) ← parseMembers parseJson fuel i t
  return (.object members, t)

/-- `parseJson`. -/
def parseJson : Nat → Text → Result (Document D × Text)
  | 0, _ => .error .outOfFuel
  | fuel + 1, t => do
      let (i, t) ← skipWhiteSpace "Expecting item" t
      if i == 0x7b then parseObject (parseJson fuel) fuel t.tail
      else if i == 0x5b then parseArray (parseJson fuel) fuel t.tail
      else if i == 0x74 then parseTrue t.tail
      else if i == 0x66 then parseFalse t.tail
      else if i == 0x6e then parseNull t.tail
      else if i == 0x22 then
        let (value, t) ← parseString ⟨[], 0⟩ t.tail
        return (.string value, t)
      else
        let (value, t) ← parseNumber t
        return (.number value, t)

/-- `parse`, which is `parseInternal` for one value. -/
def parse (t : Text) : Result (Document D) := do
  let t := if (bytes "\uFEFF").isPrefixOf t then t.drop 3 else t
  let (value, t) ← parseJson (t.length + 1) t
  expect (t.dropWhile isWhiteSpace == []) "Expecting EOF"
  return value

end Values

end Parser

end AgencyNode
