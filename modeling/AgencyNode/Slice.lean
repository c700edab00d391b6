import AgencyNode.Runtime
import AgencyNode.Lib.AssocMap

/-!
# velocypack slices

The part of `velocypack::Slice`, its iterators and `Dumper` that the program
uses.  `Json` is the value a slice denotes, with the members of an object in
storage order and with numbers read as `double`.  A `Slice` is either such a
value or the None slice, which `Slice::get` returns for an absent attribute.

Every accessor that throws outside its domain does so here.
-/

namespace AgencyNode

open Lib

/-- JSON values in velocypack storage order. -/
inductive Json (D : Type) where
  | null
  | bool (value : Bool)
  | number (value : D)
  | string (value : String)
  | array (elements : List (Json D))
  | object (members : List (String × Json D))

/-- Induction on the values below a value. -/
@[elab_as_elim] theorem Json.induction
    {D : Type}
    {motive : Json D → Prop}
    (null : motive .null)
    (bool : ∀ value, motive (.bool value))
    (number : ∀ value, motive (.number value))
    (string : ∀ value, motive (.string value))
    (array : ∀ elements : List (Json D),
      (∀ s ∈ elements, motive s) → motive (.array elements))
    (object : ∀ members : List (String × Json D),
      (∀ member ∈ members, motive member.2) → motive (.object members))
    (s : Json D) : motive s := by
  refine @Json.rec D motive
    (fun elements => ∀ s ∈ elements, motive s)
    (fun members => ∀ member ∈ members, motive member.2)
    (fun member => motive member.2)
    null bool number string array object ?_ ?_ ?_ ?_ ?_ s
  · intro s h
    cases h
  · intro element elements helement helements s h
    rcases List.mem_cons.mp h with rfl | h
    · exact helement
    · exact helements s h
  · intro member h
    cases h
  · intro member members hmember hmembers m h
    rcases List.mem_cons.mp h with rfl | h
    · exact hmember
    · exact hmembers m h
  · intro key s hs
    exact hs

/-- A slice; `none` is the None slice. -/
abbrev Slice (D : Type) := Option (Json D)

namespace Json

variable {D : Type}

/-- The hexadecimal digit of `Dumper::dumpString`. -/
def hexDigit (i : Nat) : Char :=
  if i < 10 then Char.ofNat ('0'.toNat + i)
  else Char.ofNat ('A'.toNat + i - 10)

/-- `Dumper::dumpString` on one character. -/
def dumpChar (c : Char) : List Char :=
  if c = '"' then ['\\', '"']
  else if c = '\\' then ['\\', '\\']
  else if c.toNat = 0x08 then ['\\', 'b']
  else if c.toNat = 0x09 then ['\\', 't']
  else if c.toNat = 0x0a then ['\\', 'n']
  else if c.toNat = 0x0c then ['\\', 'f']
  else if c.toNat = 0x0d then ['\\', 'r']
  else if c.toNat < 0x20 then
    ['\\', 'u', '0', '0', hexDigit (c.toNat / 16), hexDigit (c.toNat % 16)]
  else [c]

/-- `Dumper::dumpString` between its quotes. -/
def dumpString (value : String) : String :=
  "\"" ++ String.ofList (value.toList.flatMap dumpChar) ++ "\""

variable [Double D]

mutual

/-- The text `Dumper` writes without pretty printing for a value with finite numbers. -/
def text : Json D → String
  | .null => "null"
  | .bool true => "true"
  | .bool false => "false"
  | .number value => Double.dump value
  | .string value => dumpString value
  | .array elements =>
      "[" ++ String.intercalate "," (textElements elements) ++ "]"
  | .object members =>
      "\x7b" ++ String.intercalate "," (textMembers members) ++ "\x7d"

def textElements : List (Json D) → List String
  | [] => []
  | element :: elements => text element :: textElements elements

def textMembers : List (String × Json D) → List String
  | [] => []
  | member :: members =>
      (dumpString member.1 ++ ":" ++ text member.2) :: textMembers members

end

mutual

/-- No number in the value is NaN or infinite. -/
def isFinite : Json D → Bool
  | .number value => Double.isFinite value
  | .array elements => isFiniteElements elements
  | .object members => isFiniteMembers members
  | _ => true

def isFiniteElements : List (Json D) → Bool
  | [] => true
  | element :: elements => isFinite element && isFiniteElements elements

def isFiniteMembers : List (String × Json D) → Bool
  | [] => true
  | member :: members => isFinite member.2 && isFiniteMembers members

end

theorem isFiniteElements_eq_all
    (elements : List (Json D)) :
    isFiniteElements elements = elements.all isFinite := by
  induction elements with
  | nil => rfl
  | cons element elements ih => rw [isFiniteElements, ih, List.all_cons]

theorem isFiniteMembers_eq_all
    (members : List (String × Json D)) :
    isFiniteMembers members = members.all fun member => member.2.isFinite := by
  induction members with
  | nil => rfl
  | cons member members ih => rw [isFiniteMembers, ih, List.all_cons]

/-- `Dumper::dump`, which throws at a number that is NaN or infinite. -/
def dump (s : Json D) : Exec String :=
  if s.isFinite then .ok s.text
  else .error (.exception .noJsonEquivalent)

end Json

namespace Slice

variable {D : Type}

/-- `Slice::nullSlice`. -/
def nullSlice : Slice D := some .null

def isNone : Slice D → Bool
  | none => true
  | some _ => false

def isObject : Slice D → Bool
  | some (.object _) => true
  | _ => false

def isArray : Slice D → Bool
  | some (.array _) => true
  | _ => false

def isString : Slice D → Bool
  | some (.string _) => true
  | _ => false

def isNumber : Slice D → Bool
  | some (.number _) => true
  | _ => false

def isBool : Slice D → Bool
  | some (.bool _) => true
  | _ => false

/-- Raise `Exception::InvalidValueType`. -/
def invalidValueType {α : Type} (what : String) : Exec α :=
  .error (.exception (.invalidValueType what))

/-- `Slice::get`: the None slice for an absent attribute. -/
def get (s : Slice D) (attributeName : String) : Exec (Slice D) :=
  match s with
  | some (.object members) => .ok (AssocMap.find members attributeName)
  | _ => invalidValueType "Expecting Object"

/-- `Slice::length`. -/
def length : Slice D → Exec Nat
  | some (.array elements) => .ok elements.length
  | some (.object members) => .ok members.length
  | _ => invalidValueType "Expecting type Array or Object"

/-- `Slice::getNumber<double>`. -/
def getNumber : Slice D → Exec D
  | some (.number value) => .ok value
  | _ => invalidValueType "Expecting numeric type"

/-- `Slice::getBool`. -/
def getBool : Slice D → Exec Bool
  | some (.bool value) => .ok value
  | _ => invalidValueType "Expecting type Bool"

/-- `Slice::copyString` and `Slice::stringView`. -/
def copyString : Slice D → Exec String
  | some (.string value) => .ok value
  | _ => invalidValueType "Expecting type String"

/-- `Slice::isEqualString`. -/
def isEqualString (s : Slice D) (attributeName : String) : Exec Bool :=
  match s with
  | some (.string value) => .ok (value == attributeName)
  | _ => invalidValueType "Expecting type String"

/--
`Slice::toJson` with the default options, which fail on unsupported types.  It is
called on slices that were read from JSON, whose numbers are finite.
-/
def toJson [Double D] : Slice D → Exec String
  | some value => .ok value.text
  | none => .error (.exception .noJsonEquivalent)

/-- The range of `ArrayIterator(s)`. -/
def arrayElements : Slice D → Exec (List (Json D))
  | some (.array elements) => .ok elements
  | _ => invalidValueType "Expecting Array slice"

/-- The range of `ObjectIterator(s, true)`. -/
def objectMembers : Slice D → Exec (List (String × Json D))
  | some (.object members) => .ok members
  | _ => invalidValueType "Expecting Object slice"

end Slice

/-- `velocypack::ArrayIterator`: the array and the current position. -/
structure ArrayIterator (D : Type) where
  elements : List (Json D)
  position : Nat

namespace ArrayIterator

variable {D : Type}

/-- The constructor, which throws on a slice that is no array. -/
def ofSlice (s : Slice D) : Exec (ArrayIterator D) := do
  let elements ← s.arrayElements
  return ⟨elements, 0⟩

/-- `operator++`, which also steps past the end. -/
def next (iter : ArrayIterator D) : ArrayIterator D :=
  { iter with position := iter.position + 1 }

/-- `iter != iter.end()`, which compares the positions only. -/
def notAtEnd (iter : ArrayIterator D) : Bool :=
  iter.position != iter.elements.length

/-- `operator*`. -/
def deref (iter : ArrayIterator D) : Exec (Slice D) :=
  match iter.elements[iter.position]? with
  | some element => .ok (some element)
  | none => .error (.exception .indexOutOfBounds)

end ArrayIterator

end AgencyNode
