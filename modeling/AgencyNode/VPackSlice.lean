import AgencyNode.Lib.ByteIntegers
import AgencyNode.Lib.BinarySearch
import AgencyNode.Node
import AgencyNode.FlatStore

/-!
# Slices, byte by byte

`velocypack::Slice` and its iterators, on the bytes they read.  A slice is given by
the bytes from `_start` on, as far as the memory goes; to read anything else is a
failure of its own.  There is no attribute translator, as in `Options::Defaults`.
-/

namespace AgencyNode
namespace VPack

open Lib Lib.ByteIntegers

/-- The bytes from `_start` on. -/
abbrev Memory := List UInt8

abbrev ValueLength := UInt64

/-- A byte outside the memory has been read, or an exception has been thrown. -/
inductive Failure where
  | outside
  | invalidValueType (what : String)
  | indexOutOfBounds
  | internalError (what : String)
  | needAttributeTranslator
  /-- `std::terminate` has been called. -/
  | terminate
  /-- The bytes of a string are no characters of a `String`. -/
  | notRepresentable
  /-- The recursion is deeper than the stack. -/
  | stackOverflow
deriving DecidableEq, Repr

/-- A computation that reads bytes. -/
abbrev Read := Except Failure

@[simp] theorem Read.ok_bind
    {α β : Type}
    (a : α)
    (f : α → Read β) :
    ((.ok a : Read α) >>= f) = f a := by
  rfl

@[simp] theorem Read.pure_eq_ok
    {α : Type}
    (a : α) :
    (pure a : Read α) = .ok a := by
  rfl

/-- A `double` in eight bytes, and the conversion of integers. -/
class StoredDouble (D : Type) where
  bits : D → UInt64
  ofBits : UInt64 → D
  ofInteger : Int → D
  /-- `memcpy` to the buffer and back. -/
  ofBits_bits : ∀ v, ofBits (bits v) = v

/-- Doubles given by their bits, to evaluate the program on examples. -/
@[reducible] def storedBits : StoredDouble UInt64 where
  bits v := v
  ofBits v := v
  ofInteger v := UInt64.ofNat v.toNat
  ofBits_bits _ := rfl

/-! ### Reading numbers -/

/-- `_start[offset]`. -/
def byteAt (start : Memory) (offset : ValueLength) : Read UInt8 :=
  match start[offset.toNat]? with
  | some b => .ok b
  | none => .error .outside

/-- The bytes from an offset on, all of which are read. -/
def bytesAt (start : Memory) (offset : ValueLength) (length : Nat) : Read Memory :=
  if offset.toNat + length ≤ start.length then
    .ok ((start.drop offset.toNat).take length)
  else
    .error .outside

/-- `readIntegerNonEmpty` and `readIntegerFixed`, at most eight bytes long. -/
def readInteger (start : Memory) (offset length : ValueLength) : Read UInt64 := do
  let read ← bytesAt start offset length.toNat
  return UInt64.ofNat (ofLittleEndian read)

/-- The number in front of the bytes. -/
def readGroups (source : Memory) : Read ValueLength :=
  match readLeb source with
  | some len => .ok (UInt64.ofNat len)
  | none => .error .outside

/-- `readVariableValueLength<false>`. -/
def readVariableValueLength (start : Memory) (offset : ValueLength) : Read ValueLength :=
  readGroups (start.drop offset.toNat)

/-- `readVariableValueLength<true>`, which reads backwards. -/
def readVariableValueLengthReverse (start : Memory) (offset : ValueLength) :
    Read ValueLength :=
  if offset.toNat < start.length then
    readGroups (start.take (offset.toNat + 1)).reverse
  else
    .error .outside

/-- `getVariableValueLength`. -/
def getVariableValueLength (value : ValueLength) : ValueLength :=
  UInt64.ofNat (leb value.toNat).length

/-- `memcmp` on as many bytes as both have. -/
def memcmp : Memory → Memory → Int
  | a :: l, b :: r => if a = b then memcmp l r else if a < b then -1 else 1
  | _, _ => 0

/-- `toInt64`. -/
def toInt64 (v : UInt64) : Int :=
  if 2 ^ 63 ≤ v.toNat then (v.toNat : Int) - 2 ^ 64 else v.toNat

/-! ### The tables of `SliceStaticData` -/

inductive ValueType where
  | none
  | illegal
  | null
  | bool
  | array
  | object
  | double
  | utcDate
  | external
  | minKey
  | maxKey
  | int
  | uint
  | smallInt
  | string
  | binary
  | bcd
  | custom
deriving DecidableEq, Repr

/-- `SliceStaticData::TypeMap`. -/
def typeMap (h : UInt8) : ValueType :=
  if h = 0x00 then .none
  else if h ≤ 0x09 then .array
  else if h ≤ 0x12 then .object
  else if h = 0x13 then .array
  else if h = 0x14 then .object
  else if h ≤ 0x16 then .none
  else if h = 0x17 then .illegal
  else if h = 0x18 then .null
  else if h ≤ 0x1a then .bool
  else if h = 0x1b then .double
  else if h = 0x1c then .utcDate
  else if h = 0x1d then .external
  else if h = 0x1e then .minKey
  else if h = 0x1f then .maxKey
  else if h ≤ 0x27 then .int
  else if h ≤ 0x2f then .uint
  else if h ≤ 0x3f then .smallInt
  else if h ≤ 0xbf then .string
  else if h ≤ 0xc7 then .binary
  else if h ≤ 0xd7 then .bcd
  else if h ≤ 0xef then .none
  else .custom

/-- `SliceStaticData::FixedTypeLengths`. -/
def fixedTypeLengths (h : UInt8) : Nat :=
  if h ≤ 0x01 then 1
  else if h = 0x0a then 1
  else if h ≤ 0x16 then 0
  else if h ≤ 0x1a then 1
  else if h ≤ 0x1d then 9
  else if h ≤ 0x1f then 1
  else if h ≤ 0x27 then h.toNat - 0x20 + 2
  else if h ≤ 0x2f then h.toNat - 0x28 + 2
  else if h ≤ 0x3f then 1
  else if h ≤ 0xbe then h.toNat - 0x40 + 1
  else if h ≤ 0xef then 0
  else if h = 0xf0 then 2
  else if h = 0xf1 then 3
  else if h = 0xf2 then 5
  else if h = 0xf3 then 9
  else 0

/-- `SliceStaticData::WidthMap`. -/
def widthMap (h : UInt8) : Nat :=
  [0, 1, 1, 2, 4, 8, 1, 2, 4, 8, 1, 1, 2, 4, 8, 1, 2, 4, 8].getD h.toNat 0

/-- `SliceStaticData::FirstSubMap`. -/
def firstSubMap (h : UInt8) : Nat :=
  [0, 1, 2, 3, 5, 9, 3, 5, 9, 9, 1, 3, 5, 9, 9, 3, 5, 9, 9].getD h.toNat 0

namespace Slice

/-- `Slice::noneSliceData`. -/
def noneSlice : Memory := [0x00]

def head (s : Memory) : Read UInt8 :=
  byteAt s 0

/-- A slice further on in the same memory. -/
def advance (s : Memory) (offset : ValueLength) : Memory :=
  s.drop offset.toNat

def isType (s : Memory) (t : ValueType) : Read Bool := do
  let h ← head s
  return typeMap h = t

def isNull (s : Memory) : Read Bool := isType s .null

def isBool (s : Memory) : Read Bool := isType s .bool

def isArray (s : Memory) : Read Bool := isType s .array

def isObject (s : Memory) : Read Bool := isType s .object

def isString (s : Memory) : Read Bool := isType s .string

def isNumber (s : Memory) : Read Bool := do
  let h ← head s
  let t := typeMap h
  return t = .int || t = .uint || t = .smallInt || t = .double

/-- Raise `Exception::InvalidValueType`. -/
def invalidValueType {α : Type} (what : String) : Read α :=
  .error (.invalidValueType what)

/-! ### Sizes and lengths -/

/-- The cases of `Slice::byteSize` whose size is written behind the head. -/
def variableByteSize (s : Memory) (h : UInt8) : Read ValueLength :=
  match typeMap h with
  | .array | .object =>
      if h = 0x13 || h = 0x14 then readVariableValueLength s 1
      else readInteger s 1 (UInt64.ofNat (widthMap h))
  | .string => do
      let length ← readInteger s 1 8
      return 1 + 8 + length
  | .binary => do
      let length ← readInteger s 1 (UInt64.ofNat (h.toNat - 0xbf))
      return UInt64.ofNat (1 + h.toNat - 0xbf) + length
  | .bcd => do
      let lengthSize := if h ≤ 0xcf then h.toNat - 0xc7 else h.toNat - 0xcf
      let length ← readInteger s 1 (UInt64.ofNat lengthSize)
      return UInt64.ofNat (1 + lengthSize) + length
  | .custom => do
      let lengthSize := if h ≤ 0xf6 then 1 else if h ≤ 0xf9 then 2 else if h ≤ 0xfc then 4 else 8
      let length ← readInteger s 1 lengthSize
      return 1 + lengthSize + length
  | _ => .error (.internalError "Invalid type for byteSize()")

/-- `Slice::byteSize`. -/
def byteSize (s : Memory) : Read ValueLength := do
  let h ← head s
  if fixedTypeLengths h ≠ 0 then
    return UInt64.ofNat (fixedTypeLengths h)
  else
    variableByteSize s h

/-- The offset, if the byte there is not padding, and what else there is otherwise. -/
def unlessPadding (s : Memory) (fsm : Nat) (offset : ValueLength)
    (otherwise : Read ValueLength) : Read ValueLength :=
  if fsm ≤ offset.toNat then do
    let b ← byteAt s offset
    if b ≠ 0 then return offset else otherwise
  else
    otherwise

/-- `Slice::findDataOffset`. -/
def findDataOffset (s : Memory) (h : UInt8) : Read ValueLength :=
  if firstSubMap h = 0 then do
    let total ← readVariableValueLength s 1
    return 1 + getVariableValueLength total
  else
    unlessPadding s (firstSubMap h) 2
      (unlessPadding s (firstSubMap h) 3
        (unlessPadding s (firstSubMap h) 5
          (.ok 9)))

/-- The number of subvalues of a compact compound. -/
def compactLength (s : Memory) : Read ValueLength := do
  let total ← readVariableValueLength s 1
  readVariableValueLengthReverse s (total - 1)

/-- The number of subvalues, in front of the subvalues or behind the index table. -/
def indexedLength (s : Memory) (offsetSize total : ValueLength) : Read ValueLength :=
  if offsetSize < 8 then readInteger s (1 + offsetSize) offsetSize
  else readInteger s (total - offsetSize) offsetSize

/-- The offset and the size of the first item of an array without an index table. -/
def firstItem (s : Memory) (h : UInt8) (what : String) :
    Read (ValueLength × ValueLength) := do
  let firstSubOffset ← findDataOffset s h
  let size ← byteSize (advance s firstSubOffset)
  if size = 0 then .error (.internalError what) else return (firstSubOffset, size)

/-- `Slice::length`. -/
def length (s : Memory) : Read ValueLength := do
  let h ← head s
  if typeMap h ≠ .array ∧ typeMap h ≠ .object then
    invalidValueType "Expecting type Array or Object"
  else if h = 0x01 ∨ h = 0x0a then
    return 0
  else if h = 0x13 ∨ h = 0x14 then
    compactLength s
  else
    let offsetSize := UInt64.ofNat (widthMap h)
    let total ← readInteger s 1 offsetSize
    if h ≤ 0x05 then
      let (firstSubOffset, size) ← firstItem s h "Invalid data for Array"
      return (total - firstSubOffset) / size
    else
      indexedLength s offsetSize total

/-- `Slice::arrayLength`. -/
def arrayLength (s : Memory) : Read ValueLength := do
  let h ← head s
  if h = 0x01 then
    return 0
  else if h = 0x13 then
    compactLength s
  else
    let offsetSize := UInt64.ofNat (widthMap h)
    if h ≤ 0x05 then
      let (firstSubOffset, size) ← firstItem s h "Invalid data for Array"
      let total ← readInteger s 1 offsetSize
      return (total - firstSubOffset) / size
    else if offsetSize < 8 then
      readInteger s (1 + offsetSize) offsetSize
    else
      let total ← readInteger s 1 offsetSize
      readInteger s (total - offsetSize) offsetSize

/-- `Slice::objectLength`. -/
def objectLength (s : Memory) : Read ValueLength := do
  let h ← head s
  if h = 0x0a then
    return 0
  else if h = 0x14 then
    compactLength s
  else
    let offsetSize := UInt64.ofNat (widthMap h)
    if offsetSize < 8 then
      readInteger s (1 + offsetSize) offsetSize
    else
      let total ← readInteger s 1 offsetSize
      readInteger s (total - offsetSize) offsetSize

/-! ### Items by index -/

/-- `Slice::getStartOffsetFromCompact`. -/
def getStartOffsetFromCompact (s : Memory) : Read ValueLength := do
  let total ← readVariableValueLength s 1
  return 1 + getVariableValueLength total

/-- The loop of `Slice::getNthOffsetFromCompact`. -/
def skipItems (s : Memory) (h : UInt8) : Nat → ValueLength → Read ValueLength
  | 0, offset => .ok offset
  | count + 1, offset => do
      let size ← byteSize (advance s offset)
      if h = 0x14 then
        let valueSize ← byteSize (advance s (offset + size))
        skipItems s h count (offset + size + valueSize)
      else
        skipItems s h count (offset + size)

/-- `Slice::getNthOffsetFromCompact`. -/
def getNthOffsetFromCompact (s : Memory) (index : ValueLength) : Read ValueLength := do
  let h ← head s
  let total ← readVariableValueLength s 1
  let n ← readVariableValueLengthReverse s (total - 1)
  if n ≤ index then .error .indexOutOfBounds
  else skipItems s h index.toNat (1 + getVariableValueLength total)

/-- `Slice::getNthOffset`, with an index table. -/
def getNthOffsetFromTable (s : Memory) (h : UInt8) (index : ValueLength) :
    Read ValueLength := do
  let offsetSize := UInt64.ofNat (widthMap h)
  let total ← readInteger s 1 offsetSize
  let n ← indexedLength s offsetSize total
  if n ≤ index then
    .error .indexOutOfBounds
  else if n = 1 then
    let dataOffset ← findDataOffset s h
    let size ← byteSize (advance s dataOffset)
    return dataOffset + index * size
  else
    let ieBase :=
      total - n * offsetSize + index * offsetSize - (if offsetSize = 8 then 8 else 0)
    readInteger s ieBase offsetSize

/-- `Slice::getNthOffset`. -/
def getNthOffset (s : Memory) (index : ValueLength) : Read ValueLength := do
  let h ← head s
  if h = 0x13 ∨ h = 0x14 then
    getNthOffsetFromCompact s index
  else if h = 0x01 ∨ h = 0x0a then
    .error .indexOutOfBounds
  else if h ≤ 0x05 then
    let total ← readInteger s 1 (UInt64.ofNat (widthMap h))
    let (dataOffset, size) ← firstItem s h "Invalid data for compact object"
    if (total - dataOffset) / size ≤ index then .error .indexOutOfBounds
    else return dataOffset + index * size
  else
    getNthOffsetFromTable s h index

/-- `Slice::makeKey`. -/
def makeKey (s : Memory) : Read Memory := do
  let h ← head s
  match typeMap h with
  | .string => return s
  | .smallInt | .uint => .error .needAttributeTranslator
  | _ => invalidValueType "Cannot translate key of this type"

/-- The slice behind a slice. -/
def behind (s : Memory) : Read Memory := do
  let size ← byteSize s
  return advance s size

/-! ### Strings -/

/-- `Slice::getString`, as the bytes of the string. -/
def getString (s : Memory) : Read Memory := do
  let h ← head s
  if 0x40 ≤ h && h ≤ 0xbe then
    bytesAt s 1 (h.toNat - 0x40)
  else if h = 0xbf then
    let length ← readInteger s 1 8
    bytesAt s 9 length.toNat
  else
    invalidValueType "Expecting type String"

/-- `Slice::getStringUnchecked`, as the bytes of the string. -/
def getStringUnchecked (s : Memory) : Read Memory := do
  let h ← head s
  if 0x40 ≤ h && h ≤ 0xbe then
    bytesAt s 1 (h.toNat - 0x40)
  else
    let length ← readInteger s 1 8
    bytesAt s 9 length.toNat

/-- `Slice::compareStringUnchecked`, with the cast of the difference to `int`. -/
def compareStringUnchecked (s value : Memory) : Read Int := do
  let k ← getStringUnchecked s
  let res := memcmp k value
  if res = 0 then return ((k.length : Int) - value.length).bmod (2 ^ 32)
  else return res

/-- `Slice::isEqualString`. -/
def isEqualString (s attributeName : Memory) : Read Bool := do
  let k ← getString s
  return k == attributeName

/-- `Slice::isEqualStringUnchecked`. -/
def isEqualStringUnchecked (s attributeName : Memory) : Read Bool := do
  let k ← getStringUnchecked s
  return k == attributeName

end Slice

/-! ### Iterators -/

/-- `ArrayIterator`; `current` is none for `nullptr`. -/
structure ArrayIterator where
  slice : Memory
  size : ValueLength
  position : ValueLength
  current : Option Memory

namespace ArrayIterator

open VPack.Slice

/-- The constructor. -/
def ofSlice (s : Memory) : Read ArrayIterator := do
  let h ← head s
  if typeMap h ≠ .array then
    invalidValueType "Expecting Array slice"
  else
    let size ← arrayLength s
    if size = 0 then
      return ⟨s, size, 0, none⟩
    else if h = 0x13 then
      let offset ← getStartOffsetFromCompact s
      return ⟨s, size, 0, some (advance s offset)⟩
    else
      let offset ← findDataOffset s h
      return ⟨s, size, 0, some (advance s offset)⟩

/-- `operator++`. -/
def next (iter : ArrayIterator) : Read ArrayIterator := do
  let position := iter.position + 1
  match iter.current with
  | some current =>
      if position < iter.size then
        let current ← behind current
        return { iter with position := position, current := some current }
      else
        return { iter with position := position, current := none }
  | none => return { iter with position := position, current := none }

/-- `operator*`. -/
def value (iter : ArrayIterator) : Read Memory :=
  match iter.current with
  | some current => .ok current
  | none => do
      let offset ← getNthOffset iter.slice iter.position
      return advance iter.slice offset

/-- The slices a loop over the range visits. -/
def valuesLoop : Nat → ArrayIterator → Read (List Memory)
  | 0, _ => .ok []
  | count + 1, iter => do
      let current ← value iter
      let iter ← next iter
      let rest ← valuesLoop count iter
      return current :: rest

def values (s : Memory) : Read (List Memory) := do
  let iter ← ofSlice s
  valuesLoop iter.size.toNat iter

end ArrayIterator

/-- `ObjectIterator`; `current` is none for `nullptr`. -/
structure ObjectIterator where
  slice : Memory
  size : ValueLength
  position : ValueLength
  current : Option Memory

namespace ObjectIterator

open VPack.Slice

/-- The constructor. -/
def ofSlice (s : Memory) (useSequentialIteration : Bool) : Read ObjectIterator := do
  let h ← head s
  if typeMap h ≠ .object then
    invalidValueType "Expecting Object slice"
  else
    let size ← objectLength s
    if size = 0 then
      return ⟨s, size, 0, none⟩
    else if h = 0x14 then
      let offset ← getStartOffsetFromCompact s
      return ⟨s, size, 0, some (advance s offset)⟩
    else if useSequentialIteration then
      let offset ← findDataOffset s h
      return ⟨s, size, 0, some (advance s offset)⟩
    else
      return ⟨s, size, 0, none⟩

/-- `operator++`. -/
def next (iter : ObjectIterator) : Read ObjectIterator := do
  let position := iter.position + 1
  match iter.current with
  | some current =>
      if position < iter.size then
        let current ← behind current
        let current ← behind current
        return { iter with position := position, current := some current }
      else
        return { iter with position := position, current := none }
  | none => return { iter with position := position, current := none }

/-- `operator*`: the key and the value. -/
def pair (iter : ObjectIterator) : Read (Memory × Memory) :=
  match iter.current with
  | some current => do
      let value ← behind current
      return (← makeKey current, value)
  | none => do
      let offset ← getNthOffset iter.slice iter.position
      let key := advance iter.slice offset
      let value ← behind key
      return (← makeKey key, value)

/-- The keys and values a loop over the range visits. -/
def pairsLoop : Nat → ObjectIterator → Read (List (Memory × Memory))
  | 0, _ => .ok []
  | count + 1, iter => do
      let current ← pair iter
      let iter ← next iter
      let rest ← pairsLoop count iter
      return current :: rest

def pairs (s : Memory) (useSequentialIteration : Bool) :
    Read (List (Memory × Memory)) := do
  let iter ← ofSlice s useSequentialIteration
  pairsLoop iter.size.toNat iter

end ObjectIterator

namespace Slice

/-! ### Attributes -/

/-- The loop of `Slice::getFromCompactObject`. -/
def getFromCompactLoop (attributeName : Memory) : Nat → ObjectIterator → Read Memory
  | 0, _ => .ok noneSlice
  | count + 1, iter => do
      -- the iterator of a compact object always has a current item
      let key := iter.current.getD []
      if ← isEqualString (← makeKey key) attributeName then
        behind key
      else
        getFromCompactLoop attributeName count (← iter.next)

/-- `Slice::getFromCompactObject`. -/
def getFromCompactObject (s attributeName : Memory) : Read Memory := do
  let iter ← ObjectIterator.ofSlice s false
  getFromCompactLoop attributeName iter.size.toNat iter

/-- `Slice::searchObjectKeyLinear`, from an entry of the index table on. -/
def searchLinearLoop (s attributeName : Memory) (ieBase offsetSize : ValueLength) :
    Nat → ValueLength → Read Memory
  | 0, _ => .ok noneSlice
  | count + 1, index => do
      let offset ← readInteger s (ieBase + index * offsetSize) offsetSize
      let key := advance s offset
      let h ← head key
      match typeMap h with
      | .string =>
          if ← isEqualStringUnchecked key attributeName then
            behind key
          else
            searchLinearLoop s attributeName ieBase offsetSize count (index + 1)
      | .smallInt | .uint => .error .needAttributeTranslator
      | _ => return noneSlice

/-- `Slice::searchObjectKeyLinear`. -/
def searchObjectKeyLinear (s attributeName : Memory)
    (ieBase offsetSize n : ValueLength) : Read Memory :=
  searchLinearLoop s attributeName ieBase offsetSize n.toNat 0

/-- The body of the loop of `Slice::searchObjectKeyBinary`, up to the comparison. -/
def probe (s attributeName : Memory) (ieBase offsetSize : ValueLength) (index : Int) :
    Read (Int × Memory) := do
  let offset ←
    readInteger s (ieBase + UInt64.ofNat index.toNat * offsetSize) offsetSize
  let key := advance s offset
  if ← isString key then
    let res ← compareStringUnchecked key attributeName
    return (res, key)
  else
    .error .needAttributeTranslator

/-- `Slice::searchObjectKeyBinary`. -/
def searchObjectKeyBinary (s attributeName : Memory)
    (ieBase offsetSize n : ValueLength) : Read Memory := do
  match ← BinarySearch.search (probe s attributeName ieBase offsetSize) n.toNat with
  | some key => behind key
  | none => return noneSlice

/-- `Slice::get`, on an object with an index table. -/
def getFromTable (s attributeName : Memory) (h : UInt8) : Read Memory := do
  let offsetSize := UInt64.ofNat (widthMap h)
  let total ← readInteger s 1 offsetSize
  let n ← indexedLength s offsetSize total
  let ieBase :=
    if offsetSize < 8 then total - n * offsetSize
    else total - n * offsetSize - offsetSize
  if n = 1 then
    let offset ← findDataOffset s h
    let key := advance s offset
    let keyHead ← head key
    match typeMap keyHead with
    | .string =>
        if ← isEqualStringUnchecked key attributeName then behind key
        else return noneSlice
    | .smallInt | .uint => .error .needAttributeTranslator
    | _ => return noneSlice
  else if 4 ≤ n ∧ 0x0b ≤ h ∧ h ≤ 0x0e then
    searchObjectKeyBinary s attributeName ieBase offsetSize n
  else
    searchObjectKeyLinear s attributeName ieBase offsetSize n

/-- `Slice::get`. -/
def get (s attributeName : Memory) : Read Memory := do
  let h ← head s
  if typeMap h ≠ .object then
    invalidValueType "Expecting Object"
  else if h = 0x0a then
    return noneSlice
  else if h = 0x14 then
    getFromCompactObject s attributeName
  else
    getFromTable s attributeName h

/-! ### Values -/

/-- `Slice::getBool`. -/
def getBool (s : Memory) : Read Bool := do
  let h ← head s
  if typeMap h = .bool then return h = 0x1a else invalidValueType "Expecting type Bool"

/-- `Slice::copyString`. -/
def copyString (s : Memory) : Read String := do
  let k ← getString s
  match String.fromUTF8? ⟨k.toArray⟩ with
  | some value => return value
  | none => .error .notRepresentable

/-- `Slice::getIntUnchecked`. -/
def getIntUnchecked (s : Memory) (h : UInt8) : Read Int :=
  if 0x20 ≤ h ∧ h ≤ 0x27 then do
    let v ← readInteger s 1 (UInt64.ofNat (h.toNat - 0x1f))
    let shift : Int := 2 ^ (8 * (h.toNat - 0x1f) - 1)
    if h = 0x27 then return toInt64 v
    else if (v.toNat : Int) < shift then return v.toNat
    else return (v.toNat : Int) - 2 * shift
  else if h ≤ 0x39 then
    return (h.toNat : Int) - 0x30
  else
    return (h.toNat : Int) - 0x3a - 6

/-- `Slice::getUIntUnchecked`. -/
def getUIntUnchecked (s : Memory) (h : UInt8) : Read UInt64 :=
  readInteger s 1 (UInt64.ofNat (h.toNat - 0x27))

variable {D : Type} [StoredDouble D]

/-- `Slice::getNumber<double>`. -/
def getNumber (s : Memory) : Read D := do
  let h ← head s
  match typeMap h with
  | .double => do
      let v ← readInteger s 1 8
      return StoredDouble.ofBits v
  | .int | .smallInt => do
      let v ← getIntUnchecked s h
      return StoredDouble.ofInteger v
  | .uint => do
      let v ← getUIntUnchecked s h
      return StoredDouble.ofInteger v.toNat
  | _ => invalidValueType "Expecting numeric type"

/-- `node::from_slice`, on a stack that has room for so many calls. -/
def nodeFromSlice : Nat → Memory → Read (Node D)
  | 0, _ => .error .stackOverflow
  | depth + 1, s => do
      if ← isNumber s then
        let value ← getNumber s
        return .double value
      else if ← isString s then
        let value ← copyString s
        return .string value
      else if ← isBool s then
        let value ← getBool s
        return .bool value
      else if ← isObject s then
        let members ← ObjectIterator.pairs s false
        let container ← members.foldlM
          (fun container member => do
            let key ← copyString member.1
            let value ← nodeFromSlice depth member.2
            return AssocMap.set container key (some value)) []
        return .object container
      else if ← isArray s then
        let members ← ArrayIterator.values s
        let container ← members.mapM fun member => do
          let value ← nodeFromSlice depth member
          return some value
        return .array container
      else if ← isNull s then
        return .null
      else
        .error .terminate

end Slice

end VPack
end AgencyNode
