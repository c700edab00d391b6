import Mathlib.Data.List.Sort
import AgencyNode.VPackSlice
import AgencyNode.NodeText
import AgencyNode.Lib.Frames

/-!
# The builder, byte by byte

`velocypack::Builder` appends values to a buffer.  An array or an object is opened
with a header of nine bytes, and the builder remembers where it starts and at
which offsets its subvalues follow.  `close` then chooses the layout: it moves the
subvalues down where the header needs less room, appends an index table where one
is needed, and fills in the header.

`encode` is what the calls for a value append, whatever has been written before
and whatever is open around it.
-/

namespace AgencyNode
namespace VPack

open Lib Lib.ByteIntegers Lib.Frames

inductive PaddingBehavior where
  | usePadding
  | noPadding
  | flexible
deriving DecidableEq, Repr

/-- `velocypack::Options`, as far as the layout depends on them. -/
structure Options where
  paddingBehavior : PaddingBehavior := .flexible
  buildUnindexedArrays : Bool := false
  buildUnindexedObjects : Bool := false

/-- `std::sort` on named offsets: of equal names, any may come first. -/
class StdSort where
  sort : List (Memory × Nat) → List (Memory × Nat)
  perm : ∀ entries, (sort entries).Perm entries
  sorted : ∀ entries, (sort entries).Pairwise fun a b => a.1 ≤ b.1

/-- A stable sort; `std::sort` need not be one. -/
@[reducible] def stableSort : StdSort where
  sort entries := entries.insertionSort fun a b => a.1 ≤ b.1
  perm entries := List.perm_insertionSort _ entries
  sorted entries := by
    have htrans : IsTrans (Memory × Nat) fun a b => a.1 ≤ b.1 :=
      ⟨fun _ _ _ hab hbc => List.le_trans hab hbc⟩
    have htotal : @Std.Total (Memory × Nat) fun a b => a.1 ≤ b.1 :=
      ⟨fun a b => List.le_total a.1 b.1⟩
    exact List.pairwise_insertionSort _ entries

variable {D : Type}

/-! ### Single values -/

/-- A string, with its length in the head or behind it. -/
def stringData (name : Memory) : Memory :=
  if name.length ≤ 126 then
    UInt8.ofNat (0x40 + name.length) :: name
  else
    0xbf :: (littleEndian 8 name.length ++ name)

/-- `Builder::addDouble`. -/
def doubleData [StoredDouble D] (v : D) : Memory :=
  0x1b :: littleEndian 8 (StoredDouble.bits v).toNat

/-- `Slice::nullSliceData`. -/
def nullSliceData : Memory := [0x18]

def boolData (v : Bool) : Memory :=
  if v then [0x1a] else [0x19]

/-- `findAttrName`, for keys that are strings, as `checkKeyIsString` sees to. -/
def findAttrName (base : Memory) : Memory :=
  match base with
  | [] => []
  | b :: rest =>
      if 0x40 ≤ b ∧ b ≤ 0xbe then rest.take (b.toNat - 0x40)
      else (rest.drop 8).take (ofLittleEndian (rest.take 8))

/-! ### Closing -/

/-- `Builder::sortObjectIndex`. -/
def sortObjectIndex [StdSort] (objBase : Memory) (offsets : List Nat) : List Nat :=
  (StdSort.sort (offsets.map fun offset =>
    (findAttrName (objBase.drop offset), offset))).map Prod.snd

/-- `Builder::closeEmptyArrayOrObject`, with the bytes of the compound. -/
def closeEmptyArrayOrObject (start : Memory) (isArray : Bool) : Memory :=
  (overwrite start 0 [if isArray then 0x01 else 0x0a]).take (start.length - 8)

/-- `Builder::closeCompactArrayOrObject`: nothing if the length takes nine bytes. -/
def closeCompactArrayOrObject (start : Memory) (isArray : Bool) (index : List Nat) :
    Option Memory :=
  let nLen := (leb index.length).length
  let size := start.length - 8 + nLen
  let bLen := (leb size).length
  let fits := (leb (size + bLen)).length = bLen
  let byteSize := if fits then size + bLen else size + bLen + 1
  let bLen := if fits then bLen else bLen + 1
  if bLen < 9 then
    let moved := start.take (1 + bLen) ++ start.drop 9
    let start := overwrite moved 0 [if isArray then 0x13 else 0x14]
    let start := overwrite start 1 (leb byteSize)
    let start := start ++ List.replicate nLen 0
    some (overwrite start (byteSize - nLen) (leb index.length).reverse)
  else
    none

/-- Where the index table and the number of subvalues go when a compound is closed. -/
structure Plan where
  head : UInt8
  needIndexTable : Bool
  needNrSubs : Bool
  offsetSize : Nat
  /-- Where the subvalues start, below 9 if they are moved down. -/
  targetPos : Nat

/-- The bytes with the subvalues moved down. -/
def Plan.moveDown (plan : Plan) (start : Memory) : Memory :=
  start.take plan.targetPos ++ start.drop 9

/-- What is added to the head for a width. -/
def widthStep (offsetSize : Nat) : UInt8 :=
  if offsetSize = 1 then 0 else if offsetSize = 2 then 1 else if offsetSize = 4 then 2 else 3

/--
The end of `Builder::closeArray` and of `Builder::close`, from the index table on:
the table, the head, the byte length and the number of subvalues.
-/
def Plan.finish (plan : Plan) (index : List Nat) (start : Memory) : Memory :=
  let start :=
    if plan.needIndexTable then start ++ index.flatMap (littleEndian plan.offsetSize)
    else start
  let start := overwrite start 0 [plan.head + widthStep plan.offsetSize]
  let start :=
    if plan.offsetSize = 8 ∧ plan.needNrSubs then start ++ littleEndian 8 index.length
    else start
  let start := overwrite start 1 (littleEndian plan.offsetSize start.length)
  if plan.offsetSize < 8 ∧ plan.needNrSubs then
    overwrite start (1 + plan.offsetSize) (littleEndian plan.offsetSize index.length)
  else
    start

/-- All items are as long as the first one. -/
def sameLengths (size : Nat) (index : List Nat) : Bool :=
  let subLen := index.getD 1 0 - index.getD 0 0
  size - index.getD 0 0 = index.length * subLen &&
    (size - index.getD (index.length - 1) 0 = subLen &&
      (List.range (index.length - 2)).all fun i =>
        index.getD (i + 2) 0 - index.getD (i + 1) 0 = subLen)

/-- The layout `Builder::closeArray` chooses for `size` bytes. -/
def arrayPlan (options : Options) (start : Memory) (index : List Nat) : Plan :=
  let size := start.length
  let n := index.length
  let need := !(n = 1 || sameLengths size index)
  let offsetSize :=
    if size + (if need then n else 0) - (if need then 6 else 7) ≤ 0xff then 1
    else if size + (if need then 2 * n else 0) ≤ 0xffff then 2
    else if size + (if need then 4 * n else 0) ≤ 0xffffffff then 4
    else 8
  let offsetSize :=
    if offsetSize < 8 ∧ !need ∧ options.paddingBehavior = .usePadding then 8 else offsetSize
  let allowMemMove :=
    offsetSize ≤ 2 ∧
      (options.paddingBehavior = .noPadding ∨
        offsetSize = 1 ∧ options.paddingBehavior = .flexible) ∧
      (index.take (8 - 2 * offsetSize)).all fun offset => start.getD offset 0 ≠ 0x00
  { head := if need then 0x06 else 0x02
    needIndexTable := need
    needNrSubs := need
    offsetSize := offsetSize
    targetPos :=
      if allowMemMove then 1 + 2 * offsetSize - (if need then 0 else offsetSize) else 9 }

/-- `Builder::closeArray`. -/
def closeArray (options : Options) (start : Memory) (index : List Nat) : Memory :=
  let plan := arrayPlan options start index
  plan.finish (index.map (· - (9 - plan.targetPos))) (plan.moveDown start)

/-- The layout `Builder::close` chooses for an object of `size` bytes. -/
def objectPlan (options : Options) (size n : Nat) : Plan :=
  let offsetSize :=
    if size + n - 6 ≤ 0xff then 1
    else if size + 2 * n ≤ 0xffff then 2
    else if size + 4 * n ≤ 0xffffffff then 4
    else 8
  { head := 0x0b
    needIndexTable := true
    needNrSubs := true
    offsetSize := offsetSize
    targetPos :=
      if offsetSize < 4 ∧
          (options.paddingBehavior = .noPadding ∨
            offsetSize = 1 ∧ options.paddingBehavior = .flexible) then
        1 + 2 * offsetSize
      else 9 }

/-- The rest of `Builder::close`, for objects that are not compact. -/
def closeObject [StdSort] (options : Options) (start : Memory) (index : List Nat) : Memory :=
  let plan := objectPlan options start.length index.length
  let start := plan.moveDown start
  let index := index.map (· - (9 - plan.targetPos))
  plan.finish (if 2 ≤ index.length then sortObjectIndex start index else index) start

/-- `Builder::close`, with the bytes from the compound on. -/
def closeCompound [StdSort] (options : Options) (start : Memory) (index : List Nat) :
    Memory :=
  let head := start.getD 0 0
  let isArray : Bool := head = 0x06 || head = 0x13
  if index.isEmpty then
    closeEmptyArrayOrObject start isArray
  else
    let compact :=
      head = 0x13 ∨ head = 0x14 ∨ head = 0x06 ∧ options.buildUnindexedArrays ∨
        head = 0x0b ∧ (options.buildUnindexedObjects ∨ index.length = 1)
    match if compact then closeCompactArrayOrObject start isArray index else none with
    | some closed => closed
    | none =>
        if isArray then closeArray options start index else closeObject options start index

/-! ### The builder -/

/-- `Builder::openArray` and `Builder::openObject`: the header before it is filled in. -/
def openHeader (type : UInt8) : Memory :=
  type :: List.replicate 8 0

/-- What `Builder::set` is given. -/
inductive Value (D : Type) where
  | bool (v : Bool)
  | double (v : D)
  | string (v : String)
  /-- `Slice::nullSlice()`. -/
  | nullSlice

/-- The exceptions of `Builder`. -/
inductive BuilderException where
  | needOpenArray
  | needOpenCompound
  | keyMustBeString
deriving DecidableEq, Repr

/-- An open array or object: where it starts, and the offsets of its subvalues. -/
structure OpenCompound where
  tos : Nat
  index : List Nat

/-- The buffer, the open compounds from the innermost on, and whether a key is due. -/
structure Builder where
  buffer : Memory
  stack : List OpenCompound
  keyWritten : Bool

namespace Builder

/-- A new builder. -/
def empty : Builder := ⟨[], [], false⟩

def objectHead (h : UInt8) : Bool :=
  h = 0x0b || h = 0x14

/-- `Builder::isOpenObject`. -/
def isOpenObject (b : Builder) : Bool :=
  match b.stack with
  | [] => false
  | top :: _ => objectHead (b.buffer.getD top.tos 0)

/-- `Builder::checkKeyIsString`. -/
def checkKeyIsString (isString : Bool) (b : Builder) : Except BuilderException Builder :=
  if b.isOpenObject then
    if !b.keyWritten && !isString then .error .keyMustBeString
    else .ok { b with keyWritten := !b.keyWritten }
  else
    .ok b

/-- `Builder::reportAdd`. -/
def reportAdd (b : Builder) : Builder :=
  match b.stack with
  | [] => b
  | top :: rest =>
      { b with
        stack := { top with index := top.index ++ [b.buffer.length - top.tos] } :: rest }

def append (bytes : Memory) (b : Builder) : Builder :=
  { b with buffer := b.buffer ++ bytes }

/-- The bytes of a value that is not a compound. -/
def scalarData [StoredDouble D] : Value D → Memory
  | .bool v => boolData v
  | .double v => doubleData v
  | .string v => stringData (FlatStore.bytes v)
  | .nullSlice => nullSliceData

def isString : Value D → Bool
  | .string _ => true
  | _ => false

/-- `Builder::set`. -/
def set [StoredDouble D] (item : Value D) (b : Builder) :
    Except BuilderException Builder := do
  let b ← b.checkKeyIsString (isString item)
  return b.append (scalarData item)

/-- `Builder::addInternal`; the entry that was reported goes if `set` throws. -/
def add [StoredDouble D] (sub : Value D) (b : Builder) : Except BuilderException Builder :=
  set sub (if b.keyWritten then b else b.reportAdd)

/-- `Builder::addCompoundValue`. -/
def addCompoundValue (type : UInt8) (b : Builder) : Builder :=
  { b with
    buffer := b.buffer ++ openHeader type
    stack := ⟨b.buffer.length, []⟩ :: b.stack }

/-- `Builder::openCompoundValue`. -/
def openCompoundValue (type : UInt8) (b : Builder) : Except BuilderException Builder :=
  match b.stack with
  | [] => .ok (b.addCompoundValue type)
  | _ :: _ =>
      if b.keyWritten then
        .ok ({ b with keyWritten := false }.addCompoundValue type)
      else if b.isOpenObject then
        .error .needOpenArray
      else
        .ok (b.reportAdd.addCompoundValue type)

/-- `Builder::openArray`. -/
def openArray (b : Builder) : Except BuilderException Builder :=
  b.openCompoundValue 0x06

/-- `Builder::openObject`. -/
def openObject (b : Builder) : Except BuilderException Builder :=
  b.openCompoundValue 0x0b

/-- `Builder::close`. -/
def close [StdSort] (options : Options) (b : Builder) : Except BuilderException Builder :=
  match b.stack with
  | [] => .error .needOpenCompound
  | top :: rest =>
      .ok { b with
        buffer := b.buffer.take top.tos ++
          closeCompound options (b.buffer.drop top.tos) top.index
        stack := rest }

variable [StdSort] [StoredDouble D]

mutual

/-- The calls of `into_builder` for a node that holds the value. -/
def addValue (options : Options) : Json D → Builder → Except BuilderException Builder
  | .null, b => b.add (D := D) .nullSlice
  | .bool v, b => b.add (D := D) (.bool v)
  | .number v, b => b.add (.double v)
  | .string v, b => b.add (D := D) (.string v)
  | .array elements, b => do
      let b ← b.openArray
      let b ← addElements options elements b
      b.close options
  | .object members, b => do
      let b ← b.openObject
      let b ← addMembers options members b
      b.close options

def addElements (options : Options) :
    List (Json D) → Builder → Except BuilderException Builder
  | [], b => .ok b
  | element :: elements, b => do
      let b ← addValue options element b
      addElements options elements b

def addMembers (options : Options) :
    List (String × Json D) → Builder → Except BuilderException Builder
  | [], b => .ok b
  | member :: members, b => do
      let b ← addMember options member b
      addMembers options members b

def addMember (options : Options) :
    String × Json D → Builder → Except BuilderException Builder
  | (key, value), b => do
      let b ← b.add (D := D) (.string key)
      addValue options value b

end

end Builder

/-! ### What is appended for a value -/

section Encode

variable [StdSort] [StoredDouble D]

mutual

/-- The bytes of a value. -/
def encode (options : Options) : Json D → Memory
  | .null => nullSliceData
  | .bool v => boolData v
  | .number v => doubleData v
  | .string v => stringData (FlatStore.bytes v)
  | .array elements =>
      closeCompound options
        (openHeader 0x06 ++ (encodeElements options elements).flatten)
        (offsets 9 (encodeElements options elements))
  | .object members =>
      closeCompound options
        (openHeader 0x0b ++ (encodeMembers options members).flatten)
        (offsets 9 (encodeMembers options members))

def encodeElements (options : Options) : List (Json D) → List Memory
  | [] => []
  | element :: elements => encode options element :: encodeElements options elements

/-- The bytes of the members, each its key and its value. -/
def encodeMembers (options : Options) : List (String × Json D) → List Memory
  | [] => []
  | member :: members => encodeMember options member :: encodeMembers options members

def encodeMember (options : Options) : String × Json D → Memory
  | (key, value) => stringData (FlatStore.bytes key) ++ encode options value

end

theorem encodeElements_eq
    (options : Options)
    (elements : List (Json D)) :
    encodeElements options elements = elements.map (encode options) := by
  induction elements with
  | nil => rfl
  | cons element elements ih => rw [encodeElements, ih, List.map_cons]

theorem encodeMembers_eq
    (options : Options)
    (members : List (String × Json D)) :
    encodeMembers options members = members.map (encodeMember options) := by
  induction members with
  | nil => rfl
  | cons member members ih => rw [encodeMembers, ih, List.map_cons]

end Encode

end VPack
end AgencyNode
