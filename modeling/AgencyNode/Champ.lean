import AgencyNode.ImmerMap
import AgencyNode.Lib.PackedArray

/-!
# immer::map as a trie

The compressed hash trie behind `immer::map<std::string, V>`, translated from
`detail/hamts`.  An inner node packs its values and its children under two
bitmaps; the nodes `maxDepth` levels below the root are lists of colliding
entries.  The number of levels below a node is part of its type, so `shift` is a
function of it and `shift == max_shift` is the case of no levels.

The result of an operation is `none` where an assertion fails, an array is read
outside its bounds or `IMMER_UNREACHABLE` is reached.
-/

namespace AgencyNode

open Lib

namespace Hamts

open ImmerMap (bits branches maxDepth)
open PackedArray (popcount)

/-- `hash_t`. -/
abbrev HashT := BitVec 64

/-- `bitmap_t`. -/
abbrev BitmapT := BitVec 32

/-- `mask<B>`. -/
def mask : HashT :=
  BitVec.ofNat 64 (branches - 1)

/-- The `shift_t` of the nodes with that many levels below them. -/
def shift (levels : Nat) : Nat :=
  bits * (maxDepth - levels)

/-- `node::inner_t`. -/
structure Inner (T C : Type) where
  nodemap : BitmapT
  datamap : BitmapT
  values : List T
  children : List C

/-- `node_t`: a `collision_t` on the last level, an `inner_t` above. -/
def NodeT (T : Type) : Nat → Type
  | 0 => List T
  | levels + 1 => Inner T (NodeT T levels)

variable {T : Type} {levels : Nat}

namespace NodeT

def collisions (node : NodeT T 0) : List T := node

def nodemap (node : NodeT T (levels + 1)) : BitmapT := Inner.nodemap node

def datamap (node : NodeT T (levels + 1)) : BitmapT := Inner.datamap node

def values (node : NodeT T (levels + 1)) : List T := Inner.values node

def children (node : NodeT T (levels + 1)) : List (NodeT T levels) :=
  Inner.children node

/-- An inner node with all its parts. -/
def inner
    (nodemap datamap : BitmapT)
    (values : List T)
    (children : List (NodeT T levels)) : NodeT T (levels + 1) :=
  Inner.mk nodemap datamap values children

/-- A collision node with its entries. -/
def collision (entries : List T) : NodeT T 0 := entries

@[simp] theorem collisions_collision (entries : List T) :
    (collision entries).collisions = entries := rfl

section

variable (nm dm : BitmapT) (vs : List T) (cs : List (NodeT T levels))

@[simp] theorem nodemap_inner : (inner nm dm vs cs).nodemap = nm := rfl

@[simp] theorem datamap_inner : (inner nm dm vs cs).datamap = dm := rfl

@[simp] theorem values_inner : (inner nm dm vs cs).values = vs := rfl

@[simp] theorem children_inner : (inner nm dm vs cs).children = cs := rfl

end

end NodeT

open NodeT

/-! ## node.hpp -/

/-- `assert`. -/
def assert (p : Prop) [Decidable p] : Option Unit :=
  if p then some () else none

theorem assert_eq_some
    {p : Prop}
    [Decidable p]
    (h : p) :
    assert p = some () := by
  exact if_pos h

/-- The assertions of `make_inner_n`. -/
def makeInnerN (n nv : Nat) : Option Unit := do
  assert (n ≤ branches)
  assert (nv ≤ branches)

/-- `make_collision_n`. -/
def makeCollisionN (n : Nat) : Option Unit :=
  assert (n ≤ branches)

/-- `copy_collision_insert`. -/
def copyCollisionInsert (src : NodeT T 0) (v : T) : Option (NodeT T 0) := do
  makeCollisionN (src.collisions.length + 1)
  return collision (v :: src.collisions)

/-- `copy_collision_remove`. -/
def copyCollisionRemove (src : NodeT T 0) (v : Nat) : Option (NodeT T 0) := do
  assert (src.collisions.length > 1)
  makeCollisionN (src.collisions.length - 1)
  return collision (src.collisions.take v ++ src.collisions.drop (v + 1))

/-- `copy_collision_replace`. -/
def copyCollisionReplace
    (src : NodeT T 0)
    (pos : Nat)
    (v : T) : Option (NodeT T 0) := do
  makeCollisionN src.collisions.length
  assert (pos < src.collisions.length)
  return collision (v :: (src.collisions.take pos ++ src.collisions.drop (pos + 1)))

/-- `copy_inner_replace`. -/
def copyInnerReplace
    (src : NodeT T (levels + 1))
    (offset : Nat)
    (child : NodeT T levels) : Option (NodeT T (levels + 1)) := do
  makeInnerN (popcount src.nodemap) 0
  assert (offset < src.children.length)
  return inner src.nodemap src.datamap src.values (src.children.set offset child)

/-- `copy_inner_replace_value`. -/
def copyInnerReplaceValue
    (src : NodeT T (levels + 1))
    (offset : Nat)
    (v : T) : Option (NodeT T (levels + 1)) := do
  assert (offset < popcount src.datamap)
  makeInnerN (popcount src.nodemap) (popcount src.datamap)
  return inner src.nodemap src.datamap (src.values.set offset v) src.children

/-- `copy_inner_replace_merged`. -/
def copyInnerReplaceMerged
    (src : NodeT T (levels + 1))
    (bit : BitmapT)
    (voffset : Nat)
    (node : NodeT T levels) : Option (NodeT T (levels + 1)) := do
  assert (src.nodemap &&& bit = 0#32)
  assert (src.datamap &&& bit ≠ 0#32)
  assert (voffset = popcount (src.datamap &&& (bit - 1#32)))
  makeInnerN (popcount src.nodemap + 1) (popcount src.datamap - 1)
  let noffset := popcount (src.nodemap &&& (bit - 1#32))
  return inner (src.nodemap ||| bit) (src.datamap &&& ~~~bit)
    (src.values.take voffset ++ src.values.drop (voffset + 1))
    (src.children.take noffset ++ node :: src.children.drop noffset)

/-- `copy_inner_replace_inline`. -/
def copyInnerReplaceInline
    (src : NodeT T (levels + 1))
    (bit : BitmapT)
    (noffset : Nat)
    (value : T) : Option (NodeT T (levels + 1)) := do
  assert (src.datamap &&& bit = 0#32)
  assert (src.nodemap &&& bit ≠ 0#32)
  assert (noffset = popcount (src.nodemap &&& (bit - 1#32)))
  makeInnerN (popcount src.nodemap - 1) (popcount src.datamap + 1)
  let voffset := popcount (src.datamap &&& (bit - 1#32))
  return inner (src.nodemap &&& ~~~bit) (src.datamap ||| bit)
    (src.values.take voffset ++ value :: src.values.drop voffset)
    (src.children.take noffset ++ src.children.drop (noffset + 1))

/-- `copy_inner_remove_value`. -/
def copyInnerRemoveValue
    (src : NodeT T (levels + 1))
    (bit : BitmapT)
    (voffset : Nat) : Option (NodeT T (levels + 1)) := do
  assert (src.nodemap &&& bit = 0#32)
  assert (src.datamap &&& bit ≠ 0#32)
  assert (voffset = popcount (src.datamap &&& (bit - 1#32)))
  makeInnerN (popcount src.nodemap) (popcount src.datamap - 1)
  return inner src.nodemap (src.datamap &&& ~~~bit)
    (src.values.take voffset ++ src.values.drop (voffset + 1)) src.children

/-- `copy_inner_insert_value`. -/
def copyInnerInsertValue
    (src : NodeT T (levels + 1))
    (bit : BitmapT)
    (v : T) : Option (NodeT T (levels + 1)) := do
  makeInnerN (popcount src.nodemap) (popcount src.datamap + 1)
  let offset := popcount (src.datamap &&& (bit - 1#32))
  return inner src.nodemap (src.datamap ||| bit)
    (src.values.take offset ++ v :: src.values.drop offset) src.children

/-- `make_merged`. -/
def makeMerged :
    (levels : Nat) → T → HashT → T → HashT → Option (NodeT T levels)
  | 0, v1, _, v2, _ => some (collision [v1, v2])
  | levels + 1, v1, hash1, v2, hash2 =>
      let shift := shift (levels + 1)
      let idx1 := hash1 &&& (mask <<< shift)
      let idx2 := hash2 &&& (mask <<< shift)
      if idx1 = idx2 then do
        let merged ← makeMerged levels v1 hash1 v2 hash2
        makeInnerN 1 0
        return inner (1#32 <<< (idx1 >>> shift).toNat) 0#32 [] [merged]
      else do
        let idx1 := (idx1 >>> shift).toNat
        let idx2 := (idx2 >>> shift).toNat
        assert (idx1 ≠ idx2)
        makeInnerN 0 2
        return inner 0#32 (1#32 <<< idx1 ||| 1#32 <<< idx2)
          (if idx1 < idx2 then [v1, v2] else [v2, v1]) []

/-! ## champ.hpp -/

variable {V : Type} [StdHash]

/-- `hash_key`. -/
def hashKey (key : String) : HashT :=
  (StdHash.hash key).toBitVec

/-- `champ::get`; the hash loses `B` bits on the way to every child. -/
def get :
    (levels : Nat) → NodeT (String × V) levels → HashT → String → Option (Option V)
  | 0, node, _, k =>
      some ((node.collisions.find? fun e => e.1 == k).map Prod.snd)
  | levels + 1, node, hash, k =>
      let bit : BitmapT := 1#32 <<< (hash &&& mask).toNat
      if node.nodemap &&& bit ≠ 0#32 then do
        let offset := popcount (node.nodemap &&& (bit - 1#32))
        let child ← node.children[offset]?
        get levels child (hash >>> bits) k
      else if node.datamap &&& bit ≠ 0#32 then do
        let offset := popcount (node.datamap &&& (bit - 1#32))
        let val ← node.values[offset]?
        if val.1 = k then return some val.2 else return none
      else
        return none

/-- `champ::do_add`: the new node, and whether the key is new. -/
def doAdd :
    (levels : Nat) → NodeT (String × V) levels → String × V → HashT →
      Option (NodeT (String × V) levels × Bool)
  | 0, node, v, _ =>
      match node.collisions.findIdx? (fun e => e.1 == v.1) with
      | some fst => do
          let node ← copyCollisionReplace node fst v
          return (node, false)
      | none => do
          let node ← copyCollisionInsert node v
          return (node, true)
  | levels + 1, node, v, hash =>
      let shift := shift (levels + 1)
      let idx := ((hash &&& (mask <<< shift)) >>> shift).toNat
      let bit : BitmapT := 1#32 <<< idx
      if node.nodemap &&& bit ≠ 0#32 then do
        let offset := popcount (node.nodemap &&& (bit - 1#32))
        let child ← node.children[offset]?
        let result ← doAdd levels child v hash
        let node ← copyInnerReplace node offset result.1
        return (node, result.2)
      else if node.datamap &&& bit ≠ 0#32 then do
        let offset := popcount (node.datamap &&& (bit - 1#32))
        let val ← node.values[offset]?
        if val.1 = v.1 then
          let node ← copyInnerReplaceValue node offset v
          return (node, false)
        else
          let child ← makeMerged levels v hash val (hashKey val.1)
          let node ← copyInnerReplaceMerged node bit offset child
          return (node, true)
      else do
        let node ← copyInnerInsertValue node bit v
        return (node, true)

/-- `champ::sub_result`. -/
inductive SubResult (T : Type) (levels : Nat) where
  | nothing
  | singleton (value : T)
  | tree (node : NodeT T levels)

/-- `champ::do_sub`. -/
def doSub :
    (levels : Nat) → NodeT (String × V) levels → String → HashT →
      Option (SubResult (String × V) levels)
  | 0, node, k, _ =>
      match node.collisions.findIdx? (fun e => e.1 == k) with
      | some cur =>
          if node.collisions.length > 2 then do
            let node ← copyCollisionRemove node cur
            return .tree node
          else do
            let value ← node.collisions[if cur = 0 then 1 else 0]?
            return .singleton value
      | none => some .nothing
  | levels + 1, node, k, hash =>
      let shift := shift (levels + 1)
      let idx := ((hash &&& (mask <<< shift)) >>> shift).toNat
      let bit : BitmapT := 1#32 <<< idx
      if node.nodemap &&& bit ≠ 0#32 then do
        let offset := popcount (node.nodemap &&& (bit - 1#32))
        let child ← node.children[offset]?
        match ← doSub levels child k hash with
        | .nothing => return .nothing
        | .singleton value =>
            if node.datamap = 0#32 ∧ popcount node.nodemap = 1 ∧ shift > 0 then
              return .singleton value
            else
              let node ← copyInnerReplaceInline node bit offset value
              return .tree node
        | .tree child =>
            let node ← copyInnerReplace node offset child
            return .tree node
      else if node.datamap &&& bit ≠ 0#32 then do
        let offset := popcount (node.datamap &&& (bit - 1#32))
        let val ← node.values[offset]?
        if val.1 = k then
          let nv := popcount node.datamap
          if node.nodemap ≠ 0#32 ∨ nv > 2 then
            let node ← copyInnerRemoveValue node bit offset
            return .tree node
          else if nv = 2 then
            let other ← node.values[if offset = 0 then 1 else 0]?
            if shift > 0 then
              return .singleton other
            else
              makeInnerN 0 1
              return .tree (inner 0#32 (node.datamap &&& ~~~bit) [other] [])
          else
            assert (shift = 0)
            return .tree (inner 0#32 0#32 [] [])
        else
          return .nothing
      else
        return .nothing

/-- `champ`. -/
structure Champ (V : Type) where
  root : NodeT (String × V) maxDepth
  size : Nat

namespace Champ

/-- `champ::empty`. -/
def empty : Champ V :=
  ⟨inner 0#32 0#32 [] [], 0⟩

/-- `map::find`. -/
def find (m : Champ V) (k : String) : Option (Option V) :=
  get maxDepth m.root (hashKey k) k

/-- `champ::add`, which is `map::set`. -/
def set (m : Champ V) (k : String) (v : V) : Option (Champ V) := do
  let res ← doAdd maxDepth m.root (k, v) (hashKey k)
  return ⟨res.1, m.size + if res.2 then 1 else 0⟩

/-- `champ::sub`, which is `map::erase`. -/
def erase (m : Champ V) (k : String) : Option (Champ V) := do
  match ← doSub maxDepth m.root k (hashKey k) with
  | .nothing => return m
  | .tree node => return ⟨node, m.size - 1⟩
  | .singleton _ => none

end Champ

/-- `champ::for_each_chunk_traversal`: the ranges it calls the function with. -/
def forEachChunk : (levels : Nat) → NodeT T levels → List (List T)
  | 0, node => [node.collisions]
  | levels + 1, node =>
      (if node.datamap = 0#32 then [] else [node.values]) ++
        (if node.nodemap = 0#32 then []
         else node.children.flatMap (forEachChunk levels))

end Hamts

end AgencyNode
