import AgencyNode.Champ
import AgencyNode.IterationOrder

/-!
# What a node of the trie represents

A node of the trie represents a list of entries if its slots hold what the
entries on the branches of its level come to: nothing, the entry of a single
key, or a child that represents the entries of several keys.  The list lists the
entry written last first, and a collision node is that list.
-/

namespace AgencyNode

open Lib

namespace Hamts

open ImmerMap (bits branches maxDepth branch onBranch)
open PackedArray (popcount Packs popcount_le)
open NodeT

/-! ## Slots of an inner node -/

section Slots

variable {T : Type} {levels : Nat}

/-- What the slots of an inner node hold. -/
structure Slots
    (node : NodeT T (levels + 1))
    (value : Nat → Option T)
    (child : Nat → Option (NodeT T levels)) : Prop where
  values : Packs node.datamap node.values value
  children : Packs node.nodemap node.children child

variable
  {node : NodeT T (levels + 1)}
  {value : Nat → Option T}
  {child : Nat → Option (NodeT T levels)}

theorem makeInnerN_eq_some
    {n nv : Nat}
    (hn : n ≤ 32)
    (hnv : nv ≤ 32) :
    makeInnerN n nv = some () := by
  have hn' : assert (n ≤ branches) = some () := assert_eq_some hn
  have hnv' : assert (nv ≤ branches) = some () := assert_eq_some hnv
  rw [makeInnerN, hn', hnv']
  rfl

namespace Slots

theorem inner
    {nodemap datamap : BitmapT}
    {values : List T}
    {children : List (NodeT T levels)}
    (hvalues : Packs datamap values value)
    (hchildren : Packs nodemap children child) :
    Slots (NodeT.inner nodemap datamap values children) value child :=
  ⟨hvalues, hchildren⟩

theorem copyInnerReplace
    (h : Slots node value child)
    {b : Nat}
    (hb : b < 32)
    {c : NodeT T levels}
    (hc : child b = some c)
    (c' : NodeT T levels) :
    ∃ node', Hamts.copyInnerReplace node
        (popcount (node.nodemap &&& (1#32 <<< b - 1#32))) c' = some node' ∧
      Slots node' value (Function.update child b (some c')) := by
  refine ⟨_, ?_, inner h.values (h.children.replace hb hc c')⟩
  have hget := h.children.getElem? hb hc
  have hlt := (List.getElem?_eq_some_iff.mp hget).1
  rw [Hamts.copyInnerReplace, makeInnerN_eq_some (popcount_le _) (by omega),
    assert_eq_some hlt]
  rfl

theorem copyInnerReplaceValue
    (h : Slots node value child)
    {b : Nat}
    (hb : b < 32)
    {u : T}
    (hu : value b = some u)
    (v : T) :
    ∃ node', Hamts.copyInnerReplaceValue node
        (popcount (node.datamap &&& (1#32 <<< b - 1#32))) v = some node' ∧
      Slots node' (Function.update value b (some v)) child := by
  refine ⟨_, ?_, inner (h.values.replace hb hu v) h.children⟩
  have hget := h.values.getElem? hb hu
  have hlt := (List.getElem?_eq_some_iff.mp hget).1
  rw [← h.values.length] at hlt
  rw [Hamts.copyInnerReplaceValue, assert_eq_some hlt,
    makeInnerN_eq_some (popcount_le _) (popcount_le _)]
  rfl

theorem copyInnerReplaceMerged
    (h : Slots node value child)
    {b : Nat}
    (hb : b < 32)
    {u : T}
    (hu : value b = some u)
    (hc : child b = none)
    (c : NodeT T levels) :
    ∃ node', Hamts.copyInnerReplaceMerged node (1#32 <<< b)
        (popcount (node.datamap &&& (1#32 <<< b - 1#32))) c = some node' ∧
      Slots node' (Function.update value b none)
        (Function.update child b (some c)) := by
  refine ⟨_, ?_, inner (h.values.remove hb hu) (h.children.insert hb hc c)⟩
  have hnodemap := (h.children.bit_eq_zero_iff hb).mpr hc
  have hdatamap := h.values.bit_ne_zero hb hu
  have hroom := h.children.popcount_insert hb hc c
  have hle := popcount_le (node.nodemap ||| 1#32 <<< b)
  have hvalues := popcount_le node.datamap
  rw [Hamts.copyInnerReplaceMerged, assert_eq_some hnodemap, assert_eq_some hdatamap,
    assert_eq_some rfl, makeInnerN_eq_some (by omega) (by omega)]
  rfl

theorem copyInnerReplaceInline
    (h : Slots node value child)
    {b : Nat}
    (hb : b < 32)
    (hu : value b = none)
    {c : NodeT T levels}
    (hc : child b = some c)
    (v : T) :
    ∃ node', Hamts.copyInnerReplaceInline node (1#32 <<< b)
        (popcount (node.nodemap &&& (1#32 <<< b - 1#32))) v = some node' ∧
      Slots node' (Function.update value b (some v))
        (Function.update child b none) := by
  refine ⟨_, ?_, inner (h.values.insert hb hu v) (h.children.remove hb hc)⟩
  have hdatamap := (h.values.bit_eq_zero_iff hb).mpr hu
  have hnodemap := h.children.bit_ne_zero hb hc
  have hroom := h.values.popcount_insert hb hu v
  have hle := popcount_le (node.datamap ||| 1#32 <<< b)
  have hchildren := popcount_le node.nodemap
  rw [Hamts.copyInnerReplaceInline, assert_eq_some hdatamap, assert_eq_some hnodemap,
    assert_eq_some rfl, makeInnerN_eq_some (by omega) (by omega)]
  rfl

theorem copyInnerRemoveValue
    (h : Slots node value child)
    {b : Nat}
    (hb : b < 32)
    {u : T}
    (hu : value b = some u)
    (hc : child b = none) :
    ∃ node', Hamts.copyInnerRemoveValue node (1#32 <<< b)
        (popcount (node.datamap &&& (1#32 <<< b - 1#32))) = some node' ∧
      Slots node' (Function.update value b none) child := by
  refine ⟨_, ?_, inner (h.values.remove hb hu) h.children⟩
  have hnodemap := (h.children.bit_eq_zero_iff hb).mpr hc
  have hdatamap := h.values.bit_ne_zero hb hu
  have hvalues := popcount_le node.datamap
  rw [Hamts.copyInnerRemoveValue, assert_eq_some hnodemap, assert_eq_some hdatamap,
    assert_eq_some rfl, makeInnerN_eq_some (popcount_le _) (by omega)]
  rfl

theorem copyInnerInsertValue
    (h : Slots node value child)
    {b : Nat}
    (hb : b < 32)
    (hu : value b = none)
    (v : T) :
    ∃ node', Hamts.copyInnerInsertValue node (1#32 <<< b) v = some node' ∧
      Slots node' (Function.update value b (some v)) child := by
  refine ⟨_, ?_, inner (h.values.insert hb hu v) h.children⟩
  have hroom := h.values.popcount_insert hb hu v
  have hle := popcount_le (node.datamap ||| 1#32 <<< b)
  rw [Hamts.copyInnerInsertValue, makeInnerN_eq_some (popcount_le _) (by omega)]
  rfl

end Slots

end Slots

/-! ## Groups of entries -/

section Groups

variable {V : Type}

/-- The entry of a branch that belongs to a single key. -/
def single : ImmerMap V → Option (String × V)
  | [e] => some e
  | _ => none

/-- The entries of a branch that several keys share. -/
def several : ImmerMap V → Option (ImmerMap V)
  | e :: e' :: entries => some (e :: e' :: entries)
  | _ => none

theorem single_eq_some
    {entries : ImmerMap V}
    {e : String × V} :
    single entries = some e ↔ entries = [e] := by
  match entries with
  | [] => simp [single]
  | [e'] => simp [single]
  | e' :: e'' :: entries => simp [single]

theorem several_eq_some
    {entries group : ImmerMap V} :
    several entries = some group ↔ entries = group ∧ 2 ≤ entries.length := by
  match entries with
  | [] => simp [several]
  | [e] => simp [several]
  | e :: e' :: entries => simp [several]

theorem single_eq_none_of_length
    {entries : ImmerMap V}
    (h : 2 ≤ entries.length) :
    single entries = none := by
  match entries with
  | e :: e' :: entries => rfl

/-- Nothing, one entry or several. -/
theorem group_cases
    (group : ImmerMap V) :
    group = [] ∨ (∃ e, group = [e]) ∨ 2 ≤ group.length := by
  match group with
  | [] => exact .inl rfl
  | [e] => exact .inr (.inl ⟨e, rfl⟩)
  | e :: e' :: group => exact .inr (.inr (by simp))

end Groups

variable {V : Type} [StdHash]

/-- The node stands for the entries, the newest one first. -/
def Represents :
    (levels : Nat) → NodeT (String × V) levels → ImmerMap V → Prop
  | 0, node, entries => node.collisions = entries
  | levels + 1, node, entries =>
      let group := onBranch (maxDepth - (levels + 1)) entries
      ∃ child, Slots node (fun b => single (group b)) child ∧
        ∀ b, Option.Rel (Represents levels) (child b) (several (group b))

/-- The entries in the collision node a key leads to. -/
def crowd : Nat → ImmerMap V → String → ImmerMap V
  | 0, entries, _ => entries
  | levels + 1, entries, k =>
      crowd levels
        (onBranch (maxDepth - (levels + 1)) entries
          (branch (maxDepth - (levels + 1)) k)) k

/-! ## Chunks of the hash -/

omit [StdHash] in
theorem getLsbD_mask
    (i : Nat) :
    mask.getLsbD i = decide (i < bits) := by
  change (BitVec.ofNat 64 (2 ^ bits - 1)).getLsbD i = _
  rw [BitVec.getLsbD_ofNat, Nat.testBit_two_pow_sub_one]
  by_cases hi : i < bits
  · have : i < 64 := by simp only [bits] at hi; omega
    simp [hi, this]
  · simp [hi]

/-- `do_add`, `do_sub` and `make_merged` select the branch of the key. -/
theorem index_eq_branch
    (depth : Nat)
    (key : String) :
    ((hashKey key &&& (mask <<< (bits * depth))) >>> (bits * depth)).toNat =
      branch depth key := by
  apply Nat.eq_of_testBit_eq
  intro i
  rw [branch, branches, Nat.testBit_mod_two_pow, Nat.testBit_shiftRight,
    BitVec.testBit_toNat, BitVec.getLsbD_ushiftRight, BitVec.getLsbD_and,
    BitVec.getLsbD_shiftLeft, getLsbD_mask, Nat.add_sub_cancel_left]
  have hhash : (hashKey key).getLsbD (bits * depth + i) =
      (StdHash.hash key).toNat.testBit (bits * depth + i) := by
    rw [← BitVec.testBit_toNat]
    rfl
  rw [← hhash]
  by_cases hi : bits * depth + i < 64
  · have hle : ¬ bits * depth + i < bits * depth := by omega
    simp [hi, hle, Bool.and_comm]
  · rw [BitVec.getLsbD_of_ge (hashKey key) _ (by omega)]
    simp

/-- `get` selects the branch of the key. -/
theorem lookup_eq_branch
    (depth : Nat)
    (key : String) :
    (hashKey key >>> (bits * depth) &&& mask).toNat = branch depth key := by
  apply Nat.eq_of_testBit_eq
  intro i
  rw [branch, branches, Nat.testBit_mod_two_pow, Nat.testBit_shiftRight,
    BitVec.testBit_toNat, BitVec.getLsbD_and, BitVec.getLsbD_ushiftRight,
    getLsbD_mask, Bool.and_comm, ← BitVec.testBit_toNat]
  rfl

omit [StdHash] in
/-- The index computed from the masked hash loses nothing of it. -/
theorem masked_eq_iff
    (shift : Nat)
    (h h' : HashT) :
    h &&& (mask <<< shift) = h' &&& (mask <<< shift) ↔
      ((h &&& (mask <<< shift)) >>> shift).toNat =
        ((h' &&& (mask <<< shift)) >>> shift).toNat := by
  constructor
  · intro heq
    rw [heq]
  · intro heq
    apply BitVec.eq_of_getLsbD_eq
    intro i hi
    by_cases hlow : i < shift
    · simp [BitVec.getLsbD_and, BitVec.getLsbD_shiftLeft, hlow]
    · have hbit := congrArg (fun x => BitVec.getLsbD x (i - shift))
        (BitVec.eq_of_toNat_eq heq)
      have hsum : shift + (i - shift) = i := by omega
      simpa only [BitVec.getLsbD_ushiftRight, hsum] using hbit

theorem index_eq
    (levels : Nat)
    (key : String) :
    ((hashKey key &&& (mask <<< shift (levels + 1))) >>>
        shift (levels + 1)).toNat =
      branch (maxDepth - (levels + 1)) key :=
  index_eq_branch (maxDepth - (levels + 1)) key

theorem branch_lt_width
    (depth : Nat)
    (key : String) :
    branch depth key < 32 :=
  ImmerMap.branch_lt depth key

/-! ## The entries on a branch -/

theorem onBranch_erase
    (depth : Nat)
    (entries : ImmerMap V)
    (k : String)
    (b : Nat) :
    onBranch depth (AssocMap.erase entries k) b =
      if branch depth k = b then AssocMap.erase (onBranch depth entries b) k
      else onBranch depth entries b := by
  have herase : onBranch depth (AssocMap.erase entries k) b =
      AssocMap.erase (onBranch depth entries b) k := by
    rw [onBranch, onBranch, AssocMap.erase, AssocMap.erase, List.filter_comm]
  rw [herase]
  by_cases hb : branch depth k = b
  · rw [if_pos hb]
  · rw [if_neg hb]
    apply List.filter_eq_self.mpr
    intro e he
    have hbranch : branch depth e.1 = b := by
      simpa using (List.mem_filter.mp he).2
    have hne : e.1 ≠ k := by
      intro hk
      exact hb (hk ▸ hbranch)
    simpa using hne

theorem onBranch_set
    (depth : Nat)
    (entries : ImmerMap V)
    (k : String)
    (v : V)
    (b : Nat) :
    onBranch depth (AssocMap.set entries k v) b =
      if branch depth k = b then AssocMap.set (onBranch depth entries b) k v
      else onBranch depth entries b := by
  have herase := onBranch_erase depth entries k b
  by_cases hb : branch depth k = b
  · rw [if_pos hb] at herase
    rw [if_pos hb, AssocMap.set, AssocMap.set, ← herase, onBranch,
      List.filter_cons_of_pos (by simpa using hb), onBranch]
  · rw [if_neg hb] at herase
    rw [if_neg hb, AssocMap.set, onBranch, List.filter_cons_of_neg (by simpa using hb)]
    exact herase

theorem find_onBranch
    (depth : Nat)
    (entries : ImmerMap V)
    (k : String) :
    AssocMap.find (onBranch depth entries (branch depth k)) k =
      AssocMap.find entries k := by
  have h := AssocMap.find_filter (fun key => branch depth key == branch depth k)
    entries k
  rw [beq_self_eq_true, if_pos rfl] at h
  exact h

theorem keysNodup_onBranch
    {entries : ImmerMap V}
    (h : AssocMap.KeysNodup entries)
    (depth b : Nat) :
    AssocMap.KeysNodup (onBranch depth entries b) :=
  h.sublist (List.filter_sublist.map Prod.fst)

/-! ## Children and updates -/

theorem noChild
    {levels : Nat}
    {c : Option (NodeT (String × V) levels)}
    {group : ImmerMap V}
    (h : Option.Rel (Represents levels) c (several group))
    (hfew : group.length ≤ 1) :
    c = none := by
  cases hc : c with
  | none => rfl
  | some node =>
      rw [hc] at h
      cases hgroup : several group with
      | none =>
          rw [hgroup] at h
          cases h
      | some group' =>
          have := (several_eq_some.mp hgroup).2
          omega

theorem ownChild
    {levels : Nat}
    {c : Option (NodeT (String × V) levels)}
    {group : ImmerMap V}
    (h : Option.Rel (Represents levels) c (several group))
    (hmany : 2 ≤ group.length) :
    ∃ node, c = some node ∧ Represents levels node group := by
  rw [several_eq_some.mpr ⟨rfl, hmany⟩] at h
  cases h with
  | some hnode => exact ⟨_, rfl, hnode⟩

/-- A node in which the slots of one branch have been brought up to date. -/
theorem represents_of_update
    {levels : Nat}
    {node' : NodeT (String × V) (levels + 1)}
    {entries entries' : ImmerMap V}
    {child : Nat → Option (NodeT (String × V) levels)}
    {c : Option (NodeT (String × V) levels)}
    {b : Nat}
    (hslots : Slots node'
      (Function.update
        (fun x => single (onBranch (maxDepth - (levels + 1)) entries x)) b
        (single (onBranch (maxDepth - (levels + 1)) entries' b)))
      (Function.update child b c))
    (hrel : ∀ x, Option.Rel (Represents levels) (child x)
      (several (onBranch (maxDepth - (levels + 1)) entries x)))
    (hc : Option.Rel (Represents levels) c
      (several (onBranch (maxDepth - (levels + 1)) entries' b)))
    (hother : ∀ x, b ≠ x → onBranch (maxDepth - (levels + 1)) entries' x =
      onBranch (maxDepth - (levels + 1)) entries x) :
    Represents (levels + 1) node' entries' := by
  refine ⟨Function.update child b c, ⟨hslots.values.of_eq ?_, hslots.children⟩, ?_⟩
  · intro x
    by_cases hx : b = x
    · subst hx
      rw [Function.update_self]
    · rw [Function.update_of_ne (fun h => hx h.symm), hother x hx]
  · intro x
    by_cases hx : b = x
    · subst hx
      rw [Function.update_self]
      exact hc
    · rw [Function.update_of_ne (fun h => hx h.symm), hother x hx]
      exact hrel x

end Hamts

end AgencyNode
