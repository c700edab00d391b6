import AgencyNode.ChampSlots

/-!
# Updates of a node of the trie

`do_add`, `get` and `do_sub` on a node that represents a list of entries do what
the operations on association lists do.  `do_add` fails where a collision node
would grow beyond its bound; `do_sub` leaves no node with a single entry behind,
the root excepted.
-/

namespace AgencyNode

open Lib

namespace Hamts

open ImmerMap (bits branches maxDepth branch onBranch)
open PackedArray (popcount Packs)
open NodeT

variable {V : Type} [StdHash]

/-! ## `champ::add` -/

theorem onBranch_pair
    (depth : Nat)
    (e e' : String × V)
    (x : Nat) :
    onBranch depth [e, e'] x =
      (if branch depth e.1 = x then [e] else []) ++
        (if branch depth e'.1 = x then [e'] else []) := by
  by_cases he : branch depth e.1 = x <;> by_cases he' : branch depth e'.1 = x <;>
    simp [onBranch, he, he']

theorem makeMerged_represents
    (levels : Nat)
    (e e' : String × V) :
    ∃ node, makeMerged levels e (hashKey e.1) e' (hashKey e'.1) = some node ∧
      Represents levels node [e, e'] := by
  induction levels with
  | zero =>
      exact ⟨_, rfl, rfl⟩
  | succ levels ih =>
      let depth := maxDepth - (levels + 1)
      have hb := branch_lt_width depth e.1
      have hb' := branch_lt_width depth e'.1
      have hpair := onBranch_pair depth e e'
      have hmasked := masked_eq_iff (shift (levels + 1)) (hashKey e.1) (hashKey e'.1)
      rw [index_eq, index_eq] at hmasked
      simp only [makeMerged, index_eq]
      by_cases heq : branch depth e.1 = branch depth e'.1
      · obtain ⟨merged, hmerged, hrep⟩ := ih
        rw [if_pos (hmasked.mpr heq), hmerged, Option.bind_eq_bind, Option.bind_some,
          makeInnerN_eq_some (by omega) (by omega)]
        refine ⟨_, rfl, _, .inner (Packs.empty.of_eq ?_) (Packs.singleton hb merged), ?_⟩
        · intro x
          rw [hpair, ← heq]
          by_cases hx : branch depth e.1 = x
          · rw [if_pos hx, if_pos hx]
            rfl
          · rw [if_neg hx, if_neg hx]
            rfl
        · intro x
          rw [hpair, ← heq]
          by_cases hx : branch depth e.1 = x
          · subst hx
            rw [Function.update_self, if_pos rfl, if_pos rfl]
            exact .some hrep
          · rw [Function.update_of_ne (fun h => hx h.symm), if_neg hx, if_neg hx]
            exact .none
      · rw [if_neg (fun h => heq (hmasked.mp h)), assert_eq_some heq,
          Option.bind_eq_bind, Option.bind_some, makeInnerN_eq_some (by omega) (by omega)]
        refine ⟨_, rfl, fun _ => none,
          .inner ((Packs.pair hb hb' heq e e').of_eq ?_) Packs.empty, ?_⟩
        · intro x
          rw [hpair]
          by_cases hx' : branch depth e'.1 = x
          · subst hx'
            rw [Function.update_self, if_neg heq, if_pos rfl]
            rfl
          · rw [Function.update_of_ne (fun h => hx' h.symm), if_neg hx']
            by_cases hx : branch depth e.1 = x
            · subst hx
              rw [Function.update_self, if_pos rfl]
              rfl
            · rw [Function.update_of_ne (fun h => hx h.symm), if_neg hx]
              rfl
        · intro x
          rw [hpair]
          by_cases hx : branch depth e.1 = x
          · have hx' : ¬ branch depth e'.1 = x := by
              intro h
              exact heq (hx.trans h.symm)
            rw [if_pos hx, if_neg hx']
            exact .none
          · rw [if_neg hx]
            by_cases hx' : branch depth e'.1 = x
            · rw [if_pos hx']
              exact .none
            · rw [if_neg hx']
              exact .none

omit [StdHash] in
theorem copyCollisionReplace_eq_some
    {entries : ImmerMap V}
    (hnodup : AssocMap.KeysNodup entries)
    {k : String}
    {pos : Nat}
    (hpos : entries.findIdx? (fun e => e.1 == k) = some pos)
    (v : V)
    (hroom : entries.length ≤ branches) :
    copyCollisionReplace (collision entries) pos (k, v) =
      some (collision (AssocMap.set entries k v)) := by
  obtain ⟨hlt, heq⟩ := hnodup.erase_eq_of_findIdx? hpos
  have hcount : makeCollisionN entries.length = some () := assert_eq_some hroom
  rw [copyCollisionReplace, collisions_collision, hcount, assert_eq_some hlt, heq]
  rfl

/-- What `do_add` answers on a node that represents the entries. -/
def Adds
    (levels : Nat)
    (entries : ImmerMap V)
    (k : String)
    (v : V)
    (answer : Option (NodeT (String × V) levels × Bool)) : Prop :=
  ∃ node, answer = some (node, (AssocMap.find entries k).isNone) ∧
    Represents levels node (AssocMap.set entries k v)

theorem doAdd_collision
    {entries : ImmerMap V}
    (hnodup : AssocMap.KeysNodup entries)
    (k : String)
    (v : V)
    (hroom : (AssocMap.set entries k v).length ≤ branches) :
    Adds 0 entries k v (doAdd 0 (collision entries) (k, v) (hashKey k)) := by
  rw [hnodup.length_set] at hroom
  rw [doAdd, collisions_collision]
  cases hpos : entries.findIdx? (fun e => e.1 == k) with
  | some pos =>
      have hfind : (AssocMap.find entries k).isNone = false := by
        cases hk : AssocMap.find entries k with
        | none =>
            rw [AssocMap.findIdx?_eq_none_iff.mpr hk] at hpos
            cases hpos
        | some _ => rfl
      refine ⟨collision (AssocMap.set entries k v), ?_, rfl⟩
      rw [hfind]
      change (copyCollisionReplace _ pos (k, v) >>= _) = _
      rw [copyCollisionReplace_eq_some hnodup hpos v (by omega)]
      rfl
  | none =>
      have hk := AssocMap.findIdx?_eq_none_iff.mp hpos
      rw [hk] at hroom
      have hcount : makeCollisionN (entries.length + 1) = some () :=
        assert_eq_some hroom
      have hnew : AssocMap.set entries k v = (k, v) :: entries := by
        rw [AssocMap.set, AssocMap.erase_eq_self hk]
      refine ⟨collision (AssocMap.set entries k v), ?_, rfl⟩
      rw [hk, hnew]
      change (copyCollisionInsert _ (k, v) >>= _) = _
      rw [copyCollisionInsert, collisions_collision, hcount]
      rfl

section Branches

variable
  {levels : Nat}
  {node : NodeT (String × V) (levels + 1)}
  {entries : ImmerMap V}
  {child : Nat → Option (NodeT (String × V) levels)}
  {k : String}
  {e : String × V}

/-- The branch of the key is replaced by what its group has become. -/
theorem represents_set
    (hrel : ∀ b, Option.Rel (Represents levels) (child b)
      (several (onBranch (maxDepth - (levels + 1)) entries b)))
    (v : V)
    {group : ImmerMap V}
    (hgroup : AssocMap.set (onBranch (maxDepth - (levels + 1)) entries
      (branch (maxDepth - (levels + 1)) k)) k v = group)
    {node' : NodeT (String × V) (levels + 1)}
    {c : Option (NodeT (String × V) levels)}
    (hslots : Slots node'
      (Function.update (fun b => single (onBranch (maxDepth - (levels + 1)) entries b))
        (branch (maxDepth - (levels + 1)) k) (single group))
      (Function.update child (branch (maxDepth - (levels + 1)) k) c))
    (hc : Option.Rel (Represents levels) c (several group)) :
    Represents (levels + 1) node' (AssocMap.set entries k v) := by
  have hset := onBranch_set (maxDepth - (levels + 1)) entries k v
  have hown := hset (branch (maxDepth - (levels + 1)) k)
  rw [if_pos rfl, hgroup] at hown
  refine represents_of_update (c := c) ?_ hrel ?_
    (fun x hx => (hset x).trans (if_neg hx))
  · rw [hown]
    exact hslots
  · rw [hown]
    exact hc

/-- The slot of the key is free. -/
theorem doAdd_free
    (hslots : Slots node
      (fun b => single (onBranch (maxDepth - (levels + 1)) entries b)) child)
    (hrel : ∀ b, Option.Rel (Represents levels) (child b)
      (several (onBranch (maxDepth - (levels + 1)) entries b)))
    (v : V)
    (hnil : onBranch (maxDepth - (levels + 1)) entries
      (branch (maxDepth - (levels + 1)) k) = []) :
    Adds (levels + 1) entries k v (doAdd (levels + 1) node (k, v) (hashKey k)) := by
  let depth := maxDepth - (levels + 1)
  have hb := branch_lt_width depth k
  have hvalue : single (onBranch depth entries (branch depth k)) = none := by
    rw [hnil]
    rfl
  have hchild := noChild (hrel (branch depth k)) (by rw [hnil]; simp)
  have hk : AssocMap.find entries k = none := by
    rw [← find_onBranch depth entries k, hnil]
    rfl
  have hgroup : AssocMap.set (onBranch depth entries (branch depth k)) k v =
      [(k, v)] := by
    rw [hnil]
    rfl
  obtain ⟨node', hnode', hslots'⟩ := hslots.copyInnerInsertValue hb hvalue (k, v)
  simp only [doAdd, index_eq]
  rw [if_neg (hslots.children.not_bit_ne_zero hb hchild),
    if_neg (hslots.values.not_bit_ne_zero hb hvalue), hnode']
  refine ⟨node', by rw [hk]; rfl, represents_set (c := none) hrel v hgroup ?_ .none⟩
  rw [← hchild, Function.update_eq_self]
  exact hslots'

/-- The slot of the key holds the entry of one key. -/
theorem doAdd_value
    (hslots : Slots node
      (fun b => single (onBranch (maxDepth - (levels + 1)) entries b)) child)
    (hrel : ∀ b, Option.Rel (Represents levels) (child b)
      (several (onBranch (maxDepth - (levels + 1)) entries b)))
    (v : V)
    (hone : onBranch (maxDepth - (levels + 1)) entries
      (branch (maxDepth - (levels + 1)) k) = [e]) :
    Adds (levels + 1) entries k v (doAdd (levels + 1) node (k, v) (hashKey k)) := by
  let depth := maxDepth - (levels + 1)
  have hb := branch_lt_width depth k
  have hfind := find_onBranch depth entries k
  have hvalue : single (onBranch depth entries (branch depth k)) = some e :=
    single_eq_some.mpr hone
  have hchild := noChild (hrel (branch depth k)) (by rw [hone]; simp)
  rw [hone] at hfind
  simp only [doAdd, index_eq]
  rw [if_neg (hslots.children.not_bit_ne_zero hb hchild),
    if_pos (hslots.values.bit_ne_zero hb hvalue), hslots.values.getElem? hb hvalue,
    Option.bind_eq_bind, Option.bind_some]
  by_cases hek : e.1 = k
  · obtain ⟨node', hnode', hslots'⟩ := hslots.copyInnerReplaceValue hb hvalue (k, v)
    have hk : AssocMap.find entries k = some e.2 := by
      rw [← hfind, AssocMap.find, if_pos hek]
    have hgroup : AssocMap.set (onBranch depth entries (branch depth k)) k v =
        [(k, v)] := by
      rw [hone, AssocMap.set, AssocMap.erase,
        List.filter_cons_of_neg (by simpa using hek)]
      rfl
    rw [if_pos hek, hnode']
    refine ⟨node', by rw [hk]; rfl, represents_set (c := none) hrel v hgroup ?_ .none⟩
    rw [← hchild, Function.update_eq_self]
    exact hslots'
  · obtain ⟨merged, hmerged, hrep⟩ := makeMerged_represents levels (k, v) e
    obtain ⟨node', hnode', hslots'⟩ :=
      hslots.copyInnerReplaceMerged hb hvalue hchild merged
    have hk : AssocMap.find entries k = none := by
      rw [← hfind, AssocMap.find, if_neg hek]
      rfl
    have hgroup : AssocMap.set (onBranch depth entries (branch depth k)) k v =
        [(k, v), e] := by
      rw [hone, AssocMap.set, AssocMap.erase,
        List.filter_cons_of_pos (by simpa using hek)]
      rfl
    rw [if_neg hek, hmerged, Option.bind_eq_bind, Option.bind_some, hnode']
    exact ⟨node', by rw [hk]; rfl, represents_set hrel v hgroup hslots' (.some hrep)⟩

/-- The slot of the key holds a child, which has answered. -/
theorem doAdd_child
    (hslots : Slots node
      (fun b => single (onBranch (maxDepth - (levels + 1)) entries b)) child)
    (hrel : ∀ b, Option.Rel (Represents levels) (child b)
      (several (onBranch (maxDepth - (levels + 1)) entries b)))
    (hnodup : AssocMap.KeysNodup entries)
    (v : V)
    {c : NodeT (String × V) levels}
    (hchild : child (branch (maxDepth - (levels + 1)) k) = some c)
    (hmany : 2 ≤ (onBranch (maxDepth - (levels + 1)) entries
      (branch (maxDepth - (levels + 1)) k)).length)
    (hadd : Adds levels
      (onBranch (maxDepth - (levels + 1)) entries
        (branch (maxDepth - (levels + 1)) k)) k v (doAdd levels c (k, v) (hashKey k))) :
    Adds (levels + 1) entries k v (doAdd (levels + 1) node (k, v) (hashKey k)) := by
  let depth := maxDepth - (levels + 1)
  have hb := branch_lt_width depth k
  have hvalue := single_eq_none_of_length hmany
  have hlength : 2 ≤ (AssocMap.set (onBranch depth entries (branch depth k))
      k v).length := by
    rw [(keysNodup_onBranch hnodup depth (branch depth k)).length_set]
    exact Nat.le_trans hmany (Nat.le_add_right _ _)
  obtain ⟨c', hc', hrep⟩ := hadd
  obtain ⟨node', hnode', hslots'⟩ := hslots.copyInnerReplace hb hchild c'
  simp only [doAdd, index_eq]
  rw [if_pos (hslots.children.bit_ne_zero hb hchild),
    hslots.children.getElem? hb hchild, Option.bind_eq_bind, Option.bind_some, hc',
    Option.bind_eq_bind, Option.bind_some, hnode', find_onBranch depth entries k]
  refine ⟨node', rfl, represents_set (c := some c') hrel v rfl ?_ ?_⟩
  · rw [single_eq_none_of_length hlength, ← hvalue, Function.update_eq_self]
    exact hslots'
  · rw [several_eq_some.mpr ⟨rfl, hlength⟩]
    exact .some hrep

end Branches

/-- `do_add` on a node that represents the entries. -/
theorem doAdd_represents
    {levels : Nat}
    {node : NodeT (String × V) levels}
    {entries : ImmerMap V}
    (hnode : Represents levels node entries)
    (hnodup : AssocMap.KeysNodup entries)
    (k : String)
    (v : V)
    (hroom : (AssocMap.set (crowd levels entries k) k v).length ≤ branches) :
    Adds levels entries k v (doAdd levels node (k, v) (hashKey k)) := by
  induction levels generalizing entries with
  | zero =>
      have hcollision : node = collision entries := hnode
      rw [hcollision]
      exact doAdd_collision hnodup k v hroom
  | succ levels ih =>
      obtain ⟨child, hslots, hrel⟩ := hnode
      let depth := maxDepth - (levels + 1)
      rcases group_cases (onBranch depth entries (branch depth k)) with
        hnil | ⟨e, hone⟩ | hmany
      · exact doAdd_free hslots hrel v hnil
      · exact doAdd_value hslots hrel v hone
      · obtain ⟨c, hchild, hc⟩ := ownChild (hrel (branch depth k)) hmany
        exact doAdd_child hslots hrel hnodup v hchild hmany
          (ih hc (keysNodup_onBranch hnodup depth (branch depth k)) hroom)

theorem crowd_length_le
    (levels : Nat)
    (entries : ImmerMap V)
    (k : String) :
    (crowd levels entries k).length ≤ entries.length := by
  induction levels generalizing entries with
  | zero =>
      exact Nat.le_refl _
  | succ levels ih =>
      exact Nat.le_trans (ih _) (List.length_filter_le _ _)

theorem keysNodup_crowd
    {entries : ImmerMap V}
    (h : AssocMap.KeysNodup entries)
    (levels : Nat)
    (k : String) :
    AssocMap.KeysNodup (crowd levels entries k) := by
  induction levels generalizing entries with
  | zero => exact h
  | succ levels ih => exact ih (keysNodup_onBranch h _ _)

/-- `do_add` fails where a collision node would grow beyond its bound. -/
theorem doAdd_overflows
    {levels : Nat}
    {node : NodeT (String × V) levels}
    {entries : ImmerMap V}
    (hnode : Represents levels node entries)
    (hnodup : AssocMap.KeysNodup entries)
    (k : String)
    (v : V)
    (hroom : ¬ (AssocMap.set (crowd levels entries k) k v).length ≤ branches) :
    doAdd levels node (k, v) (hashKey k) = none := by
  induction levels generalizing entries with
  | zero =>
      have hcollision : node = collision entries := hnode
      change ¬ (AssocMap.set entries k v).length ≤ branches at hroom
      rw [hnodup.length_set] at hroom
      rw [hcollision, doAdd, collisions_collision]
      cases hpos : entries.findIdx? (fun e => e.1 == k) with
      | some pos =>
          have hfind : (AssocMap.find entries k).isSome = true := by
            cases hk : AssocMap.find entries k with
            | none =>
                rw [AssocMap.findIdx?_eq_none_iff.mpr hk] at hpos
                cases hpos
            | some _ => rfl
          rw [if_pos hfind] at hroom
          have hcount : makeCollisionN entries.length = none := if_neg hroom
          change (copyCollisionReplace _ pos (k, v) >>= _) = _
          rw [copyCollisionReplace, collisions_collision, hcount]
          rfl
      | none =>
          rw [AssocMap.findIdx?_eq_none_iff.mp hpos] at hroom
          have hcount : makeCollisionN (entries.length + 1) = none := if_neg hroom
          change (copyCollisionInsert _ (k, v) >>= _) = _
          rw [copyCollisionInsert, collisions_collision, hcount]
          rfl
  | succ levels ih =>
      obtain ⟨child, hslots, hrel⟩ := hnode
      let depth := maxDepth - (levels + 1)
      have hb := branch_lt_width depth k
      have hgroupNodup := keysNodup_onBranch hnodup depth (branch depth k)
      have hmany : 2 ≤ (onBranch depth entries (branch depth k)).length := by
        by_contra hfew
        apply hroom
        have hle := crowd_length_le levels
          (onBranch depth entries (branch depth k)) k
        have hset := (keysNodup_crowd hgroupNodup levels k).length_set k v
        change (AssocMap.set (crowd levels _ k) k v).length ≤ 2 ^ 5
        rw [hset]
        split <;> omega
      obtain ⟨c, hchild, hc⟩ := ownChild (hrel (branch depth k)) hmany
      have hbit := hslots.children.bit_ne_zero hb hchild
      simp only [doAdd, index_eq]
      rw [if_pos hbit, hslots.children.getElem? hb hchild, Option.bind_eq_bind,
        Option.bind_some, ih hc hgroupNodup hroom]
      rfl

/-! ## `champ::get` -/

theorem get_represents
    {levels : Nat}
    (hlevels : levels ≤ maxDepth)
    {node : NodeT (String × V) levels}
    {entries : ImmerMap V}
    (hnode : Represents levels node entries)
    (k : String) :
    get levels node (hashKey k >>> (bits * (maxDepth - levels))) k =
      some (AssocMap.find entries k) := by
  induction levels generalizing entries with
  | zero =>
      have hcollision : node = collision entries := hnode
      rw [hcollision, get, collisions_collision]
      congr 1
      clear hnode hcollision
      induction entries with
      | nil => rfl
      | cons e entries ih =>
          by_cases he : e.1 = k
          · rw [List.find?_cons_of_pos (by simpa using he), AssocMap.find, if_pos he]
            rfl
          · rw [List.find?_cons_of_neg (by simpa using he), AssocMap.find, if_neg he]
            exact ih
  | succ levels ih =>
      obtain ⟨child, hslots, hrel⟩ := hnode
      let depth := maxDepth - (levels + 1)
      have hb := branch_lt_width depth k
      have hfind := find_onBranch depth entries k
      have hshift : hashKey k >>> (bits * depth) >>> bits =
          hashKey k >>> (bits * (maxDepth - levels)) := by
        have hsum : bits * depth + bits = bits * (maxDepth - levels) := by
          simp only [depth, bits]
          omega
        rw [← BitVec.shiftRight_add, hsum]
      simp only [get, lookup_eq_branch]
      rcases group_cases (onBranch depth entries (branch depth k)) with
        hnil | ⟨e, hone⟩ | hmany
      · have hvalue : single (onBranch depth entries (branch depth k)) = none := by
          rw [hnil]
          rfl
        have hchild := noChild (hrel (branch depth k)) (by rw [hnil]; simp)
        rw [if_neg (hslots.children.not_bit_ne_zero hb hchild),
          if_neg (hslots.values.not_bit_ne_zero hb hvalue),
          ← hfind, hnil]
        rfl
      · have hvalue : single (onBranch depth entries (branch depth k)) = some e :=
          single_eq_some.mpr hone
        have hbit := hslots.values.bit_ne_zero hb hvalue
        have hchild := noChild (hrel (branch depth k)) (by rw [hone]; simp)
        rw [if_neg (hslots.children.not_bit_ne_zero hb hchild),
          if_pos hbit, hslots.values.getElem? hb hvalue, Option.bind_eq_bind,
          Option.bind_some, ← hfind, hone, AssocMap.find]
        by_cases hek : e.1 = k
        · rw [if_pos hek, if_pos hek]
          rfl
        · rw [if_neg hek, if_neg hek]
          rfl
      · obtain ⟨c, hchild, hc⟩ := ownChild (hrel (branch depth k)) hmany
        have hbit := hslots.children.bit_ne_zero hb hchild
        rw [if_pos hbit, hslots.children.getElem? hb hchild, Option.bind_eq_bind,
          Option.bind_some, ← hfind]
        change get levels c (hashKey k >>> (bits * depth) >>> bits) k = _
        rw [hshift]
        exact ih (by omega) hc

/-! ## `champ::sub` -/

/-- The entries below a level that lie on branches which several keys share. -/
def sharedEntries (depth : Nat) (entries : ImmerMap V) (js : List Nat) : ImmerMap V :=
  js.flatMap fun b => (several (onBranch depth entries b)).getD []

section Counting

variable
  {levels : Nat}
  {node : NodeT (String × V) (levels + 1)}
  {entries : ImmerMap V}
  {child : Nat → Option (NodeT (String × V) levels)}

/-- An inner node holds the entries of single keys, its children the others. -/
theorem entries_perm
    {depth : Nat}
    (hslots : Slots node (fun b => single (onBranch depth entries b)) child) :
    entries.Perm (node.values ++ sharedEntries depth entries (List.range 32)) := by
  have hall : entries.filter (fun e => decide (branch depth e.1 ∈ List.range 32)) =
      entries := by
    apply List.filter_eq_self.mpr
    intro e _
    simpa using branch_lt_width depth e.1
  have hpart := ImmerMap.flatMap_onBranch_perm depth entries (List.range 32)
    List.nodup_range
  rw [hall] at hpart
  have hsplit : (List.range 32).flatMap (onBranch depth entries) =
      (List.range 32).flatMap (fun b => (single (onBranch depth entries b)).toList ++
        (several (onBranch depth entries b)).getD []) := by
    apply List.flatMap_congr
    intro b _
    generalize onBranch depth entries b = group
    match group with
    | [] => rfl
    | [e] => rfl
    | e :: e' :: group => rfl
  rw [hslots.values.items, List.filterMap_eq_flatMap_toList]
  refine List.Perm.trans ?_ (List.flatMap_append_perm _ _ _).symm
  rw [← hsplit]
  exact hpart.symm

theorem sharedEntries_eq_nil
    (hrel : ∀ b, Option.Rel (Represents levels) (child b)
      (several (onBranch (maxDepth - (levels + 1)) entries b)))
    {js : List Nat}
    (hnone : js.filterMap child = []) :
    sharedEntries (maxDepth - (levels + 1)) entries js = [] := by
  apply List.flatMap_eq_nil_iff.mpr
  intro b hb
  have hb' := hrel b
  rw [List.filterMap_eq_nil_iff.mp hnone b hb] at hb'
  cases hgroup : several (onBranch (maxDepth - (levels + 1)) entries b) with
  | none => rfl
  | some group =>
      rw [hgroup] at hb'
      cases hb'

/-- Every child stands for two entries at least. -/
theorem two_mul_le_length_sharedEntries
    (hrel : ∀ b, Option.Rel (Represents levels) (child b)
      (several (onBranch (maxDepth - (levels + 1)) entries b)))
    (js : List Nat) :
    2 * (js.filterMap child).length ≤
      (sharedEntries (maxDepth - (levels + 1)) entries js).length := by
  induction js with
  | nil =>
      exact Nat.le_refl _
  | cons b js ih =>
      have hb := hrel b
      rw [sharedEntries, List.flatMap_cons, List.length_append]
      change _ ≤ _ + (sharedEntries _ _ js).length
      cases hgroup : several (onBranch (maxDepth - (levels + 1)) entries b) with
      | none =>
          rw [hgroup] at hb
          cases hc : child b with
          | none =>
              rw [List.filterMap_cons_none hc]
              omega
          | some c =>
              rw [hc] at hb
              cases hb
      | some group =>
          obtain ⟨rfl, htwo⟩ := several_eq_some.mp hgroup
          rw [Option.getD_some]
          cases hc : child b with
          | none =>
              rw [List.filterMap_cons_none hc]
              omega
          | some c =>
              rw [List.filterMap_cons_some hc, List.length_cons]
              omega

/-- The entries shared below an only child. -/
theorem sharedEntries_eq_group
    (hslots : Slots node
      (fun b => single (onBranch (maxDepth - (levels + 1)) entries b)) child)
    (hrel : ∀ b, Option.Rel (Represents levels) (child b)
      (several (onBranch (maxDepth - (levels + 1)) entries b)))
    {b : Nat}
    (hb : b < 32)
    {c : NodeT (String × V) levels}
    (hc : child b = some c)
    (hone : popcount node.nodemap = 1) :
    sharedEntries (maxDepth - (levels + 1)) entries (List.range 32) =
      onBranch (maxDepth - (levels + 1)) entries b := by
  have hlength := congrArg List.length (hslots.children.items_split hb)
  rw [← hslots.children.length, hone, hc, Option.toList_some, List.singleton_append,
    List.length_append, List.length_cons] at hlength
  have hbelow := sharedEntries_eq_nil hrel
    (List.length_eq_zero_iff.mp (show ((List.range b).filterMap child).length = 0 by omega))
  have habove := sharedEntries_eq_nil hrel
    (List.length_eq_zero_iff.mp
      (show ((List.range' (b + 1) (32 - b - 1)).filterMap child).length = 0 by omega))
  rw [sharedEntries] at hbelow habove
  rw [sharedEntries, PackedArray.range_split hb, List.flatMap_append, List.flatMap_cons,
    hbelow, habove, List.nil_append, List.append_nil]
  have hown := hrel b
  rw [hc] at hown
  cases hgroup : several (onBranch (maxDepth - (levels + 1)) entries b) with
  | none =>
      rw [hgroup] at hown
      cases hown
  | some group =>
      rw [(several_eq_some.mp hgroup).1]
      rfl

end Counting

/--
What `do_sub` answers on a node that represents the entries.  Below the root it
leaves no node with a single entry behind.
-/
inductive Subtracts
    (levels : Nat)
    (entries : ImmerMap V)
    (k : String) : Option (SubResult (String × V) levels) → Prop
  | nothing
      (hfind : AssocMap.find entries k = none) :
      Subtracts levels entries k (some .nothing)
  | singleton
      {e : String × V}
      (hfind : (AssocMap.find entries k).isSome = true)
      (hlevels : levels < maxDepth)
      (hrest : AssocMap.erase entries k = [e]) :
      Subtracts levels entries k (some (.singleton e))
  | tree
      {node : NodeT (String × V) levels}
      (hfind : (AssocMap.find entries k).isSome = true)
      (hrest : levels < maxDepth → 2 ≤ (AssocMap.erase entries k).length)
      (hnode : Represents levels node (AssocMap.erase entries k)) :
      Subtracts levels entries k (some (.tree node))

theorem represents_empty
    (levels : Nat) :
    Represents (levels + 1) (inner 0#32 0#32 [] [])
      ([] : ImmerMap V) := by
  refine ⟨fun _ => none, .inner Packs.empty Packs.empty, ?_⟩
  intro b
  exact .none

omit [StdHash] in
/-- Of two entries the one that is not at the offset. -/
theorem other_of_two
    {entries : ImmerMap V}
    {offset : Nat}
    (htwo : entries.length = 2)
    (hlt : offset < entries.length) :
    ∃ o,
      entries[if offset = 0 then 1 else 0]? = some o ∧
      entries.take offset ++ entries.drop (offset + 1) = [o] := by
  obtain ⟨x, y, rfl⟩ := List.length_eq_two.mp htwo
  have hoffset : offset = 0 ∨ offset = 1 := by
    simp only [List.length_cons, List.length_nil] at hlt
    omega
  rcases hoffset with rfl | rfl
  · exact ⟨y, rfl, rfl⟩
  · exact ⟨x, rfl, rfl⟩

theorem doSub_collision
    {entries : ImmerMap V}
    (hnodup : AssocMap.KeysNodup entries)
    (k : String)
    (hroom : entries.length ≤ branches)
    (hsize : 2 ≤ entries.length) :
    Subtracts 0 entries k (doSub 0 (collision entries) k (hashKey k)) := by
  rw [doSub, collisions_collision]
  cases hpos : entries.findIdx? (fun e => e.1 == k) with
  | none =>
      exact .nothing (AssocMap.findIdx?_eq_none_iff.mp hpos)
  | some pos =>
      obtain ⟨hlt, heq⟩ := hnodup.erase_eq_of_findIdx? hpos
      have hfind : (AssocMap.find entries k).isSome = true := by
        cases hk : AssocMap.find entries k with
        | none =>
            rw [AssocMap.findIdx?_eq_none_iff.mpr hk] at hpos
            cases hpos
        | some _ => rfl
      have hlength := hnodup.length_erase hfind
      change Subtracts 0 entries k (if entries.length > 2 then _ else _)
      by_cases hmany : entries.length > 2
      · have hcount : makeCollisionN (entries.length - 1) = some () :=
          assert_eq_some (show entries.length - 1 ≤ branches by omega)
        rw [if_pos hmany, copyCollisionRemove, collisions_collision,
          assert_eq_some (show entries.length > 1 by omega), hcount, heq]
        exact .tree hfind (fun _ => by omega) rfl
      · obtain ⟨o, ho, hleft⟩ := other_of_two (by omega) hlt
        rw [if_neg hmany, ho]
        exact .singleton hfind (by decide) (heq.symm.trans hleft)

section Inner

variable
  {levels : Nat}
  {node : NodeT (String × V) (levels + 1)}
  {entries : ImmerMap V}
  {child : Nat → Option (NodeT (String × V) levels)}
  {k : String}
  {e : String × V}

omit [StdHash] in
theorem shift_pos_iff
    (levels : Nat) :
    shift (levels + 1) > 0 ↔ levels + 1 < maxDepth := by
  simp only [shift, bits]
  omega

/-- A node without children holds every entry in a slot of its own. -/
theorem entries_perm_values
    (hslots : Slots node
      (fun b => single (onBranch (maxDepth - (levels + 1)) entries b)) child)
    (hrel : ∀ b, Option.Rel (Represents levels) (child b)
      (several (onBranch (maxDepth - (levels + 1)) entries b)))
    (hnodemap : node.nodemap = 0#32) :
    entries.Perm node.values := by
  have hperm := entries_perm hslots
  have hchildren : (List.range 32).filterMap child = [] := by
    apply List.filterMap_eq_nil_iff.mpr
    intro b _
    exact hslots.children.zero_iff.mp hnodemap b
  rw [sharedEntries_eq_nil hrel hchildren, List.append_nil] at hperm
  exact hperm

/-- The entries of the node are the one of the key and two more at least. -/
theorem two_le_length_erase
    (hslots : Slots node
      (fun b => single (onBranch (maxDepth - (levels + 1)) entries b)) child)
    (hrel : ∀ b, Option.Rel (Represents levels) (child b)
      (several (onBranch (maxDepth - (levels + 1)) entries b)))
    (hnodup : AssocMap.KeysNodup entries)
    (hfind : (AssocMap.find entries k).isSome = true)
    (hpositive : 0 < node.values.length)
    (hmore : node.nodemap ≠ 0#32 ∨ popcount node.datamap > 2) :
    2 ≤ (AssocMap.erase entries k).length := by
  have hrest := hnodup.length_erase hfind
  have hlength := (entries_perm hslots).length_eq
  rw [List.length_append] at hlength
  rcases hmore with hnodemap | hdatamap
  · have hshared := two_mul_le_length_sharedEntries hrel (List.range 32)
    have hchildren := List.length_pos_iff.mpr (hslots.children.items_ne_nil hnodemap)
    rw [hslots.children.items] at hchildren
    omega
  · rw [hslots.values.length] at hdatamap
    omega

/-- Once its slot is free, the node represents the entries without the key. -/
theorem represents_erase
    (hrel : ∀ b, Option.Rel (Represents levels) (child b)
      (several (onBranch (maxDepth - (levels + 1)) entries b)))
    (hchild : child (branch (maxDepth - (levels + 1)) k) = none)
    (hone : onBranch (maxDepth - (levels + 1)) entries
      (branch (maxDepth - (levels + 1)) k) = [e])
    (hek : e.1 = k)
    {node' : NodeT (String × V) (levels + 1)}
    (hslots : Slots node'
      (Function.update (fun b => single (onBranch (maxDepth - (levels + 1)) entries b))
        (branch (maxDepth - (levels + 1)) k) none) child) :
    Represents (levels + 1) node' (AssocMap.erase entries k) := by
  have herase := onBranch_erase (maxDepth - (levels + 1)) entries k
  have hown : onBranch (maxDepth - (levels + 1)) (AssocMap.erase entries k)
      (branch (maxDepth - (levels + 1)) k) = [] := by
    rw [herase, if_pos rfl, hone, AssocMap.erase,
      List.filter_cons_of_neg (by simpa using hek)]
    rfl
  refine represents_of_update (c := none) ?_ hrel ?_
    (fun x hx => (herase x).trans (if_neg hx))
  · rw [hown, ← hchild, Function.update_eq_self]
    exact hslots
  · rw [hown]
    exact .none

/-- A node with two values and no children, of which one is left. -/
theorem doSub_value_of_two
    (hslots : Slots node
      (fun b => single (onBranch (maxDepth - (levels + 1)) entries b)) child)
    (hrel : ∀ b, Option.Rel (Represents levels) (child b)
      (several (onBranch (maxDepth - (levels + 1)) entries b)))
    (hone : onBranch (maxDepth - (levels + 1)) entries
      (branch (maxDepth - (levels + 1)) k) = [e])
    (hek : e.1 = k)
    (hnodemap : node.nodemap = 0#32)
    (htwo : popcount node.datamap = 2) :
    ∃ o,
      node.values[if popcount (node.datamap &&&
        (1#32 <<< branch (maxDepth - (levels + 1)) k - 1#32)) = 0 then 1 else 0]? =
          some o ∧
      AssocMap.erase entries k = [o] ∧
      Represents (levels + 1)
        (inner 0#32 (node.datamap &&&
          ~~~(1#32 <<< branch (maxDepth - (levels + 1)) k)) [o] [])
        (AssocMap.erase entries k) := by
  have hb := branch_lt_width (maxDepth - (levels + 1)) k
  have hvalue : single (onBranch (maxDepth - (levels + 1)) entries
      (branch (maxDepth - (levels + 1)) k)) = some e := single_eq_some.mpr hone
  have hchild := noChild (hrel (branch (maxDepth - (levels + 1)) k)) (by rw [hone]; simp)
  have hlt := (List.getElem?_eq_some_iff.mp (hslots.values.getElem? hb hvalue)).1
  have hremoved := hslots.values.remove hb hvalue
  have hchildren : node.children = [] := by
    rw [hslots.children.items]
    apply List.filterMap_eq_nil_iff.mpr
    intro b _
    exact hslots.children.zero_iff.mp hnodemap b
  have hempty : Packs 0#32 [] child := by
    rw [← hnodemap, ← hchildren]
    exact hslots.children
  rw [hslots.values.length] at htwo
  obtain ⟨o, ho, hleft⟩ := other_of_two htwo hlt
  rw [hleft] at hremoved
  have hnode := represents_erase hrel hchild hone hek (.inner hremoved hempty)
  obtain ⟨child', hslots', hrel'⟩ := hnode
  exact ⟨o, ho, List.perm_singleton.mp (entries_perm_values hslots' hrel' rfl),
    child', hslots', hrel'⟩

/-- The entry of the key has a slot of its own. -/
theorem doSub_value
    (hslots : Slots node
      (fun b => single (onBranch (maxDepth - (levels + 1)) entries b)) child)
    (hrel : ∀ b, Option.Rel (Represents levels) (child b)
      (several (onBranch (maxDepth - (levels + 1)) entries b)))
    (hnodup : AssocMap.KeysNodup entries)
    (hsize : levels + 1 < maxDepth → 2 ≤ entries.length)
    (hone : onBranch (maxDepth - (levels + 1)) entries
      (branch (maxDepth - (levels + 1)) k) = [e]) :
    Subtracts (levels + 1) entries k (doSub (levels + 1) node k (hashKey k)) := by
  let depth := maxDepth - (levels + 1)
  have hb := branch_lt_width depth k
  have hfind := find_onBranch depth entries k
  have hvalue : single (onBranch depth entries (branch depth k)) = some e :=
    single_eq_some.mpr hone
  have hchild := noChild (hrel (branch depth k)) (by rw [hone]; simp)
  have hget := hslots.values.getElem? hb hvalue
  have hpositive : 0 < node.values.length :=
    Nat.zero_lt_of_lt (List.getElem?_eq_some_iff.mp hget).1
  rw [hone] at hfind
  simp only [doSub, index_eq]
  rw [if_neg (hslots.children.not_bit_ne_zero hb hchild),
    if_pos (hslots.values.bit_ne_zero hb hvalue), hget, Option.bind_eq_bind,
    Option.bind_some]
  by_cases hek : e.1 = k
  · have hk : (AssocMap.find entries k).isSome = true := by
      rw [← hfind, AssocMap.find, if_pos hek]
      rfl
    rw [if_pos hek]
    by_cases hmore : node.nodemap ≠ 0#32 ∨ popcount node.datamap > 2
    · obtain ⟨node', hnode', hslots'⟩ := hslots.copyInnerRemoveValue hb hvalue hchild
      rw [if_pos hmore, hnode']
      exact .tree hk
        (fun _ => two_le_length_erase hslots hrel hnodup hk hpositive hmore)
        (represents_erase hrel hchild hone hek hslots')
    · have hnodemap : node.nodemap = 0#32 := by
        by_contra hne
        exact hmore (.inl hne)
      rw [if_neg hmore]
      by_cases htwo : popcount node.datamap = 2
      · obtain ⟨o, ho, hrest, hnode⟩ :=
          doSub_value_of_two hslots hrel hone hek hnodemap htwo
        rw [if_pos htwo, ho, Option.bind_some]
        by_cases hshift : shift (levels + 1) > 0
        · rw [if_pos hshift]
          exact .singleton hk ((shift_pos_iff levels).mp hshift) hrest
        · rw [if_neg hshift, makeInnerN_eq_some (by omega) (by omega)]
          refine .tree hk (fun hlevels => ?_) hnode
          exact absurd ((shift_pos_iff levels).mpr hlevels) hshift
      · -- The map is empty now, and only the root may be.
        have hlength := (entries_perm_values hslots hrel hnodemap).length_eq
        have hrest := hnodup.length_erase hk
        have hcount := hslots.values.length
        have hnil : AssocMap.erase entries k = [] :=
          List.length_eq_zero_iff.mp (by omega)
        have hzero : shift (levels + 1) = 0 := by
          by_contra hne
          have := hsize ((shift_pos_iff levels).mp (by omega))
          omega
        rw [if_neg htwo, assert_eq_some hzero]
        refine .tree hk (fun hlevels => ?_) ?_
        · have := (shift_pos_iff levels).mpr hlevels
          omega
        · rw [hnil]
          exact represents_empty levels
  · rw [if_neg hek]
    refine .nothing ?_
    rw [← hfind, AssocMap.find, if_neg hek]
    rfl

/-- The entry of the key lies below a child, which has answered. -/
theorem doSub_child
    (hslots : Slots node
      (fun b => single (onBranch (maxDepth - (levels + 1)) entries b)) child)
    (hrel : ∀ b, Option.Rel (Represents levels) (child b)
      (several (onBranch (maxDepth - (levels + 1)) entries b)))
    (hnodup : AssocMap.KeysNodup entries)
    (hlevels : levels + 1 ≤ maxDepth)
    {c : NodeT (String × V) levels}
    (hchild : child (branch (maxDepth - (levels + 1)) k) = some c)
    (hmany : 2 ≤ (onBranch (maxDepth - (levels + 1)) entries
      (branch (maxDepth - (levels + 1)) k)).length)
    (hsub : Subtracts levels
      (onBranch (maxDepth - (levels + 1)) entries
        (branch (maxDepth - (levels + 1)) k)) k (doSub levels c k (hashKey k))) :
    Subtracts (levels + 1) entries k (doSub (levels + 1) node k (hashKey k)) := by
  let depth := maxDepth - (levels + 1)
  have hb := branch_lt_width depth k
  have hfind := find_onBranch depth entries k
  have herase := onBranch_erase depth entries k
  have hother : ∀ x, branch depth k ≠ x →
      onBranch depth (AssocMap.erase entries k) x = onBranch depth entries x :=
    fun x hx => (herase x).trans (if_neg hx)
  have hown := herase (branch depth k)
  rw [if_pos rfl] at hown
  have hvalue := single_eq_none_of_length hmany
  have hperm := entries_perm hslots
  simp only [doSub, index_eq]
  rw [if_pos (hslots.children.bit_ne_zero hb hchild),
    hslots.children.getElem? hb hchild, Option.bind_eq_bind, Option.bind_some]
  generalize doSub levels c k (hashKey k) = answer at hsub
  cases hsub with
  | nothing hnone =>
      exact .nothing (hfind.symm.trans hnone)
  | @singleton e hsome _ hrest =>
      have hk : (AssocMap.find entries k).isSome = true := by
        rw [← hfind]
        exact hsome
      have hlength := hnodup.length_erase hk
      have hgroup := (keysNodup_onBranch hnodup depth (branch depth k)).length_erase hsome
      rw [hrest, List.length_singleton] at hgroup
      rw [hrest] at hown
      change Subtracts (levels + 1) entries k
        (if node.datamap = 0#32 ∧ popcount node.nodemap = 1 ∧
          shift (levels + 1) > 0 then _ else _)
      by_cases honly : node.datamap = 0#32 ∧ popcount node.nodemap = 1 ∧
          shift (levels + 1) > 0
      · obtain ⟨hdatamap, hnodemap, hshift⟩ := honly
        have hvalues : node.values = [] := by
          rw [hslots.values.items]
          apply List.filterMap_eq_nil_iff.mpr
          intro b _
          exact hslots.values.zero_iff.mp hdatamap b
        have hshared := sharedEntries_eq_group hslots hrel hb hchild hnodemap
        rw [hvalues, hshared, List.nil_append] at hperm
        have hperm' := hperm.filter (fun e => e.1 ≠ k)
        rw [if_pos ⟨hdatamap, hnodemap, hshift⟩]
        refine .singleton hk ((shift_pos_iff levels).mp hshift) ?_
        apply List.perm_singleton.mp
        rw [← hrest]
        exact hperm'
      · obtain ⟨node', hnode', hslots'⟩ :=
          hslots.copyInnerReplaceInline hb hvalue hchild e
        rw [if_neg honly, hnode']
        refine .tree hk (fun hlevels => ?_)
          (represents_of_update (c := none) ?_ hrel ?_ hother)
        · have hsum := hperm.length_eq
          have hshared := two_mul_le_length_sharedEntries hrel (List.range 32)
          have hcount := hslots.children.length
          have hpositive := List.length_pos_iff.mpr
            (hslots.children.items_ne_nil (by
              rw [Ne, hslots.children.zero_iff]
              intro hnone
              rw [hnone] at hchild
              cases hchild))
          rw [List.length_append] at hsum
          rw [← hslots.children.items] at hshared
          by_cases hdatamap : node.datamap = 0#32
          · have hnodemap : popcount node.nodemap ≠ 1 := fun h =>
              honly ⟨hdatamap, h, (shift_pos_iff levels).mpr hlevels⟩
            omega
          · have hvalues := List.length_pos_iff.mpr
              (hslots.values.items_ne_nil hdatamap)
            omega
        · rw [hown]
          exact hslots'
        · rw [hown]
          exact .none
  | @tree c' hsome hrest hnode =>
      have hk : (AssocMap.find entries k).isSome = true := by
        rw [← hfind]
        exact hsome
      obtain ⟨node', hnode', hslots'⟩ := hslots.copyInnerReplace hb hchild c'
      have htwo := hrest (by omega)
      change Subtracts (levels + 1) entries k (Hamts.copyInnerReplace node _ c' >>= _)
      rw [hnode']
      refine .tree hk (fun _ => ?_)
        (represents_of_update (c := some c') ?_ hrel ?_ hother)
      · rw [← hown] at htwo
        exact Nat.le_trans htwo (List.length_filter_le _ _)
      · rw [hown, single_eq_none_of_length htwo, ← hvalue, Function.update_eq_self]
        exact hslots'
      · rw [hown, several_eq_some.mpr ⟨rfl, htwo⟩]
        exact .some hnode

end Inner

/-- `do_sub` on a node that represents the entries. -/
theorem doSub_subtracts
    {levels : Nat}
    (hlevels : levels ≤ maxDepth)
    {node : NodeT (String × V) levels}
    {entries : ImmerMap V}
    (hnode : Represents levels node entries)
    (hnodup : AssocMap.KeysNodup entries)
    (k : String)
    (hroom : (crowd levels entries k).length ≤ branches)
    (hsize : levels < maxDepth → 2 ≤ entries.length) :
    Subtracts levels entries k (doSub levels node k (hashKey k)) := by
  induction levels generalizing entries with
  | zero =>
      have hcollision : node = collision entries := hnode
      rw [hcollision]
      exact doSub_collision hnodup k hroom (hsize (by decide))
  | succ levels ih =>
      obtain ⟨child, hslots, hrel⟩ := hnode
      let depth := maxDepth - (levels + 1)
      have hb := branch_lt_width depth k
      have hgroupNodup := keysNodup_onBranch hnodup depth (branch depth k)
      rcases group_cases (onBranch depth entries (branch depth k)) with
        hnil | ⟨e, hone⟩ | hmany
      · have hvalue : single (onBranch depth entries (branch depth k)) = none := by
          rw [hnil]
          rfl
        have hchild := noChild (hrel (branch depth k)) (by rw [hnil]; simp)
        simp only [doSub, index_eq]
        rw [if_neg (hslots.children.not_bit_ne_zero hb hchild),
          if_neg (hslots.values.not_bit_ne_zero hb hvalue)]
        refine .nothing ?_
        rw [← find_onBranch depth entries k, hnil]
        rfl
      · exact doSub_value hslots hrel hnodup hsize hone
      · obtain ⟨c, hchild, hc⟩ := ownChild (hrel (branch depth k)) hmany
        exact doSub_child hslots hrel hnodup hlevels hchild hmany
          (ih (by omega) hc hgroupNodup hroom (fun _ => hmany))

end Hamts

end AgencyNode
