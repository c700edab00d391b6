import AgencyNode.ChampRefinement

/-!
# champ::equals

The comparison that `immer::map` has of its own walks two tries in step.  A map
with given entries has one shape only, up to the order within the collision
nodes, and these are compared as sets.  So the comparison decides whether the two
maps hold the same entries, whatever writes have built them.  The comparison of
`node_object` walks the two orders of iteration instead.
-/

namespace AgencyNode

open Lib

namespace Hamts

open ImmerMap (maxDepth onBranch champOrder)
open PackedArray (Packs)
open NodeT

/-- Which of two nodes are one and the same object. -/
structure Identity (T : Type) where
  same : {levels : Nat} → NodeT T levels → NodeT T levels → Bool
  eq_of_same : ∀ {levels : Nat} {a b : NodeT T levels}, same a b = true → a = b

section Definitions

variable {T : Type} [DecidableEq T]

/-- `equals_values`: `std::equal`. -/
def equalsValues : List T → List T → Bool
  | [], _ => true
  | a :: as, b :: bs => decide (a = b) && equalsValues as bs
  | _ :: _, [] => false

/-- `equals_collisions`. -/
def equalsCollisions (a b : List T) : Bool :=
  a.all fun x => b.any fun y => decide (x = y)

/-- `equals_tree`. -/
def equalsTree (object : Identity T) :
    (levels : Nat) → NodeT T levels → NodeT T levels → Bool
  | 0, a, b =>
      object.same a b ||
        (a.collisions.length == b.collisions.length &&
          equalsCollisions a.collisions b.collisions)
  | levels + 1, a, b =>
      object.same a b ||
        (a.nodemap == b.nodemap && a.datamap == b.datamap &&
          (a.children.zip b.children).all
            (fun pair => equalsTree object levels pair.1 pair.2) &&
          equalsValues a.values b.values)

/-- `champ::equals`, which is `operator==` of a map. -/
def Champ.equals
    {V : Type}
    [DecidableEq V]
    (object : Identity (String × V))
    (m other : Champ V) : Bool :=
  m.size == other.size && equalsTree object maxDepth m.root other.root

theorem equalsTree_of_same
    (object : Identity T)
    {levels : Nat}
    {a b : NodeT T levels}
    (h : object.same a b = true) :
    equalsTree object levels a b = true := by
  cases levels <;> simp [equalsTree, h]

theorem equalsValues_iff
    {as bs : List T}
    (hlength : as.length = bs.length) :
    equalsValues as bs = true ↔ as = bs := by
  induction as generalizing bs with
  | nil =>
      cases bs with
      | nil => simp [equalsValues]
      | cons b bs => cases hlength
  | cons a as ih =>
      cases bs with
      | nil => cases hlength
      | cons b bs =>
          have := ih (Nat.succ.inj hlength)
          simp [equalsValues, this]

end Definitions

variable {V : Type} [StdHash]

/-- What a node stands for, up to the order. -/
theorem perm_of_represents
    {levels : Nat}
    {node : NodeT (String × V) levels}
    {entries entries' : ImmerMap V}
    (h : Represents levels node entries)
    (h' : Represents levels node entries') :
    entries.Perm entries' := by
  have horder := (flatten_forEachChunk h).symm.trans (flatten_forEachChunk h')
  refine (ImmerMap.champOrder_perm levels entries).symm.trans ?_
  rw [horder]
  exact ImmerMap.champOrder_perm levels entries'

omit [StdHash] in
theorem single_eq_of_perm
    {group group' : ImmerMap V}
    (h : group.Perm group') :
    single group = single group' := by
  rcases group_cases group with rfl | ⟨e, rfl⟩ | hmany
  · rw [List.nil_perm.mp h]
  · rw [List.singleton_perm.mp h]
  · rw [single_eq_none_of_length hmany,
      single_eq_none_of_length (h.length_eq ▸ hmany)]

/-- Slots with children on the same branches, which stand for the same entries. -/
theorem isSome_child_iff
    {levels : Nat}
    {c : Option (NodeT (String × V) levels)}
    {group : ImmerMap V}
    (h : Option.Rel (Represents levels) c (several group)) :
    c.isSome = decide (2 ≤ group.length) := by
  by_cases hmany : 2 ≤ group.length
  · obtain ⟨node, hc, _⟩ := ownChild h hmany
    simp [hc, hmany]
  · simp [noChild h (by omega), hmany]

variable [DecidableEq V]

omit [StdHash] in
/-- Collision nodes of one length are compared as sets. -/
theorem equalsCollisions_iff
    {entries entries' : ImmerMap V}
    (hnodup : AssocMap.KeysNodup entries) :
    (entries.length == entries'.length && equalsCollisions entries entries') = true ↔
      entries.Perm entries' := by
  simp only [Bool.and_eq_true, beq_iff_eq, equalsCollisions, List.all_eq_true,
    List.any_eq_true, decide_eq_true_eq]
  constructor
  · rintro ⟨hlength, hsub⟩
    have hsubset : entries ⊆ entries' := by
      intro e he
      obtain ⟨e', he', rfl⟩ := hsub e he
      exact he'
    have hnodupEntries : entries.Nodup := List.Nodup.of_map _ hnodup
    exact (hnodupEntries.subperm hsubset).perm_of_length_le (Nat.le_of_eq hlength.symm)
  · intro hperm
    exact ⟨hperm.length_eq, fun e he => ⟨e, hperm.mem_iff.mp he, rfl⟩⟩

section Inner

variable
  {object : Identity (String × V)}
  {levels : Nat}
  {a b : NodeT (String × V) (levels + 1)}
  {entries entries' : ImmerMap V}
  {child child' : Nat → Option (NodeT (String × V) levels)}

omit [DecidableEq V] in
/-- A group of several entries is what its child stands for. -/
theorem represents_group
    {depth : Nat}
    (hrel : ∀ i, Option.Rel (Represents levels) (child i)
      (several (onBranch depth entries i)))
    {i : Nat}
    {c : NodeT (String × V) levels}
    (hc : child i = some c) :
    Represents levels c (onBranch depth entries i) ∧
      several (onBranch depth entries i) = some (onBranch depth entries i) := by
  have hsome := isSome_child_iff (hrel i)
  rw [hc] at hsome
  have hmany : 2 ≤ (onBranch depth entries i).length := by
    simpa using hsome.symm
  obtain ⟨node, hnode, hown⟩ := ownChild (hrel i) hmany
  obtain rfl := Option.some.inj (hc.symm.trans hnode)
  exact ⟨hown, several_eq_some.mpr ⟨rfl, hmany⟩⟩

omit [DecidableEq V] in
theorem several_eq_none
    {depth : Nat}
    (hrel : ∀ i, Option.Rel (Represents levels) (child i)
      (several (onBranch depth entries i)))
    {i : Nat}
    (hc : child i = none) :
    several (onBranch depth entries i) = none := by
  have hi := hrel i
  rw [hc] at hi
  generalize several (onBranch depth entries i) = o at hi
  cases hi
  rfl

/-- Inner nodes with the same values and children that agree pair by pair. -/
theorem perm_of_equalsTree
    (hslots : Slots a
      (fun i => single (onBranch (maxDepth - (levels + 1)) entries i)) child)
    (hslots' : Slots b
      (fun i => single (onBranch (maxDepth - (levels + 1)) entries' i)) child')
    (hrel : ∀ i, Option.Rel (Represents levels) (child i)
      (several (onBranch (maxDepth - (levels + 1)) entries i)))
    (hrel' : ∀ i, Option.Rel (Represents levels) (child' i)
      (several (onBranch (maxDepth - (levels + 1)) entries' i)))
    (hchildren : ∀ c c' i, child i = some c → child' i = some c' →
      equalsTree object levels c c' = true →
      (onBranch (maxDepth - (levels + 1)) entries i).Perm
        (onBranch (maxDepth - (levels + 1)) entries' i))
    (hnodemap : a.nodemap = b.nodemap)
    (hdatamap : a.datamap = b.datamap)
    (hall : (a.children.zip b.children).all
      (fun pair => equalsTree object levels pair.1 pair.2) = true)
    (hvalues : equalsValues a.values b.values = true) :
    entries.Perm entries' := by
  have hlength : a.values.length = b.values.length := by
    rw [← hslots.values.length, ← hslots'.values.length, hdatamap]
  have heq := (equalsValues_iff hlength).mp hvalues
  have hzip := hslots.children.zip (hnodemap ▸ hslots'.children)
  refine (entries_perm hslots).trans ?_
  rw [heq]
  refine List.Perm.trans ?_ (entries_perm hslots').symm
  refine List.Perm.append_left _ (List.Perm.flatMap_left _ ?_)
  intro i _
  have hsome := hslots.children.inUse i
  rw [hnodemap, hslots'.children.inUse i] at hsome
  cases hc : child i with
  | none =>
      rw [hc] at hsome
      have hc' : child' i = none := by simpa using hsome
      rw [several_eq_none hrel hc, several_eq_none hrel' hc']
  | some c =>
      rw [hc] at hsome
      obtain ⟨c', hc'⟩ := Option.isSome_iff_exists.mp hsome
      have hmem : (c, c') ∈ a.children.zip b.children := by
        apply hzip.mem_items.mpr
        exact ⟨i, by rw [hc, hc']; rfl⟩
      rw [(represents_group hrel hc).2, (represents_group hrel' hc').2]
      exact hchildren c c' i hc hc' (List.all_eq_true.mp hall (c, c') hmem)

/-- Inner nodes that stand for the same entries have the same shape. -/
theorem equalsTree_of_perm
    (hslots : Slots a
      (fun i => single (onBranch (maxDepth - (levels + 1)) entries i)) child)
    (hslots' : Slots b
      (fun i => single (onBranch (maxDepth - (levels + 1)) entries' i)) child')
    (hrel : ∀ i, Option.Rel (Represents levels) (child i)
      (several (onBranch (maxDepth - (levels + 1)) entries i)))
    (hrel' : ∀ i, Option.Rel (Represents levels) (child' i)
      (several (onBranch (maxDepth - (levels + 1)) entries' i)))
    (hchildren : ∀ c c' i, child i = some c → child' i = some c' →
      (onBranch (maxDepth - (levels + 1)) entries i).Perm
        (onBranch (maxDepth - (levels + 1)) entries' i) →
      equalsTree object levels c c' = true)
    (hperm : entries.Perm entries') :
    a.nodemap = b.nodemap ∧ a.datamap = b.datamap ∧
      (a.children.zip b.children).all
        (fun pair => equalsTree object levels pair.1 pair.2) = true ∧
      equalsValues a.values b.values = true := by
  have hgroups : ∀ i, (onBranch (maxDepth - (levels + 1)) entries i).Perm
      (onBranch (maxDepth - (levels + 1)) entries' i) := fun i => hperm.filter _
  have hvalues := (hslots.values.of_eq
    (fun i => single_eq_of_perm (hgroups i))).unique hslots'.values
  have hnodemap : a.nodemap = b.nodemap := by
    apply BitVec.eq_of_getLsbD_eq
    intro i _
    rw [hslots.children.inUse, hslots'.children.inUse,
      isSome_child_iff (hrel i), isSome_child_iff (hrel' i),
      (hgroups i).length_eq]
  have hzip := hslots.children.zip (hnodemap ▸ hslots'.children)
  refine ⟨hnodemap, hvalues.1, ?_, ?_⟩
  · apply List.all_eq_true.mpr
    rintro ⟨c, c'⟩ hmem
    obtain ⟨i, hi⟩ := hzip.mem_items.mp hmem
    obtain ⟨x, hc, hi⟩ := Option.bind_eq_some_iff.mp hi
    obtain ⟨y, hc', hi⟩ := Option.map_eq_some_iff.mp hi
    cases hi
    exact hchildren c c' i hc hc' (hgroups i)
  · rw [hvalues.2]
    exact (equalsValues_iff rfl).mpr rfl

end Inner

/-- Two nodes are equal exactly if they stand for the same entries. -/
theorem equalsTree_iff
    (object : Identity (String × V))
    {levels : Nat}
    {a b : NodeT (String × V) levels}
    {entries entries' : ImmerMap V}
    (ha : Represents levels a entries)
    (hb : Represents levels b entries')
    (hnodup : AssocMap.KeysNodup entries)
    (hnodup' : AssocMap.KeysNodup entries') :
    equalsTree object levels a b = true ↔ entries.Perm entries' := by
  induction levels generalizing entries entries' with
  | zero =>
      by_cases hsame : object.same a b = true
      · obtain rfl := object.eq_of_same hsame
        exact iff_of_true (equalsTree_of_same object hsame) (perm_of_represents ha hb)
      have hacol : a.collisions = entries := ha
      have hbcol : b.collisions = entries' := hb
      simp only [equalsTree, hsame, Bool.false_or, hacol, hbcol]
      exact equalsCollisions_iff hnodup
  | succ levels ih =>
      by_cases hsame : object.same a b = true
      · obtain rfl := object.eq_of_same hsame
        exact iff_of_true (equalsTree_of_same object hsame) (perm_of_represents ha hb)
      obtain ⟨child, hslots, hrel⟩ := ha
      obtain ⟨child', hslots', hrel'⟩ := hb
      have hchildren : ∀ c c' i, child i = some c → child' i = some c' →
          (equalsTree object levels c c' = true ↔
            (onBranch (maxDepth - (levels + 1)) entries i).Perm
              (onBranch (maxDepth - (levels + 1)) entries' i)) := by
        intro c c' i hc hc'
        exact ih (represents_group hrel hc).1 (represents_group hrel' hc').1
          (keysNodup_onBranch hnodup _ i) (keysNodup_onBranch hnodup' _ i)
      simp only [equalsTree, hsame, Bool.false_or, Bool.and_eq_true, beq_iff_eq]
      constructor
      · rintro ⟨⟨⟨hnodemap, hdatamap⟩, hall⟩, hvalues⟩
        exact perm_of_equalsTree hslots hslots' hrel hrel'
          (fun c c' i hc hc' => (hchildren c c' i hc hc').mp) hnodemap hdatamap hall hvalues
      · intro hperm
        obtain ⟨hnodemap, hdatamap, hall, hvalues⟩ :=
          equalsTree_of_perm hslots hslots' hrel hrel'
            (fun c c' i hc hc' => (hchildren c c' i hc hc').mpr) hperm
        exact ⟨⟨⟨hnodemap, hdatamap⟩, hall⟩, hvalues⟩

/--
**Two maps are equal exactly if they hold the same entries**, however they have
been written and whichever of their nodes they share.
-/
theorem champ_equals_iff
    (object : Identity (String × V))
    (writes writes' : List (Write V))
    (m m' : Champ V)
    (h : runChamp Champ.empty writes = some m)
    (h' : runChamp Champ.empty writes' = some m') :
    m.equals object m' = true ↔ ∀ k, m.find k = m'.find k := by
  have hrefines : ∀ (ws : List (Write V)) (x : Champ V),
      runChamp Champ.empty ws = some x → Refines x (runEntries [] ws) := by
    intro ws x hx
    rcases refines_empty.run ws with ⟨y, hy, hrefines, _⟩ | ⟨hnone, _⟩
    · rw [hx] at hy
      cases hy
      exact hrefines
    · rw [hx] at hnone
      cases hnone
  have hm := hrefines writes m h
  have hm' := hrefines writes' m' h'
  rw [Champ.equals, Bool.and_eq_true, beq_iff_eq, hm.size, hm'.size,
    equalsTree_iff object hm.root hm'.root hm.keys hm'.keys]
  constructor
  · rintro ⟨_, hperm⟩ k
    rw [hm.find, hm'.find, hm.keys.find_eq_of_perm hm'.keys hperm]
  · intro hfind
    have hperm : (runEntries [] writes).Perm (runEntries [] writes') := by
      have hsame : ∀ k, AssocMap.find (runEntries [] writes) k =
          AssocMap.find (runEntries [] writes') k := by
        intro k
        have hk := hfind k
        rw [hm.find, hm'.find] at hk
        exact Option.some.inj hk
      apply (hm'.keys.perm_iff (fun k hk => hk)).mpr
      refine ⟨fun k _ => hsame k, hm.keys, ?_⟩
      intro k hk
      rw [← AssocMap.isSome_find_iff, ← hsame k, AssocMap.isSome_find_iff]
      exact hk
    exact ⟨hperm.length_eq, hperm⟩

omit [StdHash] in
/-- Two colliding keys, written in either order. -/
theorem champ_equals_iff_collision :
    letI := constantHash
    ∃ m m' : Champ Int,
      runChamp Champ.empty [.set "a" 1, .set "b" 2] = some m ∧
        runChamp Champ.empty [.set "b" 2, .set "a" 1] = some m' ∧
        (m.equals ⟨fun _ _ => false, fun h => by cases h⟩ m' = true ↔
          ∀ k, m.find k = m'.find k) := by
  let := constantHash
  have hrun : (runChamp (Champ.empty : Champ Int)
      [.set "a" 1, .set "b" 2]).isSome = true := by
    decide +kernel
  have hrun' : (runChamp (Champ.empty : Champ Int)
      [.set "b" 2, .set "a" 1]).isSome = true := by
    decide +kernel
  obtain ⟨m, hm⟩ := Option.isSome_iff_exists.mp hrun
  obtain ⟨m', hm'⟩ := Option.isSome_iff_exists.mp hrun'
  exact ⟨m, m', hm, hm', champ_equals_iff _ _ _ _ _ hm hm'⟩

end Hamts

end AgencyNode
