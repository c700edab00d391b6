import AgencyNode.ChampUpdates

/-!
# The trie refines the entry list

Every operation on the trie keeps it the representation of the entry list on
which the same operation is done.  So lookup, size and iteration of a map are
those of its entry list, and no operation fails as long as no more than
`branches` keys share a hash.
-/

namespace AgencyNode

open Lib

namespace Hamts

open ImmerMap (branches maxDepth branch onBranch champOrder bucket)
open PackedArray (Packs)
open NodeT

variable {V : Type} [StdHash]

/-! ## Iteration -/

/-- The chunks of a node list its entries in the order of iteration. -/
theorem flatten_forEachChunk
    {levels : Nat}
    {node : NodeT (String × V) levels}
    {entries : ImmerMap V}
    (hnode : Represents levels node entries) :
    (forEachChunk levels node).flatten = champOrder levels entries := by
  induction levels generalizing entries with
  | zero =>
      have hcollision : node = collision entries := hnode
      rw [hcollision]
      exact List.append_nil entries
  | succ levels ih =>
      obtain ⟨child, hslots, hrel⟩ := hnode
      have hvalues : (if node.datamap = 0#32 then [] else [node.values]).flatten =
          node.values := by
        by_cases hdatamap : node.datamap = 0#32
        · rw [if_pos hdatamap, hslots.values.items]
          symm
          apply List.filterMap_eq_nil_iff.mpr
          intro b _
          exact hslots.values.zero_iff.mp hdatamap b
        · rw [if_neg hdatamap]
          exact List.append_nil _
      have hchildren : (if node.nodemap = 0#32 then []
          else node.children.flatMap (forEachChunk levels)) =
            node.children.flatMap (forEachChunk levels) := by
        by_cases hnodemap : node.nodemap = 0#32
        · have hnil : node.children = [] := by
            rw [hslots.children.items]
            apply List.filterMap_eq_nil_iff.mpr
            intro b _
            exact hslots.children.zero_iff.mp hnodemap b
          rw [if_pos hnodemap, hnil]
          rfl
        · rw [if_neg hnodemap]
      rw [forEachChunk, List.flatten_append, hvalues, hchildren, champOrder]
      congr 1
      · rw [hslots.values.items, List.filterMap_eq_flatMap_toList]
        apply List.flatMap_congr
        intro b _
        generalize onBranch (maxDepth - (levels + 1)) entries b = group
        cases group with
        | nil => rfl
        | cons e group =>
            cases group with
            | nil => rfl
            | cons e' group => simp [single]
      · rw [hslots.children.items, List.filterMap_eq_flatMap_toList,
          ← List.flatMap_id, List.flatMap_assoc, List.flatMap_assoc]
        apply List.flatMap_congr
        intro b _
        have hb := hrel b
        rcases group_cases (onBranch (maxDepth - (levels + 1)) entries b) with
          hnil | ⟨e, hone⟩ | hmany
        · rw [noChild hb (by rw [hnil]; simp), hnil]
          rfl
        · rw [noChild hb (by rw [hone]; simp), hone]
          rfl
        · obtain ⟨c, hchild, hc⟩ := ownChild hb hmany
          rw [hchild, if_pos hmany, ← ih hc]
          simp


/-! ## Whole maps -/

theorem bucket_crowd
    (levels : Nat)
    (entries : ImmerMap V)
    (k : String) :
    bucket (StdHash.hash k) (crowd levels entries k) =
      bucket (StdHash.hash k) entries := by
  induction levels generalizing entries with
  | zero => rfl
  | succ levels ih =>
      rw [crowd, ih, ImmerMap.bucket_onBranch, if_pos]
      rfl

theorem branch_eq_of_mem_crowd
    {levels : Nat}
    {entries : ImmerMap V}
    {k : String}
    {e : String × V}
    (he : e ∈ crowd levels entries k)
    {depth : Nat}
    (hlow : maxDepth - levels ≤ depth)
    (hdepth : depth < maxDepth) :
    e ∈ entries ∧ branch depth e.1 = branch depth k := by
  induction levels generalizing entries with
  | zero =>
      omega
  | succ levels ih =>
      by_cases hnow : depth = maxDepth - (levels + 1)
      · have hmem : ∀ (l : Nat) (es : ImmerMap V), e ∈ crowd l es k → e ∈ es := by
          intro l
          induction l with
          | zero => exact fun _ h => h
          | succ l ihl => exact fun es h => (List.mem_filter.mp (ihl _ h)).1
        have hon := List.mem_filter.mp (hmem levels _ he)
        rw [hnow]
        exact ⟨hon.1, by simpa using hon.2⟩
      · obtain ⟨hon, hbranch⟩ := ih he (by omega)
        exact ⟨(List.mem_filter.mp hon).1, hbranch⟩

/-- The collision node of a key holds the entries that share its hash. -/
theorem crowd_eq_bucket
    (entries : ImmerMap V)
    (k : String) :
    crowd maxDepth entries k = bucket (StdHash.hash k) entries := by
  rw [← bucket_crowd maxDepth entries k]
  symm
  apply List.filter_eq_self.mpr
  intro e he
  apply beq_iff_eq.mpr
  apply ImmerMap.eq_of_chunk_eq
  intro depth hdepth
  exact (branch_eq_of_mem_crowd he (by omega) hdepth).2

theorem bucket_set
    (entries : ImmerMap V)
    (k : String)
    (v : V)
    (h : UInt64) :
    bucket h (AssocMap.set entries k v) =
      if StdHash.hash k = h then AssocMap.set (bucket h entries) k v
      else bucket h entries := by
  have herase : bucket h (AssocMap.erase entries k) =
      AssocMap.erase (bucket h entries) k := by
    rw [bucket, bucket, AssocMap.erase, AssocMap.erase, List.filter_comm]
  by_cases hk : StdHash.hash k = h
  · rw [if_pos hk, AssocMap.set, AssocMap.set, ← herase, bucket,
      List.filter_cons_of_pos (by simpa using hk), bucket]
  · rw [if_neg hk, AssocMap.set, bucket, List.filter_cons_of_neg (by simpa using hk)]
    change bucket h (AssocMap.erase entries k) = _
    rw [herase]
    apply List.filter_eq_self.mpr
    intro e he
    have hhash : StdHash.hash e.1 = h := by
      simpa using (List.mem_filter.mp he).2
    have hne : e.1 ≠ k := by
      intro hek
      exact hk (hek ▸ hhash)
    simpa using hne

/-- No more than `branches` keys share a hash. -/
def Fits (entries : ImmerMap V) : Prop :=
  ∀ h, (bucket h entries).length ≤ branches

/-- The map holds the entries. -/
structure Refines (m : Champ V) (entries : ImmerMap V) : Prop where
  root : Represents maxDepth m.root entries
  size : m.size = entries.length
  keys : AssocMap.KeysNodup entries
  fits : Fits entries

theorem refines_empty :
    Refines (Champ.empty : Champ V) [] where
  root := represents_empty 12
  size := rfl
  keys := List.nodup_nil
  fits := fun _ => Nat.zero_le _

namespace Refines

variable {m : Champ V} {entries : ImmerMap V}

theorem find
    (h : Refines m entries)
    (k : String) :
    m.find k = some (AssocMap.find entries k) := by
  have hget := get_represents (Nat.le_refl maxDepth) h.root k
  rwa [Nat.sub_self, Nat.mul_zero, BitVec.ushiftRight_zero] at hget

theorem room_iff
    (h : Refines m entries)
    (k : String)
    (v : V) :
    (AssocMap.set (crowd maxDepth entries k) k v).length ≤ branches ↔
      Fits (AssocMap.set entries k v) := by
  rw [crowd_eq_bucket]
  constructor
  · intro hroom hash
    rw [bucket_set]
    by_cases hk : StdHash.hash k = hash
    · rw [if_pos hk, ← hk]
      exact hroom
    · rw [if_neg hk]
      exact h.fits hash
  · intro hfits
    have hown := hfits (StdHash.hash k)
    rwa [bucket_set, if_pos rfl] at hown

theorem set
    (h : Refines m entries)
    (k : String)
    (v : V)
    (hfits : Fits (AssocMap.set entries k v)) :
    ∃ m', m.set k v = some m' ∧ Refines m' (AssocMap.set entries k v) := by
  obtain ⟨root, hadd, hroot⟩ :=
    doAdd_represents h.root h.keys k v ((h.room_iff k v).mpr hfits)
  have hsize : m.size + (if (AssocMap.find entries k).isNone then 1 else 0) =
      (AssocMap.set entries k v).length := by
    rw [h.keys.length_set, h.size]
    cases AssocMap.find entries k <;> rfl
  refine ⟨⟨root, _⟩, ?_, ⟨hroot, hsize, h.keys.set k v, hfits⟩⟩
  rw [Champ.set, hadd]
  rfl

theorem set_eq_none
    (h : Refines m entries)
    (k : String)
    (v : V)
    (hfits : ¬ Fits (AssocMap.set entries k v)) :
    m.set k v = none := by
  rw [Champ.set, doAdd_overflows h.root h.keys k v
    (fun hroom => hfits ((h.room_iff k v).mp hroom))]
  rfl

theorem fits_erase
    (h : Refines m entries)
    (k : String) :
    Fits (AssocMap.erase entries k) := by
  intro hash
  refine Nat.le_trans ?_ (h.fits hash)
  exact (List.Sublist.filter _ List.filter_sublist).length_le

theorem erase
    (h : Refines m entries)
    (k : String) :
    ∃ m', m.erase k = some m' ∧ Refines m' (AssocMap.erase entries k) := by
  have hroom : (crowd maxDepth entries k).length ≤ branches := by
    rw [crowd_eq_bucket]
    exact h.fits _
  have hsub := doSub_subtracts (Nat.le_refl maxDepth) h.root h.keys k hroom
    (fun hlt => absurd hlt (Nat.lt_irrefl _))
  rw [Champ.erase]
  generalize doSub maxDepth m.root k (hashKey k) = answer at hsub
  cases hsub with
  | nothing hfind =>
      rw [AssocMap.erase_eq_self hfind]
      exact ⟨m, rfl, h⟩
  | singleton _ hlevels _ =>
      exact absurd hlevels (Nat.lt_irrefl _)
  | tree hfind _ hnode =>
      have hlength := h.keys.length_erase hfind
      refine ⟨⟨_, m.size - 1⟩, rfl, ⟨hnode, ?_, h.keys.erase k, h.fits_erase k⟩⟩
      rw [h.size, ← hlength]
      rfl

/-- Chunk by chunk, the map lists its entries in the order of `ImmerMap`. -/
theorem iterate
    (h : Refines m entries) :
    (forEachChunk maxDepth m.root).flatten = ImmerMap.iterate entries :=
  flatten_forEachChunk h.root

end Refines

/-! ## Runs -/

/-- A write on a map. -/
inductive Write (V : Type) where
  | set (key : String) (value : V)
  | erase (key : String)

namespace Write

def onChamp (m : Champ V) : Write V → Option (Champ V)
  | set key value => m.set key value
  | erase key => m.erase key

def onEntries (entries : ImmerMap V) : Write V → ImmerMap V
  | set key value => AssocMap.set entries key value
  | erase key => AssocMap.erase entries key

end Write

/-- The writes one after the other. -/
def runChamp (m : Champ V) (writes : List (Write V)) : Option (Champ V) :=
  writes.foldlM Write.onChamp m

/-- The writes one after the other, on the list of entries. -/
def runEntries (entries : ImmerMap V) (writes : List (Write V)) : ImmerMap V :=
  writes.foldl Write.onEntries entries

/-- One write keeps the map a refinement of the entries, if it does not fail. -/
theorem Refines.write
    {m : Champ V}
    {entries : ImmerMap V}
    (h : Refines m entries)
    (w : Write V) :
    (∃ m', w.onChamp m = some m' ∧ Refines m' (w.onEntries entries)) ∨
      w.onChamp m = none ∧ ¬ Fits (w.onEntries entries) := by
  cases w with
  | set key value =>
      by_cases hfits : Fits (AssocMap.set entries key value)
      · exact .inl (h.set key value hfits)
      · exact .inr ⟨h.set_eq_none key value hfits, hfits⟩
  | erase key =>
      exact .inl (h.erase key)

/-- A run of writes keeps it, or fails where too many keys share a hash. -/
theorem Refines.run
    {m : Champ V}
    {entries : ImmerMap V}
    (h : Refines m entries)
    (writes : List (Write V)) :
    (∃ m', runChamp m writes = some m' ∧ Refines m' (runEntries entries writes) ∧
        ∀ done, done <+: writes → Fits (runEntries entries done)) ∨
      runChamp m writes = none ∧
        ∃ done, done <+: writes ∧ ¬ Fits (runEntries entries done) := by
  induction writes generalizing m entries with
  | nil =>
      refine .inl ⟨m, rfl, h, ?_⟩
      intro done hdone
      rw [List.prefix_nil.mp hdone]
      exact h.fits
  | cons w writes ih =>
      rw [runChamp, List.foldlM_cons]
      rcases h.write w with ⟨m', hm', h'⟩ | ⟨hnone, hfits⟩
      · rw [hm']
        rcases ih h' with ⟨m'', hrun, hrefines, hall⟩ | ⟨hrun, done, hdone, hfits⟩
        · refine .inl ⟨m'', hrun, hrefines, ?_⟩
          intro done hdone
          cases done with
          | nil =>
              exact h.fits
          | cons w' done =>
              obtain ⟨rfl, hrest⟩ := List.cons_prefix_cons.mp hdone
              exact hall done hrest
        · exact .inr ⟨hrun, w :: done, List.cons_prefix_cons.mpr ⟨rfl, hdone⟩, hfits⟩
      · rw [hnone]
        refine .inr ⟨rfl, [w], ?_, hfits⟩
        exact List.cons_prefix_cons.mpr ⟨rfl, List.nil_prefix⟩

/--
**The trie is the map of its entries**, after any run of writes.  A run fails
exactly if at some point more keys share a hash than a collision node may hold.
-/
theorem champ_refines_entries
    (writes : List (Write V)) :
    ((runChamp Champ.empty writes).isSome = true ↔
      ∀ done, done <+: writes → Fits (runEntries [] done)) ∧
    ∀ m, runChamp Champ.empty writes = some m →
      (∀ k, m.find k = some (AssocMap.find (runEntries [] writes) k)) ∧
      m.size = (runEntries [] writes).length ∧
      (forEachChunk maxDepth m.root).flatten =
        ImmerMap.iterate (runEntries [] writes) := by
  rcases refines_empty.run writes with ⟨m', hrun, h, hall⟩ | ⟨hrun, done, hdone, hfits⟩
  · rw [hrun]
    refine ⟨⟨fun _ => hall, fun _ => rfl⟩, ?_⟩
    intro m hm
    cases hm
    exact ⟨h.find, h.size, h.iterate⟩
  · rw [hrun]
    constructor
    · constructor
      · intro hsome
        cases hsome
      · intro hall
        exact absurd (hall done hdone) hfits
    · intro m hm
      cases hm

end Hamts

end AgencyNode
