import AgencyNode.ImmerMap

/-!
# The order of iteration

Two maps list their keys in the same order if and only if, for every hash, they
hold the keys with that hash in the same order.  So the order of iteration is a
function of the set of keys as long as no two keys share their hash, and depends
on the history of the map otherwise.
-/

namespace AgencyNode

open Lib

namespace ImmerMap

/-! ## Branches -/

/-- The chunk of a hash at one level. -/
def chunk (depth : Nat) (h : UInt64) : Nat :=
  (h.toNat >>> (bits * depth)) % branches

/-- The levels of inner nodes see the whole hash. -/
theorem eq_of_chunk_eq
    {h h' : UInt64}
    (hchunk : ∀ depth < maxDepth, chunk depth h = chunk depth h') :
    h = h' := by
  apply UInt64.toNat_inj.mp
  apply Nat.eq_of_testBit_eq
  intro i
  by_cases hi : i < 64
  · have hdepth := hchunk (i / bits) (by simp only [bits, maxDepth]; omega)
    have hbit := congrArg (fun n => n.testBit (i % bits)) hdepth
    have hlt : i % bits < bits := Nat.mod_lt _ (by decide)
    have hsplit : bits * (i / bits) + i % bits = i := Nat.div_add_mod i bits
    simpa only [chunk, branches, Nat.testBit_mod_two_pow, hlt, decide_true,
      Bool.true_and, Nat.testBit_shiftRight, hsplit] using hbit
  · have hzero : ∀ x : UInt64, x.toNat.testBit i = false := by
      intro x
      apply Nat.testBit_lt_two_pow
      exact Nat.lt_of_lt_of_le x.toNat_lt (Nat.pow_le_pow_right (by omega) (by omega))
    rw [hzero h, hzero h']

/-- Only one of the lists that are joined is not empty. -/
theorem flatMap_eq_single
    {α : Type}
    {g : Nat → List α}
    {n i : Nat}
    (hi : i < n)
    (hg : ∀ j, j ≠ i → g j = []) :
    (List.range n).flatMap g = g i := by
  induction n with
  | zero =>
      omega
  | succ n ih =>
      rw [List.range_succ, List.flatMap_append, List.flatMap_cons,
        List.flatMap_nil, List.append_nil]
      by_cases hin : i = n
      · have hempty : (List.range n).flatMap g = [] := by
          apply List.flatMap_eq_nil_iff.mpr
          intro j hj
          have := List.mem_range.mp hj
          exact hg j (by omega)
        rw [hempty, hin, List.nil_append]
      · rw [ih (by omega), hg n (fun h => hin h.symm), List.append_nil]

/-! ## Buckets -/

variable {V W : Type} [StdHash]

/-- The entries of a collision bucket. -/
def bucket
    (h : UInt64)
    (entries : ImmerMap V) : ImmerMap V :=
  entries.filter (fun e => StdHash.hash e.1 == h)

/-- The keys of a collision bucket, in their order. -/
def bucketKeys
    (h : UInt64)
    (entries : ImmerMap V) : List String :=
  (bucket h entries).map Prod.fst

theorem branch_eq_chunk
    (depth : Nat)
    (key : String) :
    branch depth key = chunk depth (StdHash.hash key) := by
  rfl

/-- A bucket lies on one branch of every level. -/
theorem bucket_onBranch
    (depth : Nat)
    (entries : ImmerMap V)
    (b : Nat)
    (h : UInt64) :
    bucket h (onBranch depth entries b) =
      if chunk depth h = b then bucket h entries else [] := by
  rw [bucket, onBranch, List.filter_filter]
  by_cases hb : chunk depth h = b
  · rw [if_pos hb]
    apply List.filter_congr
    intro e _
    by_cases he : StdHash.hash e.1 = h
    · simp [branch_eq_chunk, he, hb]
    · simp [he]
  · rw [if_neg hb]
    apply List.filter_eq_nil_iff.mpr
    intro e _
    by_cases he : StdHash.hash e.1 = h
    · simp [branch_eq_chunk, he, hb]
    · simp [he]

/-- Iteration keeps the order within a bucket. -/
theorem bucket_champOrder
    (levels : Nat)
    (entries : ImmerMap V)
    (h : UInt64) :
    bucket h (champOrder levels entries) = bucket h entries := by
  induction levels generalizing entries with
  | zero =>
      rfl
  | succ levels ih =>
      let depth := maxDepth - (levels + 1)
      have hlt : chunk depth h < branches := Nat.mod_lt _ (by decide)
      have hgroup : ∀ b, bucket h (onBranch depth entries b) =
          if chunk depth h = b then bucket h entries else [] :=
        fun b => bucket_onBranch depth entries b h
      have hempty : ∀ b, b ≠ chunk depth h →
          bucket h (onBranch depth entries b) = [] := by
        intro b hb
        rw [hgroup, if_neg (fun heq => hb heq.symm)]
      have hown := hgroup (chunk depth h)
      rw [if_pos rfl] at hown
      simp only [champOrder]
      rw [bucket, List.filter_append, List.filter_flatMap, List.filter_flatMap,
        flatMap_eq_single hlt, flatMap_eq_single hlt, ← hown]
      · change bucket h _ ++ bucket h _ = _
        have hih := ih (onBranch depth entries (chunk depth h))
        revert hih
        generalize onBranch depth entries (chunk depth h) = group
        intro hih
        cases group with
        | nil =>
            rfl
        | cons e rest =>
            cases rest with
            | nil => exact List.append_nil _
            | cons e' group => exact hih
      · intro b hb
        change bucket h _ = []
        split
        · exact (ih _).trans (hempty b hb)
        · rfl
      · intro b hb
        change bucket h _ = []
        split
        · exact hempty b hb
        · rfl

/-! ## The keys in the order of iteration -/

/-- Lists with the same buckets have the same keys. -/
theorem keys_perm_of_bucketKeys
    {l : ImmerMap V}
    {l' : ImmerMap W}
    (hbuckets : ∀ h, bucketKeys h l = bucketKeys h l') :
    (l.map Prod.fst).Perm (l'.map Prod.fst) := by
  have hcount : ∀ (X : Type) (m : ImmerMap X) (k : String),
      (bucketKeys (StdHash.hash k) m).count k = (m.map Prod.fst).count k := by
    intro X m k
    have hkeys : bucketKeys (StdHash.hash k) m =
        (m.map Prod.fst).filter (fun k' => StdHash.hash k' == StdHash.hash k) := by
      rw [bucketKeys, bucket, List.filter_map]
      rfl
    rw [hkeys, List.count_filter (by simp)]
  apply List.perm_iff_count.mpr
  intro k
  rw [← hcount, ← hcount, hbuckets]

/-- Where all keys share one hash, the list is one bucket. -/
theorem keys_eq_of_one_hash
    {l : ImmerMap V}
    {l' : ImmerMap W}
    (hbuckets : ∀ h, bucketKeys h l = bucketKeys h l')
    (h : UInt64)
    (hone : ∀ k ∈ l.map Prod.fst, StdHash.hash k = h) :
    l.map Prod.fst = l'.map Prod.fst := by
  have hperm := keys_perm_of_bucketKeys hbuckets
  have hall : ∀ (X : Type) (m : ImmerMap X),
      (∀ k ∈ m.map Prod.fst, StdHash.hash k = h) → bucket h m = m := by
    intro X m hm
    apply List.filter_eq_self.mpr
    intro x hx
    simpa using hm x.1 (List.mem_map_of_mem hx)
  have hbucket := hbuckets h
  rw [bucketKeys, bucketKeys, hall V _ hone,
    hall W l' (fun k hk => hone k (hperm.mem_iff.mpr hk))] at hbucket
  exact hbucket

theorem bucketKeys_onBranch_congr
    {l : ImmerMap V}
    {l' : ImmerMap W}
    (hbuckets : ∀ h, bucketKeys h l = bucketKeys h l')
    (depth b : Nat)
    (h : UInt64) :
    bucketKeys h (onBranch depth l b) = bucketKeys h (onBranch depth l' b) := by
  rw [bucketKeys, bucketKeys, bucket_onBranch, bucket_onBranch]
  by_cases hb : chunk depth h = b
  · rw [if_pos hb, if_pos hb]
    exact hbuckets h
  · rw [if_neg hb, if_neg hb]
    rfl

theorem keys_champOrder_congr
    (levels : Nat)
    (hlevels : levels ≤ maxDepth)
    {l : ImmerMap V}
    {l' : ImmerMap W}
    (hbuckets : ∀ h, bucketKeys h l = bucketKeys h l')
    (hshared : ∀ depth < maxDepth - levels,
      ∀ k ∈ l.map Prod.fst, ∀ k' ∈ l.map Prod.fst,
        branch depth k = branch depth k') :
    (champOrder levels l).map Prod.fst = (champOrder levels l').map Prod.fst := by
  induction levels generalizing l l' with
  | zero =>
      cases l with
      | nil =>
          have hperm := keys_perm_of_bucketKeys hbuckets
          rw [List.map_nil, List.nil_perm] at hperm
          exact hperm.symm
      | cons e l =>
          -- All keys share their hash with the first one.
          apply keys_eq_of_one_hash hbuckets (StdHash.hash e.1)
          intro k hk
          apply eq_of_chunk_eq
          intro depth hdepth
          exact hshared depth hdepth k hk e.1 List.mem_cons_self
  | succ levels ih =>
      let depth := maxDepth - (levels + 1)
      have hgroups := bucketKeys_onBranch_congr hbuckets depth
      have hlength : ∀ b, (onBranch depth l b).length =
          (onBranch depth l' b).length := by
        intro b
        simpa using (keys_perm_of_bucketKeys (hgroups b)).length_eq
      simp only [champOrder, List.map_append, List.map_flatMap]
      congr 1
      · apply List.flatMap_congr
        intro b _
        change List.map Prod.fst (if _ then onBranch depth l b else []) =
          List.map Prod.fst (if _ then onBranch depth l' b else [])
        rw [← hlength b]
        by_cases hb : (onBranch depth l b).length = 1
        · rw [if_pos hb, if_pos hb]
          have hb' := hb
          rw [hlength b] at hb'
          have hperm := keys_perm_of_bucketKeys (hgroups b)
          obtain ⟨e, he⟩ := List.length_eq_one_iff.mp hb
          obtain ⟨e', he'⟩ := List.length_eq_one_iff.mp hb'
          rw [he, he'] at hperm ⊢
          simpa using hperm
        · rw [if_neg hb, if_neg hb]
          rfl
      · apply List.flatMap_congr
        intro b _
        change List.map Prod.fst
            (if _ then champOrder levels (onBranch depth l b) else []) =
          List.map Prod.fst
            (if _ then champOrder levels (onBranch depth l' b) else [])
        rw [← hlength b]
        by_cases hb : (onBranch depth l b).length ≥ 2
        · rw [if_pos hb, if_pos hb]
          refine ih (by omega) (hgroups b) ?_
          intro d hd k hk k' hk'
          obtain ⟨e, he, rfl⟩ := List.mem_map.mp hk
          obtain ⟨e', he', rfl⟩ := List.mem_map.mp hk'
          obtain ⟨hel, heb⟩ := List.mem_filter.mp he
          obtain ⟨hel', heb'⟩ := List.mem_filter.mp he'
          by_cases hdepth : d = depth
          · rw [hdepth]
            exact (beq_iff_eq.mp heb).trans (beq_iff_eq.mp heb').symm
          · refine hshared d ?_ _ (List.mem_map_of_mem hel) _
              (List.mem_map_of_mem hel')
            omega
        · rw [if_neg hb, if_neg hb]
          rfl

/--
**The order of iteration** is the same for two maps if and only if it is the
same within every bucket.
-/
theorem keys_iterate_eq_iff
    {l : ImmerMap V}
    {l' : ImmerMap W} :
    (iterate l).map Prod.fst = (iterate l').map Prod.fst ↔
      ∀ h, bucketKeys h l = bucketKeys h l' := by
  have hkeys : ∀ (X : Type) (m : ImmerMap X) (h : UInt64),
      bucketKeys h m =
        ((iterate m).map Prod.fst).filter (fun k => StdHash.hash k == h) := by
    intro X m h
    rw [bucketKeys, ← bucket_champOrder maxDepth m h, bucket, List.filter_map]
    rfl
  constructor
  · intro heq h
    rw [hkeys V l h, hkeys W l' h, heq]
  · intro hbuckets
    refine keys_champOrder_congr maxDepth (Nat.le_refl _) hbuckets ?_
    intro depth hdepth
    omega

/-- Iteration does not look at the values. -/
theorem iterate_map
    (f : V → W)
    (m : ImmerMap V) :
    iterate (m.map (fun e => (e.1, f e.2))) =
      (iterate m).map (fun e => (e.1, f e.2)) := by
  have hchamp : ∀ levels (l : ImmerMap V),
      champOrder levels (l.map (fun e => (e.1, f e.2))) =
        (champOrder levels l).map (fun e => (e.1, f e.2)) := by
    intro levels
    induction levels with
    | zero =>
        intro l
        rfl
    | succ levels ih =>
        intro l
        have hbranch : ∀ depth b,
            onBranch depth (l.map (fun e => (e.1, f e.2))) b =
              (onBranch depth l b).map (fun e => (e.1, f e.2)) := by
          intro depth b
          rw [onBranch, List.filter_map]
          rfl
        simp only [champOrder, hbranch, ih, List.length_map, List.map_append,
          List.map_flatMap, apply_ite (List.map fun e : String × V => (e.1, f e.2)),
          List.map_nil]
  exact hchamp maxDepth m

end ImmerMap

end AgencyNode
