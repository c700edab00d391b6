import Mathlib.Order.Lattice
import AgencyNode.Lib.AssocMap

/-!
# Ordered maps

Finite maps that list their entries by ascending keys, and the positions and
ranges of such a list.  A range that ends before it starts is no range: what is
done with it is undefined.

The main result says which entries lie between the lower bound of one key and
the upper bound of another one, and when these bounds are a range.
-/

namespace AgencyNode
namespace Lib

universe u v

section Prefixes

variable {α : Type u} {R : α → α → Prop} {p : α → Bool}

/-- In a sorted list, what satisfies a downward closed property stands in front. -/
theorem takeWhile_eq_filter
    (hp : ∀ a b, R a b → p b = true → p a = true)
    {l : List α}
    (hl : l.Pairwise R) :
    l.takeWhile p = l.filter p := by
  induction l with
  | nil =>
      rfl
  | cons a l ih =>
      obtain ⟨ha, hl⟩ := List.pairwise_cons.mp hl
      cases hpa : p a with
      | true =>
          rw [List.takeWhile_cons_of_pos hpa, List.filter_cons_of_pos hpa, ih hl]
      | false =>
          rw [List.takeWhile_cons_of_neg (by simp [hpa]),
            List.filter_cons_of_neg (by simp [hpa])]
          symm
          rw [List.filter_eq_nil_iff]
          intro b hb hpb
          rw [hp a b (ha b hb) hpb] at hpa
          cases hpa

/-- What does not satisfy the property stands behind. -/
theorem drop_length_filter
    (hp : ∀ a b, R a b → p b = true → p a = true)
    {l : List α}
    (hl : l.Pairwise R) :
    l.drop (l.filter p).length = l.filter (fun a => !p a) := by
  induction l with
  | nil =>
      rfl
  | cons a l ih =>
      obtain ⟨ha, hl⟩ := List.pairwise_cons.mp hl
      cases hpa : p a with
      | true =>
          rw [List.filter_cons_of_pos hpa, List.filter_cons_of_neg (by simp [hpa]),
            List.length_cons, List.drop_succ_cons, ih hl]
      | false =>
          have hnone : l.filter p = [] := by
            rw [List.filter_eq_nil_iff]
            intro b hb hpb
            rw [hp a b (ha b hb) hpb] at hpa
            cases hpa
          have hall : l.filter (fun a => !p a) = l := by
            rw [List.filter_eq_self]
            intro b hb
            cases hpb : p b with
            | false => rfl
            | true =>
                rw [hp a b (ha b hb) hpb] at hpa
                cases hpa
          rw [List.filter_cons_of_neg (by simp [hpa]), hnone,
            List.filter_cons_of_pos (by simp [hpa]), hall]
          rfl

theorem take_length_filter
    (hp : ∀ a b, R a b → p b = true → p a = true)
    {l : List α}
    (hl : l.Pairwise R) :
    l.take (l.filter p).length = l.filter p := by
  rw [← takeWhile_eq_filter hp hl]
  exact (List.prefix_iff_eq_take.mp (List.takeWhile_prefix p)).symm

end Prefixes

/-- A map that lists its entries by ascending keys. -/
structure OrderedMap (K : Type u) (V : Type v) [LinearOrder K] where
  entries : List (K × V)
  sorted : entries.Pairwise (fun e f => e.1 < f.1)

namespace OrderedMap

variable {K : Type u} {V : Type v} [LinearOrder K]

/-- The value stored under a key. -/
def find (m : OrderedMap K V) (k : K) : Option V :=
  AssocMap.find m.entries k

theorem mem_of_find
    {m : OrderedMap K V}
    {k : K}
    {v : V}
    (h : m.find k = some v) :
    (k, v) ∈ m.entries :=
  AssocMap.mem_of_find h

/-! ## Writing an entry -/

/-- The entry goes in front of the first larger key, or replaces the old one. -/
def insertEntry (k : K) (v : V) : List (K × V) → List (K × V)
  | [] => [(k, v)]
  | e :: l =>
      if k < e.1 then (k, v) :: e :: l
      else if e.1 = k then (k, v) :: l
      else e :: insertEntry k v l

theorem mem_insertEntry
    {k : K}
    {v : V}
    {l : List (K × V)}
    {e : K × V}
    (h : e ∈ insertEntry k v l) :
    e = (k, v) ∨ e ∈ l := by
  induction l with
  | nil =>
      exact .inl (List.mem_singleton.mp h)
  | cons f l ih =>
      rw [insertEntry] at h
      split at h
      · exact List.mem_cons.mp h
      · split at h
        · rcases List.mem_cons.mp h with rfl | h
          · exact .inl rfl
          · exact .inr (List.mem_cons_of_mem _ h)
        · rcases List.mem_cons.mp h with rfl | h
          · exact .inr List.mem_cons_self
          · exact (ih h).imp id (List.mem_cons_of_mem _)

theorem sorted_insertEntry
    (k : K)
    (v : V)
    {l : List (K × V)}
    (hl : l.Pairwise (fun e f => e.1 < f.1)) :
    (insertEntry k v l).Pairwise (fun e f => e.1 < f.1) := by
  induction l with
  | nil =>
      exact List.pairwise_singleton _ _
  | cons f l ih =>
      obtain ⟨hf, hrest⟩ := List.pairwise_cons.mp hl
      rw [insertEntry]
      split
      · rename_i hlt
        refine List.pairwise_cons.mpr ⟨?_, hl⟩
        intro e he
        rcases List.mem_cons.mp he with rfl | he
        · exact hlt
        · exact lt_trans hlt (hf e he)
      · split
        · rename_i heq
          refine List.pairwise_cons.mpr ⟨?_, hrest⟩
          intro e he
          rw [← heq]
          exact hf e he
        · rename_i hnot hne
          refine List.pairwise_cons.mpr ⟨?_, ih hrest⟩
          intro e he
          rcases mem_insertEntry he with rfl | he
          · exact lt_of_le_of_ne (not_lt.mp hnot) hne
          · exact hf e he

/-- `m[k] = v`. -/
def insert (m : OrderedMap K V) (k : K) (v : V) : OrderedMap K V :=
  ⟨insertEntry k v m.entries, sorted_insertEntry k v m.sorted⟩

theorem find_insert
    (m : OrderedMap K V)
    (k : K)
    (v : V)
    (k' : K) :
    (m.insert k v).find k' = if k = k' then some v else m.find k' := by
  obtain ⟨l, hl⟩ := m
  change AssocMap.find (insertEntry k v l) k' =
    if k = k' then some v else AssocMap.find l k'
  clear hl
  induction l with
  | nil =>
      rfl
  | cons e l ih =>
      rw [insertEntry]
      split
      · rfl
      · split
        · rename_i heq
          by_cases hk : k = k'
          · simp [AssocMap.find, hk]
          · simp [AssocMap.find, hk, heq]
        · rename_i hne
          rw [AssocMap.find, ih, AssocMap.find]
          by_cases hk : k = k'
          · rw [← hk, if_neg hne, if_pos rfl, if_pos rfl]
          · rw [if_neg hk, if_neg hk]

/-! ## Positions and ranges -/

/-- `lower_bound`: the position of the first key that is not smaller. -/
def lowerBound (m : OrderedMap K V) (k : K) : Nat :=
  (m.entries.takeWhile (fun e => e.1 < k)).length

/-- `upper_bound`: the position of the first key that is larger. -/
def upperBound (m : OrderedMap K V) (k : K) : Nat :=
  (m.entries.takeWhile (fun e => e.1 ≤ k)).length

/-- The entries from one position up to another one. -/
def range (m : OrderedMap K V) (first last : Nat) : Option (List (K × V)) :=
  if first ≤ last then some ((m.entries.take last).drop first) else none

/-- `erase` of the entries from one position up to another one. -/
def erase (m : OrderedMap K V) (first last : Nat) : Option (OrderedMap K V) :=
  if h : first ≤ last then
    some ⟨m.entries.take first ++ m.entries.drop last, by
      have hsub : (m.entries.take first ++ m.entries.drop last).Sublist
          (m.entries.take first ++ m.entries.drop first) :=
        (List.Sublist.refl _).append (List.drop_sublist_drop_left _ h)
      rw [List.take_append_drop] at hsub
      exact m.sorted.sublist hsub⟩
  else none

section Bounds

variable {m : OrderedMap K V} {a b : K}

theorem key_lt_of_lt
    (e f : K × V)
    (hef : e.1 < f.1)
    (hf : decide (f.1 < a) = true) :
    decide (e.1 < a) = true :=
  decide_eq_true (lt_trans hef (of_decide_eq_true hf))

theorem key_le_of_lt
    (e f : K × V)
    (hef : e.1 < f.1)
    (hf : decide (f.1 ≤ b) = true) :
    decide (e.1 ≤ b) = true :=
  decide_eq_true (le_trans (le_of_lt hef) (of_decide_eq_true hf))

theorem lowerBound_eq
    (m : OrderedMap K V)
    (a : K) :
    m.lowerBound a = (m.entries.filter (fun e => e.1 < a)).length := by
  rw [lowerBound, takeWhile_eq_filter key_lt_of_lt m.sorted]

theorem upperBound_eq
    (m : OrderedMap K V)
    (b : K) :
    m.upperBound b = (m.entries.filter (fun e => e.1 ≤ b)).length := by
  rw [upperBound, takeWhile_eq_filter key_le_of_lt m.sorted]

/-- Where the bounds are a range, the one leaves out a part of what the other does. -/
theorem filter_lt_eq
    (h : ∀ e ∈ m.entries, e.1 < a → e.1 ≤ b) :
    m.entries.filter (fun e => e.1 < a) =
      (m.entries.filter (fun e => e.1 ≤ b)).filter (fun e => e.1 < a) := by
  rw [List.filter_filter]
  apply List.filter_congr
  intro e he
  by_cases hea : e.1 < a
  · simp [hea, h e he hea]
  · simp [hea]

/-- The bounds are a range if no key lies behind the one and before the other. -/
theorem lowerBound_le_upperBound_iff :
    m.lowerBound a ≤ m.upperBound b ↔ ∀ e ∈ m.entries, e.1 < a → e.1 ≤ b := by
  rw [lowerBound_eq, upperBound_eq]
  constructor
  · intro hle e he hea
    by_contra hbe
    have hba : b < a := lt_trans (not_le.mp hbe) hea
    have hsub : m.entries.filter (fun f => f.1 ≤ b) =
        (m.entries.filter (fun f => f.1 < a)).filter (fun f => f.1 ≤ b) := by
      rw [List.filter_filter]
      apply List.filter_congr
      intro f _
      by_cases hfb : f.1 ≤ b
      · simp [hfb, lt_of_le_of_lt hfb hba]
      · simp [hfb]
    have hlt : ((m.entries.filter (fun f => f.1 < a)).filter
        (fun f => f.1 ≤ b)).length <
          (m.entries.filter (fun f => f.1 < a)).length := by
      rw [List.length_filter_lt_length_iff_exists]
      exact ⟨e, List.mem_filter.mpr ⟨he, by simpa using hea⟩, by simpa using hbe⟩
    rw [hsub] at hle
    exact Nat.not_le_of_lt hlt hle
  · intro h
    rw [filter_lt_eq h]
    exact List.filter_sublist.length_le

/-- **The entries between two bounds** are those with a key in between. -/
theorem range_bounds
    (h : ∀ e ∈ m.entries, e.1 < a → e.1 ≤ b) :
    m.range (m.lowerBound a) (m.upperBound b) =
      some (m.entries.filter (fun e => a ≤ e.1 ∧ e.1 ≤ b)) := by
  rw [range, if_pos (lowerBound_le_upperBound_iff.mpr h), lowerBound_eq,
    upperBound_eq, take_length_filter key_le_of_lt m.sorted, filter_lt_eq h,
    drop_length_filter key_lt_of_lt (m.sorted.filter _), List.filter_filter]
  congr 1
  apply List.filter_congr
  intro e _
  simp [← decide_not]

theorem range_bounds_eq_none
    (h : ¬ ∀ e ∈ m.entries, e.1 < a → e.1 ≤ b) :
    m.range (m.lowerBound a) (m.upperBound b) = none := by
  rw [range, if_neg]
  rwa [lowerBound_le_upperBound_iff]

/-- **Erasing the entries between two bounds** leaves the others alone. -/
theorem erase_bounds
    (h : ∀ e ∈ m.entries, e.1 < a → e.1 ≤ b) :
    ∃ r, m.erase (m.lowerBound a) (m.upperBound b) = some r ∧
      ∀ k, r.find k = if a ≤ k ∧ k ≤ b then none else m.find k := by
  refine ⟨_, dif_pos (lowerBound_le_upperBound_iff.mpr h), ?_⟩
  intro k
  change AssocMap.find (m.entries.take (m.lowerBound a) ++
    m.entries.drop (m.upperBound b)) k = if a ≤ k ∧ k ≤ b then none else m.find k
  rw [lowerBound_eq, upperBound_eq, take_length_filter key_lt_of_lt m.sorted,
    drop_length_filter key_le_of_lt m.sorted, AssocMap.find_append,
    AssocMap.find_filter (fun k => decide (k < a)),
    AssocMap.find_filter (fun k => !decide (k ≤ b)), find]
  cases hk : AssocMap.find m.entries k with
  | none =>
      simp
  | some v =>
      by_cases hka : k < a
      · have hnot : ¬ (a ≤ k ∧ k ≤ b) := fun h => not_lt.mpr h.1 hka
        rw [if_pos (decide_eq_true hka), if_neg hnot, Option.some_or]
      · by_cases hkb : k ≤ b
        · simp [hka, hkb, not_lt.mp hka]
        · simp [hka, hkb]

end Bounds

end OrderedMap

end Lib
end AgencyNode
