import Mathlib.Data.List.Nodup
import Mathlib.Data.List.Perm.Subperm

/-!
# Association maps

Persistent finite maps represented by association lists in which the entry
written last stands first.  `set` drops the old entry of its key before it
writes the new one, so a list that has been built by `set` and `erase` alone
lists every key once.

The lookup laws below hold for every list; only the results about membership
need the keys to be distinct.
-/

namespace AgencyNode
namespace Lib
namespace AssocMap

universe u v w

variable {K : Type u} {V : Type v} {W : Type w}

section Operations

variable [DecidableEq K]

/-- The value stored under a key. -/
def find : List (K × V) → K → Option V
  | [], _ => none
  | e :: m, k => if e.1 = k then some e.2 else find m k

/-- Drop the entry of a key. -/
def erase (m : List (K × V)) (k : K) : List (K × V) :=
  m.filter (fun e => e.1 ≠ k)

/-- Write an entry; it becomes the newest one. -/
def set (m : List (K × V)) (k : K) (v : V) : List (K × V) :=
  (k, v) :: erase m k

@[simp] theorem find_nil
    (k : K) :
    find ([] : List (K × V)) k = none := by
  rfl

@[simp] theorem find_cons_self
    (m : List (K × V))
    (k : K)
    (v : V) :
    find ((k, v) :: m) k = some v := by
  simp [find]

theorem find_cons_ne
    (m : List (K × V))
    {k k' : K}
    (v : V)
    (hne : k ≠ k') :
    find ((k, v) :: m) k' = find m k' := by
  simp [find, hne]

@[simp] theorem find_erase_self
    (m : List (K × V))
    (k : K) :
    find (erase m k) k = none := by
  induction m with
  | nil =>
      rfl
  | cons e m ih =>
      by_cases he : e.1 = k
      · simpa [erase, he] using ih
      · simpa [erase, find, he] using ih

theorem find_erase_ne
    (m : List (K × V))
    {k k' : K}
    (hne : k ≠ k') :
    find (erase m k) k' = find m k' := by
  induction m with
  | nil =>
      rfl
  | cons e m ih =>
      by_cases he : e.1 = k
      · have hk' : e.1 ≠ k' := by
          rw [he]
          exact hne
        simpa [erase, find, he, hne] using ih
      · by_cases hk' : e.1 = k'
        · have hkk : ¬ k' = k := fun h => hne h.symm
          simp [erase, find, hk', hkk]
        · simpa [erase, find, he, hk'] using ih

@[simp] theorem find_set_self
    (m : List (K × V))
    (k : K)
    (v : V) :
    find (set m k v) k = some v := by
  simp [set]

theorem find_set_ne
    (m : List (K × V))
    {k k' : K}
    (v : V)
    (hne : k ≠ k') :
    find (set m k v) k' = find m k' := by
  rw [set, find_cons_ne _ _ hne, find_erase_ne m hne]

theorem mem_erase
    {m : List (K × V)}
    {k : K}
    {e : K × V} :
    e ∈ erase m k ↔ e ∈ m ∧ e.1 ≠ k := by
  simp [erase]

theorem mem_set
    {m : List (K × V)}
    {k : K}
    {v : V}
    {e : K × V} :
    e ∈ set m k v ↔ e = (k, v) ∨ (e ∈ m ∧ e.1 ≠ k) := by
  simp [set, mem_erase]

/-- A value that is found is stored in the list. -/
theorem mem_of_find
    {m : List (K × V)}
    {k : K}
    {v : V}
    (h : find m k = some v) :
    (k, v) ∈ m := by
  induction m with
  | nil =>
      simp at h
  | cons e m ih =>
      by_cases he : e.1 = k
      · simp [find, he] at h
        subst h
        subst he
        exact List.mem_cons_self
      · simp [find, he] at h
        exact List.mem_cons_of_mem _ (ih h)

theorem find_eq_none_iff
    {m : List (K × V)}
    {k : K} :
    find m k = none ↔ k ∉ m.map Prod.fst := by
  induction m with
  | nil =>
      simp
  | cons e m ih =>
      by_cases he : e.1 = k
      · simp [find, he]
      · have hne : ¬ k = e.1 := fun h => he h.symm
        simp only [find, he, if_false, ih, List.map_cons,
          List.mem_cons, hne, false_or]

/-- Erasing a key that is not there. -/
theorem erase_eq_self
    {m : List (K × V)}
    {k : K}
    (h : find m k = none) :
    erase m k = m := by
  apply List.filter_eq_self.mpr
  intro e he
  have hkey : e.1 ≠ k := by
    intro hek
    apply find_eq_none_iff.mp h
    rw [← hek]
    exact List.mem_map_of_mem he
  simp [hkey]

/-- Lookup commutes with a map over the stored values. -/
theorem find_map
    (f : V → W)
    (m : List (K × V))
    (k : K) :
    find (m.map (fun e => (e.1, f e.2))) k = (find m k).map f := by
  induction m with
  | nil =>
      rfl
  | cons e m ih =>
      by_cases he : e.1 = k
      · simp [find, he]
      · simpa [find, he] using ih

theorem find_append
    (m m' : List (K × V))
    (k : K) :
    find (m ++ m') k = (find m k).or (find m' k) := by
  induction m with
  | nil =>
      rfl
  | cons e m ih =>
      by_cases he : e.1 = k
      · simp [find, he]
      · simpa [find, he] using ih

/-- The entries whose keys have a property. -/
theorem find_filter
    (p : K → Bool)
    (m : List (K × V))
    (k : K) :
    find (m.filter (fun e => p e.1)) k = if p k then find m k else none := by
  induction m with
  | nil =>
      simp
  | cons e m ih =>
      by_cases he : e.1 = k
      · subst he
        by_cases hp : p e.1 = true
        · simp [find, hp]
        · simpa [hp] using ih
      · by_cases hp : p e.1 = true
        · simpa [find, he, hp] using ih
        · simpa [find, he, hp] using ih

end Operations

/-- Every key occurs once. -/
def KeysNodup
    (m : List (K × V)) : Prop :=
  (m.map Prod.fst).Nodup

theorem keysNodup_cons
    {e : K × V}
    {m : List (K × V)} :
    KeysNodup (e :: m) ↔ e.1 ∉ m.map Prod.fst ∧ KeysNodup m := by
  simp [KeysNodup]

theorem KeysNodup.of_perm
    {m m' : List (K × V)}
    (hm : KeysNodup m)
    (hperm : m'.Perm m) :
    KeysNodup m' :=
  (hperm.map Prod.fst).nodup_iff.mpr hm

variable [DecidableEq K]

theorem KeysNodup.erase
    {m : List (K × V)}
    (hm : KeysNodup m)
    (k : K) :
    KeysNodup (erase m k) := by
  unfold KeysNodup at hm ⊢
  exact hm.sublist (List.filter_sublist.map _)

theorem KeysNodup.set
    {m : List (K × V)}
    (hm : KeysNodup m)
    (k : K)
    (v : V) :
    KeysNodup (set m k v) := by
  refine keysNodup_cons.mpr ⟨?_, hm.erase k⟩
  intro hmem
  obtain ⟨e, he, hek⟩ := List.mem_map.mp hmem
  exact (mem_erase.mp he).2 hek

/-- With distinct keys, lookup finds exactly the entries of the list. -/
theorem KeysNodup.find_iff
    {m : List (K × V)}
    (hm : KeysNodup m)
    {k : K}
    {v : V} :
    find m k = some v ↔ (k, v) ∈ m := by
  refine ⟨mem_of_find, ?_⟩
  induction m with
  | nil =>
      intro hmem
      simp at hmem
  | cons e m ih =>
      obtain ⟨hnot, hrest⟩ := keysNodup_cons.mp hm
      intro hmem
      rcases List.mem_cons.mp hmem with heq | hmem
      · subst heq
        simp
      · have hne : e.1 ≠ k := by
          intro heq
          exact hnot (heq ▸ List.mem_map_of_mem hmem)
        rw [find_cons_ne m e.2 hne]
        exact ih hrest hmem

theorem isSome_find_iff
    {m : List (K × V)}
    {k : K} :
    (find m k).isSome = true ↔ k ∈ m.map Prod.fst := by
  rw [← not_iff_not, ← find_eq_none_iff]
  simp

/--
A list has as many entries as there are names among its keys exactly if its keys
are distinct and all of them are names.
-/
theorem length_eq_iff
    {m : List (K × V)}
    {names : List K}
    (hnames : names.Nodup) :
    m.length = names.countP (fun k => (find m k).isSome) ↔
      KeysNodup m ∧ ∀ k ∈ m.map Prod.fst, k ∈ names := by
  have hnodup := hnames.filter (fun k => (find m k).isSome)
  have hsub : (names.filter (fun k => (find m k).isSome)).Subperm
      (m.map Prod.fst) := by
    refine List.Nodup.subperm hnodup ?_
    intro k hk
    exact isSome_find_iff.mp (List.mem_filter.mp hk).2
  have hlength : (m.map Prod.fst).length = m.length := List.length_map _
  rw [List.countP_eq_length_filter, ← hlength]
  constructor
  · intro heq
    have hperm := hsub.perm_of_length_le (Nat.le_of_eq heq)
    refine ⟨hperm.nodup_iff.mp hnodup, ?_⟩
    intro k hk
    exact (List.mem_filter.mp (hperm.mem_iff.mpr hk)).1
  · rintro ⟨hm, hkeys⟩
    refine Nat.le_antisymm (List.Subperm.length_le ?_) hsub.length_le
    refine List.Nodup.subperm hm ?_
    intro k hk
    exact List.mem_filter.mpr ⟨hkeys k hk, isSome_find_iff.mpr hk⟩

theorem KeysNodup.find_eq_of_perm
    {m m' : List (K × V)}
    (hm : KeysNodup m)
    (hm' : KeysNodup m')
    (hperm : m.Perm m')
    (k : K) :
    find m k = find m' k := by
  ext v
  rw [hm.find_iff, hm'.find_iff, hperm.mem_iff]

/-- Two lists entry by entry, or as maps with the same keys in the same order. -/
theorem KeysNodup.forall₂_iff
    {R : V → W → Prop}
    {m : List (K × V)}
    {m' : List (K × W)}
    (hm : KeysNodup m) :
    List.Forall₂ (fun e e' => e.1 = e'.1 ∧ R e.2 e'.2) m m' ↔
      m.map Prod.fst = m'.map Prod.fst ∧
        ∀ k v w, find m k = some v → find m' k = some w → R v w := by
  induction m generalizing m' with
  | nil =>
      cases m' with
      | nil => simp
      | cons e' m' => simp
  | cons e m ih =>
      cases m' with
      | nil =>
          simp
      | cons e' m' =>
          obtain ⟨hnot, hrest⟩ := keysNodup_cons.mp hm
          rw [List.forall₂_cons, ih hrest, List.map_cons, List.map_cons,
            List.cons.injEq]
          constructor
          · rintro ⟨⟨hkey, hhead⟩, hkeys, htail⟩
            refine ⟨⟨hkey, hkeys⟩, ?_⟩
            intro k v w hv hw
            by_cases hk : e.1 = k
            · rw [find, if_pos hk] at hv
              rw [find, if_pos (hkey ▸ hk)] at hw
              cases hv
              cases hw
              exact hhead
            · rw [find, if_neg hk] at hv
              rw [find, if_neg (hkey ▸ hk)] at hw
              exact htail k v w hv hw
          · rintro ⟨⟨hkey, hkeys⟩, hfind⟩
            refine ⟨⟨hkey, ?_⟩, hkeys, ?_⟩
            · exact hfind e.1 e.2 e'.2 (if_pos rfl) (if_pos hkey.symm)
            · intro k v w hv hw
              have hk : e.1 ≠ k := by
                rintro rfl
                rw [find_eq_none_iff.mpr hnot] at hv
                cases hv
              refine hfind k v w ?_ ?_
              · rw [find, if_neg hk]
                exact hv
              · rw [find, if_neg (hkey ▸ hk)]
                exact hw

/-- Two lists with related entries find related values. -/
theorem rel_find_of_forall₂
    {R : V → W → Prop}
    {m : List (K × V)}
    {m' : List (K × W)}
    (h : List.Forall₂ (fun e e' => e'.1 = e.1 ∧ R e.2 e'.2) m m')
    (k : K) :
    Option.Rel R (find m k) (find m' k) := by
  induction h with
  | nil =>
      exact .none
  | @cons e e' _ _ he _ ih =>
      by_cases hk : e.1 = k
      · rw [find, if_pos hk, find, if_pos (he.1.trans hk)]
        exact .some he.2
      · rw [find, if_neg hk, find, if_neg (he.1 ▸ hk)]
        exact ih

/--
A list has the same entries as a map whose keys are among the names if it agrees
with the map on the names and has no other keys, nor one of them twice.
-/
theorem KeysNodup.perm_iff
    {m m' : List (K × V)}
    (hm' : KeysNodup m')
    {names : List K}
    (hnames : ∀ k ∈ m'.map Prod.fst, k ∈ names) :
    m.Perm m' ↔
      (∀ k ∈ names, find m k = find m' k) ∧
        KeysNodup m ∧ ∀ k ∈ m.map Prod.fst, k ∈ names := by
  constructor
  · intro hperm
    have hm : KeysNodup m := hm'.of_perm hperm
    refine ⟨fun k _ => hm.find_eq_of_perm hm' hperm k, hm, ?_⟩
    intro k hk
    exact hnames k ((hperm.map Prod.fst).mem_iff.mp hk)
  · rintro ⟨hfind, hm, hkeys⟩
    have hnodup : m.Nodup := List.Nodup.of_map _ hm
    have hnodup' : m'.Nodup := List.Nodup.of_map _ hm'
    rw [List.perm_ext_iff_of_nodup hnodup hnodup']
    rintro ⟨k, v⟩
    constructor
    · intro hmem
      have hk := hfind k (hkeys k (List.mem_map_of_mem hmem))
      exact hm'.find_iff.mp (hk ▸ hm.find_iff.mpr hmem)
    · intro hmem
      have hk := hfind k (hnames k (List.mem_map_of_mem hmem))
      exact hm.find_iff.mp (hk ▸ hm'.find_iff.mpr hmem)

/-! ## Positions -/

theorem findIdx?_eq_none_iff
    {m : List (K × V)}
    {k : K} :
    m.findIdx? (fun e => e.1 == k) = none ↔ find m k = none := by
  rw [List.findIdx?_eq_none_iff, find_eq_none_iff, List.mem_map]
  constructor
  · rintro h ⟨e, he, hk⟩
    simpa [hk] using h e he
  · intro h e he
    simpa using fun hk => h ⟨e, he, hk⟩

/-- The first entry of a key is the only one that `erase` drops. -/
theorem KeysNodup.erase_eq_of_findIdx?
    {m : List (K × V)}
    (hm : KeysNodup m)
    {k : K}
    {pos : Nat}
    (h : m.findIdx? (fun e => e.1 == k) = some pos) :
    pos < m.length ∧ m.take pos ++ m.drop (pos + 1) = AssocMap.erase m k := by
  induction m generalizing pos with
  | nil =>
      simp at h
  | cons e m ih =>
      obtain ⟨hnot, hrest⟩ := keysNodup_cons.mp hm
      by_cases he : e.1 = k
      · subst he
        simp [List.findIdx?_cons] at h
        subst h
        have hself : AssocMap.erase m e.1 = m :=
          erase_eq_self (find_eq_none_iff.mpr hnot)
        refine ⟨by simp, ?_⟩
        rw [AssocMap.erase, List.filter_cons_of_neg (by simp)]
        exact hself.symm
      · simp [List.findIdx?_cons, he] at h
        obtain ⟨i, hi, rfl⟩ := h
        obtain ⟨hlt, heq⟩ := ih hrest hi
        refine ⟨by simpa using hlt, ?_⟩
        rw [AssocMap.erase, List.filter_cons_of_pos (by simpa using he),
          List.take_succ_cons, List.drop_succ_cons, List.cons_append, heq]
        rfl

theorem KeysNodup.length_erase
    {m : List (K × V)}
    (hm : KeysNodup m)
    {k : K}
    (h : (find m k).isSome = true) :
    (AssocMap.erase m k).length + 1 = m.length := by
  cases hpos : m.findIdx? (fun e => e.1 == k) with
  | none =>
      rw [findIdx?_eq_none_iff.mp hpos] at h
      cases h
  | some pos =>
      obtain ⟨hlt, heq⟩ := hm.erase_eq_of_findIdx? hpos
      rw [← heq, List.length_append, List.length_take, List.length_drop]
      omega

theorem KeysNodup.length_set
    {m : List (K × V)}
    (hm : KeysNodup m)
    (k : K)
    (v : V) :
    (AssocMap.set m k v).length =
      m.length + if (find m k).isSome then 0 else 1 := by
  rw [AssocMap.set, List.length_cons]
  by_cases h : (find m k).isSome = true
  · rw [hm.length_erase h, if_pos h]
    rfl
  · have hnone : find m k = none := by simpa using h
    rw [erase_eq_self hnone, if_neg h]

end AssocMap
end Lib
end AgencyNode
