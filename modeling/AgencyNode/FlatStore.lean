import Mathlib.Data.List.Lex
import AgencyNode.Lib.OrderedMap
import AgencyNode.Slice

/-!
# The flat store

The `store` of agency-test.cpp keeps the leaves of a tree in one ordered map; the
key of a leaf is its path, with slashes between the components.  A subtree is
looked for between its key and the key with the last character increased by one.

Keys are the bytes of a `std::string`, which compares them as unsigned numbers.
A slice lists the members of an object in the order in which `ObjectIterator`
visits them.
-/

namespace AgencyNode

open Lib

namespace FlatStore

/-- The order in which `std::string` compares its characters. -/
scoped instance linearOrderUInt8 : LinearOrder UInt8 where
  le_refl := UInt8.le_refl
  le_trans := fun _ _ _ => UInt8.le_trans
  lt_iff_le_not_ge := by
    intro a b
    simp only [UInt8.le_iff_toNat_le, UInt8.lt_iff_toNat_lt]
    omega
  le_antisymm := fun _ _ => UInt8.le_antisymm
  le_total := UInt8.le_total
  toDecidableLE := fun _ _ => inferInstance

variable {D : Type}

/-- `key_type`. -/
abbrev KeyType := List UInt8

/-- `leaf_type`. -/
inductive LeafType (D : Type) where
  | double (v : D)
  | string (v : String)
  | bool (v : Bool)
  | emptyObject

/-- `map_type`. -/
abbrev MapType (D : Type) := OrderedMap KeyType (LeafType D)

/-- The character `/`. -/
def slash : UInt8 := 47

/-- The bytes of a string. -/
def bytes (s : String) : KeyType := s.toUTF8.toList

/-- `next_key`: the last character plus one, which wraps around. -/
def nextKey (key : KeyType) : KeyType :=
  match key.getLast? with
  | some c => key.dropLast ++ [c + 1]
  | none => []

/-- `getKeyRange`. -/
def getKeyRange (map : MapType D) (key : KeyType) : Nat × Nat :=
  if key.isEmpty then (0, map.entries.length)
  else (map.lowerBound key, map.upperBound (nextKey key))

/-- `deleteRange`. -/
def deleteRange (map : MapType D) (key : KeyType) : Option (MapType D) :=
  let (first, last) := getKeyRange map key
  map.erase first last

mutual

/-- `insertLeaves`. -/
def insertLeaves (map : MapType D) (key : KeyType) : Json D → MapType D
  | .number v => map.insert key (.double v)
  | .string v => map.insert key (.string v)
  | .bool v => map.insert key (.bool v)
  | .object [] => map.insert key .emptyObject
  | .object (level :: levels) => insertLevels map key (level :: levels)
  | _ => map

/-- The loop over the members of an object. -/
def insertLevels (map : MapType D) (key : KeyType) :
    List (String × Json D) → MapType D
  | [] => map
  | level :: levels => insertLevels (insertLevel map key level) key levels

def insertLevel (map : MapType D) (key : KeyType) :
    String × Json D → MapType D
  | (label, value) => insertLeaves map (key ++ slash :: bytes label) value

end

/-- `set`; `none` where the range that is erased is no range. -/
def set (map : MapType D) (key : KeyType) (slice : Slice D) :
    Option (MapType D) := do
  let map ← deleteRange map key
  match slice with
  | some s => return insertLeaves map key s
  | none => return map

/-- `split`: the parts between the slashes. -/
def split (str : KeyType) : List KeyType :=
  str.splitOn slash

/--
`~level_object` for some levels, given by their labels.  The builder that a level
closes was a parameter of its constructor and exists no longer, so that only levels
with an empty label, which close nothing, can be destroyed.
-/
def closeLevels (levels : List KeyType) : Option Unit :=
  if levels.all List.isEmpty then some () else none

/-- `std::mismatch`: how many levels agree with the parts of the key. -/
def mismatch : List KeyType → List KeyType → Nat
  | level :: levels, label :: labels =>
      if level = label then mismatch levels labels + 1 else 0
  | _, _ => 0

/--
The loop of `buildObject`, with the members that the builder receives; `none` where
the behaviour is undefined.  What a `level_object` adds is added to a copy of the
builder, and the builder writes over it.
-/
def buildMembers (levels : List KeyType) :
    List (KeyType × LeafType D) → Option (List (KeyType × LeafType D))
  | [] => do
      closeLevels levels
      return []
  | (key, v) :: entries => do
      let keyLevels := split key
      let common := mismatch levels keyLevels
      closeLevels (levels.drop common)
      -- otherwise the loop that opens the objects runs past the last part
      if common < keyLevels.length then
        let levels := levels.take common ++ keyLevels.dropLast.drop common
        let members ← buildMembers levels entries
        return (keyLevels.getLastD [], v) :: members
      else
        none

/-- `buildObject`: the members of the object that is built. -/
def buildObject (entries : List (KeyType × LeafType D)) :
    Option (List (KeyType × LeafType D)) :=
  buildMembers [] entries

/-- `get`: the members of the object in the buffer. -/
def get (map : MapType D) (key : KeyType) :
    Option (List (KeyType × LeafType D)) := do
  let (first, last) := getKeyRange map key
  let entries ← map.range first last
  buildObject entries

/-! ## What a subtree is -/

/-- The key lies in the subtree: it is the root, or continues with a slash. -/
def InSubtree (key x : KeyType) : Prop :=
  x = key ∨ key ++ [slash] <+: x

instance (key x : KeyType) : Decidable (InSubtree key x) :=
  inferInstanceAs (Decidable (_ ∨ _))

mutual

/-- The leaves of a slice below a key; null and arrays are none. -/
def leaves (key : KeyType) : Json D → List (KeyType × LeafType D)
  | .number v => [(key, .double v)]
  | .string v => [(key, .string v)]
  | .bool v => [(key, .bool v)]
  | .object [] => [(key, .emptyObject)]
  | .object (level :: levels) => levelsLeaves key (level :: levels)
  | _ => []

def levelsLeaves (key : KeyType) :
    List (String × Json D) → List (KeyType × LeafType D)
  | [] => []
  | level :: levels => levelLeaves key level ++ levelsLeaves key levels

def levelLeaves (key : KeyType) :
    String × Json D → List (KeyType × LeafType D)
  | (label, value) => leaves (key ++ slash :: bytes label) value

end

/-- The leaves of a slice; the None slice has none. -/
def sliceLeaves (key : KeyType) : Slice D → List (KeyType × LeafType D)
  | some s => leaves key s
  | none => []

/--
`set` and `get` touch exactly the subtree of the key: what `get` puts into the
buffer are its entries.  Where two leaves have one key, the one that is visited
last counts.
-/
structure TouchesExactly
    (map : MapType D)
    (key : KeyType)
    (slice : Slice D) : Prop where
  set : ∃ result, FlatStore.set map key slice = some result ∧
    ∀ x, result.find x =
      if InSubtree key x then AssocMap.find (sliceLeaves key slice).reverse x
      else map.find x
  get : FlatStore.get map key =
    some (map.entries.filter (fun e => InSubtree key e.1))

theorem prefix_of_inSubtree
    {key x : KeyType}
    (h : InSubtree key x) :
    key <+: x := by
  rcases h with rfl | h
  · exact List.prefix_refl x
  · exact (List.prefix_append key [slash]).trans h

/-! ## The leaves that are inserted -/

/-- Write the entries one after the other. -/
def insertAll
    (map : MapType D)
    (entries : List (KeyType × LeafType D)) : MapType D :=
  entries.foldl (fun map e => map.insert e.1 e.2) map

theorem insertLevels_eq
    {levels : List (String × Json D)}
    (hlevels : ∀ level ∈ levels, ∀ (map : MapType D) (key : KeyType),
      insertLeaves map key level.2 = insertAll map (leaves key level.2))
    (map : MapType D)
    (key : KeyType) :
    insertLevels map key levels = insertAll map (levelsLeaves key levels) := by
  induction levels generalizing map with
  | nil =>
      rfl
  | cons level levels ih =>
      obtain ⟨hlevel, hlevels⟩ := List.forall_mem_cons.mp hlevels
      rw [insertLevels, insertLevel, hlevel, ih hlevels, levelsLeaves, levelLeaves,
        insertAll, insertAll, insertAll, List.foldl_append]

theorem insertLeaves_eq
    (map : MapType D)
    (key : KeyType)
    (s : Json D) :
    insertLeaves map key s = insertAll map (leaves key s) := by
  induction s using Json.induction generalizing map key with
  | object levels ih =>
      cases levels with
      | nil =>
          rfl
      | cons level levels =>
          rw [insertLeaves, leaves]
          exact insertLevels_eq ih map key
  | _ => rfl

theorem find_insertAll
    (map : MapType D)
    (entries : List (KeyType × LeafType D))
    (x : KeyType) :
    (insertAll map entries).find x =
      (AssocMap.find entries.reverse x).or (map.find x) := by
  induction entries generalizing map with
  | nil =>
      rfl
  | cons e entries ih =>
      change (insertAll (map.insert e.1 e.2) entries).find x = _
      rw [ih, List.reverse_cons, AssocMap.find_append, Option.or_assoc,
        OrderedMap.find_insert]
      by_cases he : e.1 = x
      · simp [AssocMap.find, he]
      · simp [AssocMap.find, he]

theorem levelsLeaves_inSubtree
    {levels : List (String × Json D)}
    (hlevels : ∀ level ∈ levels, ∀ (key : KeyType),
      ∀ e ∈ leaves key level.2, InSubtree key e.1)
    (key : KeyType) :
    ∀ e ∈ levelsLeaves key levels, InSubtree key e.1 := by
  induction levels with
  | nil =>
      intro e he
      cases he
  | cons level levels ih =>
      obtain ⟨hlevel, hlevels⟩ := List.forall_mem_cons.mp hlevels
      intro e he
      rcases List.mem_append.mp he with he | he
      · rw [levelLeaves] at he
        have hbegins := prefix_of_inSubtree (hlevel _ e he)
        rw [List.append_cons] at hbegins
        exact .inr ((List.prefix_append _ _).trans hbegins)
      · exact ih hlevels e he

/-- The leaves below a key are in its subtree. -/
theorem leaves_inSubtree
    (key : KeyType)
    (s : Json D) :
    ∀ e ∈ leaves key s, InSubtree key e.1 := by
  induction s using Json.induction generalizing key with
  | object levels ih =>
      cases levels with
      | nil =>
          intro e he
          rw [List.mem_singleton.mp he]
          exact .inl rfl
      | cons level levels => exact levelsLeaves_inSubtree ih key
  | null =>
      intro e he
      cases he
  | array elements _ =>
      intro e he
      cases he
  | _ =>
      intro e he
      rw [List.mem_singleton.mp he]
      exact .inl rfl

/-! ## The range of a key -/

theorem cons_le_cons_iff
    {a b : UInt8}
    {l m : KeyType} :
    a :: l ≤ b :: m ↔ a < b ∨ a = b ∧ l ≤ m := by
  rw [← not_lt, List.cons_lt_cons_iff, ← not_lt (a := m)]
  rcases lt_trichotomy a b with h | rfl | h
  · simp [h, not_lt.mpr (le_of_lt h), (ne_of_lt h).symm]
  · simp
  · simp [h, not_lt.mpr (le_of_lt h), (ne_of_lt h).symm]

theorem not_cons_le_nil
    (a : UInt8)
    (l : KeyType) :
    ¬ a :: l ≤ [] := by
  rw [← not_lt]
  simp

theorem le_nil_iff
    {l : KeyType} :
    l ≤ [] ↔ l = [] := by
  rw [← not_lt]
  cases l <;> simp

theorem lt_succ_iff
    {b c : UInt8}
    (hb : b ≠ 255) :
    c < b + 1 ↔ c ≤ b := by
  have hne : b.toNat ≠ 255 := fun h => hb (UInt8.toNat_inj.mp h)
  have hlt := b.toNat_lt
  rw [UInt8.lt_iff_toNat_lt, UInt8.le_iff_toNat_le, UInt8.toNat_add]
  simp
  omega

theorem ne_succ
    (b : UInt8) :
    b ≠ b + 1 := by
  intro h
  have h := congrArg UInt8.toNat h
  have hlt := b.toNat_lt
  rw [UInt8.toNat_add] at h
  simp at h
  omega

/-- **Between a key and the next one** lie its continuations, and the next one. -/
theorem between_iff
    (front : KeyType)
    {b : UInt8}
    (hb : b ≠ 255)
    (x : KeyType) :
    front ++ [b] ≤ x ∧ x ≤ front ++ [b + 1] ↔
      front ++ [b] <+: x ∨ x = front ++ [b + 1] := by
  induction front generalizing x with
  | nil =>
      cases x with
      | nil =>
          simp [not_cons_le_nil]
      | cons c x =>
          simp only [List.nil_append, cons_le_cons_iff, le_nil_iff, lt_succ_iff hb,
            List.cons_prefix_cons, List.nil_prefix, and_true, List.cons.injEq]
          have hx : ([] : KeyType) ≤ x := by
            rw [← not_lt]
            simp
          constructor
          · rintro ⟨hbc | ⟨rfl, _⟩, hcb | h⟩
            · exact absurd hbc (not_lt.mpr hcb)
            · exact .inr h
            · exact .inl rfl
            · exact .inl rfl
          · rintro (rfl | ⟨rfl, hnil⟩)
            · exact ⟨.inr ⟨rfl, hx⟩, .inl le_rfl⟩
            · exact ⟨.inl ((lt_succ_iff hb).mpr le_rfl), .inr ⟨rfl, hnil⟩⟩
  | cons a front ih =>
      cases x with
      | nil =>
          simp [not_cons_le_nil]
      | cons c x =>
          simp only [List.cons_append, cons_le_cons_iff, List.cons_prefix_cons,
            List.cons.injEq]
          constructor
          · rintro ⟨hac | ⟨rfl, hlow⟩, hca | ⟨hca, hhigh⟩⟩
            · exact absurd hac (lt_asymm hca)
            · exact absurd hca (ne_of_gt hac)
            · exact absurd hca (lt_irrefl _)
            · exact ((ih x).mp ⟨hlow, hhigh⟩).imp (fun h => ⟨rfl, h⟩)
                (fun h => ⟨rfl, h⟩)
          · rintro (⟨rfl, h⟩ | ⟨rfl, h⟩)
            · obtain ⟨hlow, hhigh⟩ := (ih x).mpr (.inl h)
              exact ⟨.inr ⟨rfl, hlow⟩, .inr ⟨rfl, hhigh⟩⟩
            · obtain ⟨hlow, hhigh⟩ := (ih x).mpr (.inr h)
              exact ⟨.inr ⟨rfl, hlow⟩, .inr ⟨rfl, hhigh⟩⟩

/-- The last character wraps around: the next key is a smaller one. -/
theorem append_wrapped_lt
    (front : KeyType) :
    front ++ [(255 : UInt8) + 1] < front ++ [255] := by
  induction front with
  | nil => decide
  | cons a front ih =>
      exact List.cons_lt_cons_iff.mpr (.inr ⟨rfl, ih⟩)

theorem nextKey_append
    (front : KeyType)
    (b : UInt8) :
    nextKey (front ++ [b]) = front ++ [b + 1] := by
  simp [nextKey]

theorem not_inSubtree_nextKey
    (front : KeyType)
    (b : UInt8) :
    ¬ InSubtree (front ++ [b]) (front ++ [b + 1]) := by
  intro h
  have hbegins := prefix_of_inSubtree h
  rw [List.prefix_append_right_inj] at hbegins
  exact ne_succ b (List.cons_prefix_cons.mp hbegins).1

/-! ## When the range is the subtree -/

/-- The range of the key is one, and holds what is in the subtree. -/
def RangeExact (map : MapType D) (key : KeyType) : Prop :=
  (∀ e ∈ map.entries, e.1 < key → e.1 ≤ nextKey key) ∧
    ∀ e ∈ map.entries,
      (key ≤ e.1 ∧ e.1 ≤ nextKey key) ↔ InSubtree key e.1

/--
No other key that is stored is mistaken for one of the subtree.  Where the last
character of the key wraps around, the range is empty: then nothing may be stored
in the subtree, nor between the two bounds.
-/
def KeysSeparated (map : MapType D) (key : KeyType) : Prop :=
  (key.getLast? ≠ some 255 →
    ∀ e ∈ map.entries, (key <+: e.1 → InSubtree key e.1) ∧ e.1 ≠ nextKey key) ∧
  (key.getLast? = some 255 →
    ∀ e ∈ map.entries,
      ¬ (nextKey key < e.1 ∧ e.1 < key) ∧ ¬ InSubtree key e.1)

theorem rangeExact_iff_keysSeparated
    {map : MapType D}
    {key : KeyType}
    (hkey : key ≠ []) :
    RangeExact map key ↔ KeysSeparated map key := by
  obtain ⟨front, b, rfl⟩ := (List.eq_nil_or_concat' key).resolve_left hkey
  unfold RangeExact KeysSeparated
  rw [nextKey_append, List.getLast?_concat]
  by_cases hb : b = 255
  · subst hb
    have hlt := append_wrapped_lt front
    simp only [ne_eq, not_true_eq_false, false_implies, true_and, true_implies]
    constructor
    · rintro ⟨hrange, hsub⟩ e he
      refine ⟨?_, ?_⟩
      · rintro ⟨hlow, hhigh⟩
        exact absurd (hrange e he hhigh) (not_le.mpr hlow)
      · intro hin
        obtain ⟨hlow, hhigh⟩ := (hsub e he).mpr hin
        exact absurd (le_trans hlow hhigh) (not_le.mpr hlt)
    · intro h
      refine ⟨?_, ?_⟩
      · intro e he hhigh
        by_contra hlow
        exact (h e he).1 ⟨not_le.mp hlow, hhigh⟩
      · intro e he
        constructor
        · rintro ⟨hlow, hhigh⟩
          exact absurd (le_trans hlow hhigh) (not_le.mpr hlt)
        · intro hin
          exact absurd hin (h e he).2
  · have hle : front ++ [b] ≤ front ++ [b + 1] :=
      ((between_iff front hb _).mpr (.inr rfl)).1
    simp only [between_iff front hb, ne_eq, Option.some.injEq, hb,
      not_false_eq_true, true_implies, false_implies, and_true]
    constructor
    · rintro ⟨_, hsub⟩ e he
      refine ⟨fun hbegins => (hsub e he).mp (.inl hbegins), ?_⟩
      intro hnext
      exact not_inSubtree_nextKey front b (hnext ▸ (hsub e he).mp (.inr hnext))
    · intro h
      refine ⟨fun e _ hlow => le_trans (le_of_lt hlow) hle, ?_⟩
      intro e he
      constructor
      · rintro (hbegins | hnext)
        · exact (h e he).1 hbegins
        · exact absurd hnext (h e he).2
      · intro hin
        exact .inl (prefix_of_inSubtree hin)

theorem getKeyRange_of_ne_nil
    (map : MapType D)
    {key : KeyType}
    (hkey : key ≠ []) :
    getKeyRange map key =
      (map.lowerBound key, map.upperBound (nextKey key)) := by
  rw [getKeyRange, if_neg]
  simpa using hkey

/-! ## The object that is built -/

theorem slash_not_mem_of_mem_split
    {key part : KeyType}
    (h : part ∈ split key) :
    slash ∉ part := by
  induction key generalizing part with
  | nil =>
      have hpart : part = [] := List.mem_singleton.mp h
      rw [hpart]
      exact List.not_mem_nil
  | cons c key ih =>
      rw [split, List.splitOn, List.splitOnP_cons_eq_if_modifyHead] at h
      change ∀ {part : KeyType}, part ∈ key.splitOnP (· == slash) → slash ∉ part at ih
      by_cases hc : (c == slash) = true
      · rw [if_pos hc] at h
        rcases List.mem_cons.mp h with rfl | h
        · exact List.not_mem_nil
        · exact ih h
      · rw [if_neg hc] at h
        cases hparts : key.splitOnP (· == slash) with
        | nil => exact absurd hparts (List.splitOnP_ne_nil _ _)
        | cons front parts =>
            rw [hparts] at h ih
            rcases List.mem_cons.mp h with rfl | h
            · intro hmem
              rcases List.mem_cons.mp hmem with heq | hmem
              · exact hc (beq_iff_eq.mpr heq.symm)
              · exact ih List.mem_cons_self hmem
            · exact ih (List.mem_cons_of_mem front h)

theorem split_of_slash_not_mem
    {key : KeyType}
    (h : slash ∉ key) :
    split key = [key] := by
  apply List.splitOnP_eq_singleton
  intro c hc
  rw [beq_eq_false_iff_ne]
  exact fun heq => h (heq ▸ hc)

/-- The members are named by the last parts of the keys. -/
theorem buildMembers_eq_some
    {levels : List KeyType}
    {entries members : List (KeyType × LeafType D)}
    (h : buildMembers levels entries = some members) :
    members = entries.map fun e => ((split e.1).getLastD [], e.2) := by
  induction entries generalizing levels members with
  | nil =>
      obtain ⟨_, _, h⟩ := Option.bind_eq_some_iff.mp h
      cases h
      rfl
  | cons e entries ih =>
      obtain ⟨key, v⟩ := e
      rw [buildMembers] at h
      obtain ⟨_, _, h⟩ := Option.bind_eq_some_iff.mp h
      split at h
      · obtain ⟨rest, hrest, h⟩ := Option.bind_eq_some_iff.mp h
        cases h
        rw [List.map_cons, ih hrest]
      · cases h

/-- Keys without a slash open no levels. -/
theorem buildMembers_of_slash_not_mem
    {entries : List (KeyType × LeafType D)}
    (h : ∀ e ∈ entries, slash ∉ e.1) :
    buildMembers [] entries = some entries := by
  induction entries with
  | nil => rfl
  | cons e entries ih =>
      obtain ⟨key, v⟩ := e
      have hkey : slash ∉ key := h (key, v) List.mem_cons_self
      have hrest := ih fun e he => h e (List.mem_cons_of_mem _ he)
      rw [buildMembers, split_of_slash_not_mem hkey]
      change (buildMembers [] entries).bind _ = _
      rw [hrest]
      rfl

/-- The object has the entries as its members if and only if no key has a slash. -/
theorem buildObject_eq_self_iff
    {entries : List (KeyType × LeafType D)} :
    buildObject entries = some entries ↔ ∀ e ∈ entries, slash ∉ e.1 := by
  constructor
  · intro h e he
    have hmembers := buildMembers_eq_some h
    rw [hmembers] at he
    obtain ⟨e', _, rfl⟩ := List.mem_map.mp he
    have hne : split e'.1 ≠ [] := List.splitOnP_ne_nil _ _
    have hlast : (split e'.1).getLastD [] ∈ split e'.1 := by
      rw [List.getLastD_eq_getLast?, List.getLast?_eq_some_getLast hne, Option.getD_some]
      exact List.getLast_mem hne
    exact slash_not_mem_of_mem_split hlast
  · exact buildMembers_of_slash_not_mem

/-- The subtree lies in the range, unless the last character wraps around. -/
theorem inSubtree_between
    {key : KeyType}
    (hkey : key ≠ []) :
    (∀ x, InSubtree key x → key ≤ x ∧ x ≤ nextKey key) ∨
      ∀ x, ¬ (key ≤ x ∧ x ≤ nextKey key) := by
  obtain ⟨front, b, rfl⟩ := (List.eq_nil_or_concat' key).resolve_left hkey
  rw [nextKey_append]
  by_cases hb : b = 255
  · subst hb
    right
    rintro x ⟨hlow, hhigh⟩
    exact absurd (le_trans hlow hhigh) (not_le.mpr (append_wrapped_lt front))
  · left
    intro x hx
    exact (between_iff front hb x).mpr (.inl (prefix_of_inSubtree hx))

/-- No key in the subtree has a slash, so that `buildObject` opens no level for it. -/
def SubtreeFlat (map : MapType D) (key : KeyType) : Prop :=
  ∀ e ∈ map.entries, InSubtree key e.1 → slash ∉ e.1

/--
`get` finds the subtree if and only if the range is exact and no key in the subtree
has a slash.
-/
theorem get_eq_iff
    {map : MapType D}
    {key : KeyType}
    (hkey : key ≠ []) :
    get map key = some (map.entries.filter (fun e => InSubtree key e.1)) ↔
      RangeExact map key ∧ SubtreeFlat map key := by
  rw [get, getKeyRange_of_ne_nil map hkey]
  by_cases hrange : ∀ e ∈ map.entries, e.1 < key → e.1 ≤ nextKey key
  · simp only [OrderedMap.range_bounds hrange, Option.bind_eq_bind, Option.bind_some]
    constructor
    · intro h
      -- the object has as many members as the range has entries
      have hlength := congrArg List.length (buildMembers_eq_some h)
      rw [List.length_map] at hlength
      have heq : map.entries.filter (fun e => key ≤ e.1 ∧ e.1 ≤ nextKey key) =
          map.entries.filter (fun e => InSubtree key e.1) := by
        rcases inSubtree_between hkey with hsub | hnone
        · have hsublist : List.Sublist (map.entries.filter (fun e => InSubtree key e.1))
              (map.entries.filter (fun e => key ≤ e.1 ∧ e.1 ≤ nextKey key)) := by
            apply List.monotone_filter_right
            intro e he
            rw [decide_eq_true_eq] at he ⊢
            exact hsub e.1 he
          exact (hsublist.eq_of_length hlength).symm
        · have hempty : map.entries.filter (fun e => key ≤ e.1 ∧ e.1 ≤ nextKey key) = [] := by
            rw [List.filter_eq_nil_iff]
            intro e _
            rw [decide_eq_true_eq]
            exact hnone e.1
          rw [hempty] at hlength ⊢
          exact (List.length_eq_zero_iff.mp hlength).symm
      rw [heq] at h
      refine ⟨⟨hrange, ?_⟩, ?_⟩
      · intro e he
        have hmem := congrArg (e ∈ ·) heq
        simpa [he] using hmem
      · intro e he hin
        apply buildObject_eq_self_iff.mp h
        exact List.mem_filter.mpr ⟨he, decide_eq_true hin⟩
    · rintro ⟨hexact, hflat⟩
      have heq : map.entries.filter (fun e => key ≤ e.1 ∧ e.1 ≤ nextKey key) =
          map.entries.filter (fun e => InSubtree key e.1) := by
        apply List.filter_congr
        intro e he
        exact decide_eq_decide.mpr (hexact.2 e he)
      rw [heq, buildObject_eq_self_iff]
      intro e he
      obtain ⟨he, hin⟩ := List.mem_filter.mp he
      exact hflat e he (of_decide_eq_true hin)
  · simp only [OrderedMap.range_bounds_eq_none hrange]
    constructor
    · intro h
      cases h
    · intro h
      exact absurd h.1.1 hrange

/-- Where the range is exact, `set` replaces the subtree. -/
theorem set_of_rangeExact
    {map : MapType D}
    {key : KeyType}
    (hkey : key ≠ [])
    (h : RangeExact map key)
    (slice : Slice D) :
    ∃ result, set map key slice = some result ∧
      ∀ x, result.find x =
        if InSubtree key x then AssocMap.find (sliceLeaves key slice).reverse x
        else map.find x := by
  obtain ⟨hrange, hsub⟩ := h
  obtain ⟨rest, hrest, hfind⟩ := OrderedMap.erase_bounds hrange
  have hset : set map key slice = some (insertAll rest (sliceLeaves key slice)) := by
    have hdelete : deleteRange map key = some rest := by
      rw [deleteRange, getKeyRange_of_ne_nil map hkey]
      exact hrest
    rw [set, hdelete]
    cases slice with
    | none => rfl
    | some s => exact congrArg some (insertLeaves_eq rest key s)
  have hkept : ∀ x, rest.find x = if InSubtree key x then none else map.find x := by
    intro x
    rw [hfind]
    cases hx : map.find x with
    | none => simp
    | some v =>
        have hin := hsub (x, v) (OrderedMap.mem_of_find hx)
        simp only [hin]
  have hleaves : ∀ x, ¬ InSubtree key x →
      AssocMap.find (sliceLeaves key slice).reverse x = none := by
    intro x hx
    rw [AssocMap.find_eq_none_iff]
    intro hmem
    obtain ⟨e, he, rfl⟩ := List.mem_map.mp hmem
    cases slice with
    | none => cases he
    | some s => exact hx (leaves_inSubtree key s e (List.mem_reverse.mp he))
  refine ⟨_, hset, ?_⟩
  intro x
  rw [find_insertAll, hkept]
  by_cases hx : InSubtree key x
  · rw [if_pos hx, if_pos hx, Option.or_none]
  · rw [if_neg hx, if_neg hx, hleaves x hx, Option.none_or]

/--
**The flat store touches exactly the addressed subtree** if and only if the keys
that are stored can be told apart by the range and none in the subtree has a slash.
-/
theorem touchesExactly_iff
    (map : MapType D)
    (key : KeyType)
    (slice : Slice D)
    (hkey : key ≠ []) :
    TouchesExactly map key slice ↔ KeysSeparated map key ∧ SubtreeFlat map key := by
  rw [← rangeExact_iff_keysSeparated hkey]
  constructor
  · intro h
    exact (get_eq_iff hkey).mp h.get
  · intro h
    exact ⟨set_of_rangeExact hkey h.1 slice, (get_eq_iff hkey).mpr h⟩

/-- The leaf at `a`, next to `c/d`. -/
theorem touchesExactly_iff_sibling :
    let map : MapType Int :=
      ⟨[([97], .bool true), ([99, slash, 100], .bool false)], by decide⟩
    TouchesExactly map [97] (some (.number 1)) := by
  intro map
  refine (touchesExactly_iff map [97] _ (by decide)).mpr ⟨⟨?_, ?_⟩, ?_⟩
  · intro _ e he
    simp only [map, List.mem_cons, List.not_mem_nil, or_false] at he
    rcases he with rfl | rfl
    · decide
    · decide
  · intro h
    cases h
  · intro e he
    simp only [map, List.mem_cons, List.not_mem_nil, or_false] at he
    rcases he with rfl | rfl
    · decide
    · decide

/-- The key `ab` begins with `a` and is taken for one of its subtree. -/
theorem not_touchesExactly_prefix :
    ¬ ∀ (map : MapType Int) (key : KeyType) (slice : Slice Int), key ≠ [] →
      TouchesExactly map key slice := by
  intro h
  let map : MapType Int := ⟨[([97, 98], .bool true)], by decide⟩
  have hexact := ((get_eq_iff (by decide)).mp (h map [97] none (by decide)).get).1
  have hsub := hexact.2 ([97, 98], .bool true) List.mem_cons_self
  exact absurd (hsub.mp (by decide)) (by decide)

end FlatStore

end AgencyNode
