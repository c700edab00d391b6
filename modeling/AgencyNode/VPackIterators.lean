import AgencyNode.VPackAccess

/-!
# Iterating over closed compounds

The iterators visit the items of an array in order and the members of an object in
the order of its index table, or in storage order where it has none.
-/

namespace AgencyNode
namespace VPack

open Lib Lib.ByteIntegers Lib.Frames

/-- An item whose size is written in front. -/
structure Sized (x : Memory) : Prop where
  isItem : IsItem x
  length_lt : x.length < 2 ^ 64
  byteSize_eq : ∀ t, Slice.byteSize (x ++ t) = .ok (UInt64.ofNat x.length)

theorem Sized.behind
    {x : Memory}
    (h : Sized x)
    (t : Memory) :
    Slice.behind (x ++ t) = .ok t := by
  rw [Slice.behind, h.byteSize_eq, Read.ok_bind]
  exact congrArg Except.ok (advance_append (toNat_ofNat_of_lt h.length_lt))

/-! ### The size of a compound -/

section Sizes

variable {s : Memory} {head : UInt8} {w z : Nat} {items : List Memory} {table : List Nat}

theorem IsItem.of_head
    {s : Memory}
    {b : UInt8}
    (h : Slice.head (s ++ []) = .ok b)
    (hb : b ≠ 0) :
    IsItem s := by
  rw [List.append_nil] at h
  cases s with
  | nil => cases h
  | cons c t =>
      have heq : c = b := by
        injection h
      exact ⟨c, t, rfl, heq ▸ hb⟩

theorem Indexed.sized
    (h : Indexed s head w z items table)
    (hhead : head = 0x06 ∨ head = 0x0b) :
    Sized s := by
  have hne : head + widthStep w ≠ 0 ∧ fixedTypeLengths (head + widthStep w) = 0 ∧
      widthMap (head + widthStep w) = w ∧
      (typeMap (head + widthStep w) = .array ∨ typeMap (head + widthStep w) = .object) ∧
      ((head + widthStep w = 0x13 || head + widthStep w = 0x14 : Bool) = false) := by
    rcases hhead with rfl | rfl <;> obtain rfl | rfl | rfl | rfl := h.isWidth <;> decide
  obtain ⟨hzero, hfixed, hwidth, htype, hcompact⟩ := hne
  refine ⟨.of_head (h.head_eq []) hzero, h.length_lt_two_pow, fun t => ?_⟩
  have hread := h.readLength t
  rw [Slice.byteSize, h.head_eq, Read.ok_bind, hfixed, if_neg (by simp),
    Slice.variableByteSize]
  rcases htype with htype | htype
  · simp only [htype, hcompact, Bool.false_eq_true, if_false, hwidth, hread]
  · simp only [htype, hcompact, Bool.false_eq_true, if_false, hwidth, hread]

theorem Unindexed.sized
    (h : Unindexed s w z items) :
    Sized s := by
  have hne : (0x02 : UInt8) + widthStep w ≠ 0 ∧ fixedTypeLengths (0x02 + widthStep w) = 0 ∧
      widthMap (0x02 + widthStep w) = w ∧ typeMap (0x02 + widthStep w) = .array ∧
      ((0x02 + widthStep w = 0x13 || 0x02 + widthStep w = 0x14 : Bool) = false) := by
    obtain rfl | rfl | rfl | rfl := h.isWidth <;> decide
  obtain ⟨hzero, hfixed, hwidth, htype, hcompact⟩ := hne
  refine ⟨.of_head (h.head_eq []) hzero, h.length_lt_two_pow, fun t => ?_⟩
  have hread := h.readLength t
  rw [Slice.byteSize, h.head_eq, Read.ok_bind, hfixed, if_neg (by simp),
    Slice.variableByteSize]
  simp only [htype, hcompact, Bool.false_eq_true, if_false, hwidth, hread]

theorem Compact.sized
    (h : Compact s head items)
    (hhead : head = 0x13 ∨ head = 0x14)
    (hlt : s.length < 2 ^ 64) :
    Sized s := by
  have hread := h.readLength
  rcases hhead with rfl | rfl
  · refine ⟨.of_head (h.head_eq []) (by decide), hlt, fun t => ?_⟩
    rw [Slice.byteSize, h.head_eq, Read.ok_bind]
    exact hread t
  · refine ⟨.of_head (h.head_eq []) (by decide), hlt, fun t => ?_⟩
    rw [Slice.byteSize, h.head_eq, Read.ok_bind]
    exact hread t

end Sizes

/-! ### Arrays -/

/-- The slices at which the items start. -/
def slicesOf (post : Memory) : List Memory → List Memory
  | [] => []
  | x :: xs => (x ++ (xs.flatten ++ post)) :: slicesOf post xs

/-- The loop over the items that are left. -/
theorem valuesLoop_eq
    (s post : Memory)
    {size : Nat}
    (hsize : size < 2 ^ 64)
    {x : Memory}
    {rest : List Memory}
    (hsized : ∀ y ∈ x :: rest, Sized y)
    {position : Nat}
    (hposition : position + (rest.length + 1) = size) :
    ArrayIterator.valuesLoop (rest.length + 1)
        ⟨s, UInt64.ofNat size, UInt64.ofNat position, some (x ++ (rest.flatten ++ post))⟩ =
      .ok (slicesOf post (x :: rest)) := by
  induction rest generalizing x position with
  | nil =>
      have hlast : ¬ UInt64.ofNat position + 1 < UInt64.ofNat size := by
        rw [ofNat_add_one, ofNat_lt_ofNat (by omega) hsize]
        simp only [List.length_nil] at hposition
        omega
      simp only [ArrayIterator.valuesLoop, ArrayIterator.value, ArrayIterator.next,
        if_neg hlast, Read.ok_bind, Read.pure_eq_ok, slicesOf]
      rfl
  | cons y rest ih =>
      have hmore : UInt64.ofNat position + 1 < UInt64.ofNat size := by
        rw [ofNat_add_one, ofNat_lt_ofNat (by omega) hsize]
        simp only [List.length_cons] at hposition
        omega
      have hbehind := (hsized x List.mem_cons_self).behind ((y :: rest).flatten ++ post)
      have hposition' : position + 1 + (rest.length + 1) = size := by
        simp only [List.length_cons] at hposition
        omega
      have hrest := ih (fun z hz => hsized z (List.mem_cons_of_mem x hz)) hposition'
      have hnext := ofNat_add_one position
      rw [hnext] at hmore
      rw [List.flatten_cons, List.append_assoc] at hbehind
      rw [List.length_cons, ArrayIterator.valuesLoop]
      simp only [ArrayIterator.value, ArrayIterator.next, Read.ok_bind, if_pos hmore,
        List.flatten_cons, List.append_assoc, hbehind, Read.pure_eq_ok, hnext, hrest, slicesOf]

theorem ofNat_eq_zero_iff
    {n : Nat}
    (h : n < 2 ^ 64) :
    UInt64.ofNat n = 0 ↔ n = 0 := by
  rw [← UInt64.toNat_inj, toNat_ofNat_of_lt h]
  rfl

theorem count_le
    {items : List Memory}
    (hitems : ∀ x ∈ items, IsItem x) :
    items.length ≤ items.flatten.length := by
  induction items with
  | nil => exact Nat.zero_le _
  | cons x items ih =>
      obtain ⟨b, t, rfl, _⟩ := hitems x List.mem_cons_self
      have := ih fun y hy => hitems y (List.mem_cons_of_mem _ hy)
      rw [List.length_cons, List.flatten_cons, List.length_append, List.length_cons]
      omega

section Starts

variable {s : Memory} {w z : Nat} {items : List Memory} {table : List Nat} (t : Memory)

/-- The first item of an array without an index table tells how many there are. -/
theorem Unindexed.firstItem
    (h : Unindexed s w z items)
    (hne : items ≠ [])
    (hsized : ∀ x ∈ items, Sized x)
    {k : Nat}
    (hk : ∀ x ∈ items, x.length = k)
    (what : String) :
    Slice.firstItem (s ++ t) (0x02 + widthStep w) what =
        .ok (UInt64.ofNat (1 + w + z), UInt64.ofNat k) ∧
      (UInt64.ofNat s.length - UInt64.ofNat (1 + w + z)) / UInt64.ofNat k =
        UInt64.ofNat items.length := by
  have hoffset := h.findDataOffset t hne fun x hx => (hsized x hx).isItem
  have hadvance := h.advance t
  have hlength := h.length_eq
  have hlt := h.length_lt_two_pow
  have hflatten := length_flatten_of_forall hk
  have hcount := count_le fun x hx => (hsized x hx).isItem
  obtain ⟨x, rest, rfl⟩ := List.exists_cons_of_ne_nil hne
  have hx := hsized x List.mem_cons_self
  have hxk := hk x List.mem_cons_self
  have hpos : 0 < k := by
    obtain ⟨b, u, rfl, _⟩ := hx.isItem
    rw [← hxk]
    exact Nat.succ_pos _
  have hklt : k < 2 ^ 64 := hxk ▸ hx.length_lt
  refine ⟨?_, ?_⟩
  · have hsize : Slice.byteSize ((x :: rest).flatten ++ t) = .ok (UInt64.ofNat k) := by
      rw [List.flatten_cons, List.append_assoc, hx.byteSize_eq, hxk]
    have hnonzero : ¬ UInt64.ofNat k = 0 := by
      rw [ofNat_eq_zero_iff hklt]
      omega
    rw [Slice.firstItem, hoffset, Read.ok_bind, hadvance, hsize, Read.ok_bind, if_neg hnonzero]
    rfl
  · rw [← UInt64.ofNat_sub (by omega), ← UInt64.toNat_inj, UInt64.toNat_div,
      toNat_ofNat_of_lt (by omega), toNat_ofNat_of_lt hklt, toNat_ofNat_of_lt (by omega), hlength,
      Nat.add_sub_cancel_left, hflatten, Nat.mul_div_cancel _ hpos]

/-- `Slice::length` of a compound with an index table. -/
theorem Indexed.sliceLength
    {head : UInt8}
    (h : Indexed s head w z items table)
    (hhead : head = 0x06 ∨ head = 0x0b)
    (htable : table.length = items.length) :
    Slice.length (s ++ t) = .ok (UInt64.ofNat items.length) := by
  have hcases : ¬ (typeMap (head + widthStep w) ≠ .array ∧
      typeMap (head + widthStep w) ≠ .object) ∧
      ¬ (head + widthStep w = 0x01 ∨ head + widthStep w = 0x0a) ∧
      ¬ (head + widthStep w = 0x13 ∨ head + widthStep w = 0x14) ∧
      ¬ head + widthStep w ≤ 0x05 ∧ widthMap (head + widthStep w) = w := by
    rcases hhead with rfl | rfl <;> obtain rfl | rfl | rfl | rfl := h.isWidth <;> decide
  obtain ⟨htype, hempty, hcompact, hplain, hwidth⟩ := hcases
  have hread := h.readLength t
  have hlength := h.indexedLength t htable
  rw [Slice.length, h.head_eq, Read.ok_bind, if_neg htype, if_neg hempty, if_neg hcompact]
  simp only [hwidth, hread, Read.ok_bind, if_neg hplain]
  exact hlength

theorem Unindexed.sliceLength
    (h : Unindexed s w z items)
    (hone : OneLength items)
    (hne : items ≠ [])
    (hsized : ∀ x ∈ items, Sized x) :
    Slice.length (s ++ t) = .ok (UInt64.ofNat items.length) := by
  obtain ⟨k, hk⟩ := hone
  obtain ⟨hfirst, hdiv⟩ := h.firstItem t hne hsized hk "Invalid data for Array"
  have hread := h.readLength t
  have hcases : ¬ (typeMap (0x02 + widthStep w) ≠ .array ∧
      typeMap (0x02 + widthStep w) ≠ .object) ∧
      ¬ ((0x02 : UInt8) + widthStep w = 0x01 ∨ (0x02 : UInt8) + widthStep w = 0x0a) ∧
      ¬ ((0x02 : UInt8) + widthStep w = 0x13 ∨ (0x02 : UInt8) + widthStep w = 0x14) ∧
      (0x02 : UInt8) + widthStep w ≤ 0x05 ∧ widthMap (0x02 + widthStep w) = w := by
    obtain rfl | rfl | rfl | rfl := h.isWidth <;> decide
  obtain ⟨htype, hempty, hcompact, hplain, hwidth⟩ := hcases
  rw [Slice.length, h.head_eq, Read.ok_bind, if_neg htype, if_neg hempty, if_neg hcompact]
  simp only [hwidth, hread, Read.ok_bind, if_pos hplain, hfirst, hdiv]
  rfl

theorem Compact.sliceLength
    {head : UInt8}
    (h : Compact s head items)
    (hhead : head = 0x13 ∨ head = 0x14)
    (hlt : s.length < 2 ^ 64) :
    Slice.length (s ++ t) = .ok (UInt64.ofNat items.length) := by
  have hcompact := h.compactLength t hlt
  rw [Slice.length, h.head_eq, Read.ok_bind]
  rcases hhead with rfl | rfl
  · exact hcompact
  · exact hcompact

/-- The iterator starts at the first item and knows how many there are. -/
theorem arrayIterator_indexed
    (h : Indexed s 0x06 w z items table)
    (htable : table.length = items.length)
    (hne : items ≠ [])
    (hsized : ∀ x ∈ items, Sized x) :
    ∃ post, ArrayIterator.ofSlice (s ++ t) =
      .ok ⟨s ++ t, UInt64.ofNat items.length, 0, some (items.flatten ++ post)⟩ := by
  have hoffset := h.findDataOffset t (.inl rfl) hne fun x hx => (hsized x hx).isItem
  have hadvance := h.advance t 0
  rw [List.take_zero, List.flatten_nil, List.length_nil, Nat.add_zero, List.drop_zero] at hadvance
  have hlength := h.indexedLength t htable
  have hcount := h.count_lt htable
  have hcount' := Nat.lt_of_lt_of_le hcount h.isWidth.pow_le
  have hread := h.readLength t
  have hhead : typeMap (0x06 + widthStep w) = .array ∧ ¬ (0x06 : UInt8) + widthStep w = 0x01 ∧
      ¬ (0x06 : UInt8) + widthStep w = 0x13 ∧ ¬ (0x06 : UInt8) + widthStep w ≤ 0x05 ∧
      widthMap (0x06 + widthStep w) = w := by
    obtain rfl | rfl | rfl | rfl := h.isWidth <;> decide
  obtain ⟨htype, hempty, hcompact, hplain, hwidth⟩ := hhead
  have harray : Slice.arrayLength (s ++ t) = .ok (UInt64.ofNat items.length) := by
    rw [Slice.arrayLength, h.head_eq, Read.ok_bind, if_neg hempty, if_neg hcompact]
    simp only [hwidth, if_neg hplain, hread, Read.ok_bind]
    exact hlength
  have hnonzero : ¬ UInt64.ofNat items.length = 0 := by
    rw [ofNat_eq_zero_iff hcount']
    exact fun hzero => hne (List.length_eq_zero_iff.mp hzero)
  refine ⟨table.flatMap (littleEndian w) ++ (countBack w items.length ++ t), ?_⟩
  rw [ArrayIterator.ofSlice, h.head_eq, Read.ok_bind, if_neg (not_not_intro htype), harray,
    Read.ok_bind, if_neg hnonzero, if_neg hcompact, hoffset, Read.ok_bind, hadvance]
  rfl

theorem arrayIterator_unindexed
    (h : Unindexed s w z items)
    (hone : OneLength items)
    (hne : items ≠ [])
    (hsized : ∀ x ∈ items, Sized x) :
    ∃ post, ArrayIterator.ofSlice (s ++ t) =
      .ok ⟨s ++ t, UInt64.ofNat items.length, 0, some (items.flatten ++ post)⟩ := by
  obtain ⟨k, hk⟩ := hone
  obtain ⟨hfirst, hdiv⟩ := h.firstItem t hne hsized hk "Invalid data for Array"
  have hoffset := h.findDataOffset t hne fun x hx => (hsized x hx).isItem
  have hadvance := h.advance t
  have hlength := h.length_eq
  have hlt := h.length_lt_two_pow
  have hcount := count_le fun x hx => (hsized x hx).isItem
  have hread := h.readLength t
  have hhead : typeMap (0x02 + widthStep w) = .array ∧ ¬ (0x02 : UInt8) + widthStep w = 0x01 ∧
      ¬ (0x02 : UInt8) + widthStep w = 0x13 ∧ (0x02 : UInt8) + widthStep w ≤ 0x05 ∧
      widthMap (0x02 + widthStep w) = w := by
    obtain rfl | rfl | rfl | rfl := h.isWidth <;> decide
  obtain ⟨htype, hempty, hcompact, hplain, hwidth⟩ := hhead
  have harray : Slice.arrayLength (s ++ t) = .ok (UInt64.ofNat items.length) := by
    rw [Slice.arrayLength, h.head_eq, Read.ok_bind, if_neg hempty, if_neg hcompact]
    simp only [hwidth, if_pos hplain, hread, hfirst, Read.ok_bind, hdiv]
    rfl
  have hnonzero : ¬ UInt64.ofNat items.length = 0 := by
    rw [ofNat_eq_zero_iff (by omega)]
    exact fun hzero => hne (List.length_eq_zero_iff.mp hzero)
  refine ⟨t, ?_⟩
  rw [ArrayIterator.ofSlice, h.head_eq, Read.ok_bind, if_neg (not_not_intro htype), harray,
    Read.ok_bind, if_neg hnonzero, if_neg hcompact, hoffset, Read.ok_bind, hadvance]
  rfl

theorem arrayIterator_compact
    (h : Compact s 0x13 items)
    (hlt : s.length < 2 ^ 64)
    (hne : items ≠ [])
    (hsized : ∀ x ∈ items, Sized x) :
    ∃ post, ArrayIterator.ofSlice (s ++ t) =
      .ok ⟨s ++ t, UInt64.ofNat items.length, 0, some (items.flatten ++ post)⟩ := by
  have hlength := h.length_eq
  have hcount := count_le fun x hx => (hsized x hx).isItem
  have hnonzero : ¬ UInt64.ofNat items.length = 0 := by
    rw [ofNat_eq_zero_iff (by omega)]
    exact fun hzero => hne (List.length_eq_zero_iff.mp hzero)
  have harray : Slice.arrayLength (s ++ t) = .ok (UInt64.ofNat items.length) := by
    rw [Slice.arrayLength, h.head_eq, Read.ok_bind]
    exact h.compactLength t hlt
  refine ⟨(leb items.length).reverse ++ t, ?_⟩
  rw [ArrayIterator.ofSlice, h.head_eq, Read.ok_bind, if_neg (by decide), harray,
    Read.ok_bind, if_neg hnonzero, if_pos rfl, h.getStartOffset t hlt, Read.ok_bind,
    h.advance t hlt]
  rfl

end Starts

/-- A loop over a range whose iterator starts at the first item. -/
theorem values_of_start
    {m post : Memory}
    {items : List Memory}
    (hne : items ≠ [])
    (hsized : ∀ x ∈ items, Sized x)
    (hlt : items.length < 2 ^ 64)
    (h : ArrayIterator.ofSlice m =
      .ok ⟨m, UInt64.ofNat items.length, 0, some (items.flatten ++ post)⟩) :
    ArrayIterator.values m = .ok (slicesOf post items) := by
  obtain ⟨x, rest, rfl⟩ := List.exists_cons_of_ne_nil hne
  have hposition : 0 + (rest.length + 1) = (x :: rest).length := Nat.zero_add _
  have hloop := valuesLoop_eq m post hlt hsized hposition
  rw [ArrayIterator.values, h, Read.ok_bind]
  simp only [toNat_ofNat_of_lt hlt, List.flatten_cons, List.append_assoc]
  exact hloop

/-- **A loop over an array visits its items in order.** -/
theorem values_closed
    [StdSort]
    {options : Options}
    (hpadding : options.paddingBehavior ≠ .usePadding)
    {items : List Memory}
    (hsized : ∀ x ∈ items, Sized x)
    {s : Memory}
    (hs : s = closeCompound options (openHeader 0x06 ++ items.flatten) (offsets 9 items))
    (hlt : s.length < 2 ^ 64) :
    Sized s ∧ ∀ t, Slice.isType (s ++ t) .array = .ok true ∧
      ∃ post, ArrayIterator.values (s ++ t) = .ok (slicesOf post items) := by
  by_cases hne : items = []
  · subst hne
    have hclosed : s = [0x01] := hs
    subst hclosed
    exact ⟨⟨⟨0x01, [], rfl, by decide⟩, by decide, fun t => rfl⟩,
      fun t => ⟨rfl, [], rfl⟩⟩
  · have hitems : ∀ x ∈ items, IsItem x := fun x hx => (hsized x hx).isItem
    have hcount := count_le hitems
    obtain h | ⟨w, z, h, hone⟩ | ⟨w, z, h⟩ := closeCompound_array hpadding hne hitems hs hlt
    · refine ⟨h.sized (.inl rfl) hlt, fun t => ⟨?_, ?_⟩⟩
      · rw [Slice.isType, h.head_eq]
        rfl
      · have hlength := h.length_eq
        obtain ⟨post, hstart⟩ := arrayIterator_compact t h hlt hne hsized
        exact ⟨post, values_of_start hne hsized (by omega) hstart⟩
    · refine ⟨h.sized, fun t => ⟨?_, ?_⟩⟩
      · rw [Slice.isType, h.head_eq]
        obtain rfl | rfl | rfl | rfl := h.isWidth <;> rfl
      · have hlength := h.length_eq
        obtain ⟨post, hstart⟩ := arrayIterator_unindexed t h hone hne hsized
        exact ⟨post, values_of_start hne hsized (by omega) hstart⟩
    · refine ⟨h.sized (.inl rfl), fun t => ⟨?_, ?_⟩⟩
      · rw [Slice.isType, h.head_eq]
        obtain rfl | rfl | rfl | rfl := h.isWidth <;> rfl
      · have hlength := h.length_eq
        obtain ⟨post, hstart⟩ := arrayIterator_indexed t h (length_offsets _ _) hne hsized
        exact ⟨post, values_of_start hne hsized (by omega) hstart⟩

/-- **`Slice::length` counts the elements** of an array. -/
theorem length_closed_array
    [StdSort]
    {options : Options}
    (hpadding : options.paddingBehavior ≠ .usePadding)
    {items : List Memory}
    (hsized : ∀ x ∈ items, Sized x)
    {s : Memory}
    (hs : s = closeCompound options (openHeader 0x06 ++ items.flatten) (offsets 9 items))
    (hlt : s.length < 2 ^ 64)
    (t : Memory) :
    Slice.length (s ++ t) = .ok (UInt64.ofNat items.length) := by
  by_cases hne : items = []
  · subst hne
    have hclosed : s = [0x01] := hs
    subst hclosed
    rfl
  · have hitems : ∀ x ∈ items, IsItem x := fun x hx => (hsized x hx).isItem
    obtain h | ⟨w, z, h, hone⟩ | ⟨w, z, h⟩ := closeCompound_array hpadding hne hitems hs hlt
    · exact h.sliceLength t (.inl rfl) hlt
    · exact h.sliceLength t hone hne hsized
    · exact h.sliceLength t (.inl rfl) (length_offsets _ _)

/-- **`Slice::length` counts the members** of an object. -/
theorem length_closed_object
    [StdSort]
    {options : Options}
    (hpadding : options.paddingBehavior ≠ .usePadding)
    {items : List Memory}
    {s : Memory}
    (hs : s = closeCompound options (openHeader 0x0b ++ items.flatten) (offsets 9 items))
    (hlt : s.length < 2 ^ 64)
    (t : Memory) :
    Slice.length (s ++ t) = .ok (UInt64.ofNat items.length) := by
  by_cases hne : items = []
  · subst hne
    have hclosed : s = [0x0a] := hs
    subst hclosed
    rfl
  · obtain h | ⟨w, z, h⟩ := closeCompound_object hpadding hne hs hlt
    · exact h.sliceLength t (.inr rfl) hlt
    · refine h.sliceLength t (.inr rfl) ?_
      split
      · rw [length_sortObjectIndex, length_offsets]
      · exact length_offsets _ _

end VPack
end AgencyNode
