import Mathlib.Data.List.Basic
import Mathlib.Logic.Function.Basic

/-!
# Arrays with holes, packed under a bitmap

An array of `w` slots, most of them empty, is kept as a bitmap of the slots in
use and the list of their items.  The item of a slot stands at the position given
by the number of bits that are set below the bit of the slot.

`Packs` ties the two parts to the slots they stand for.  One lemma for each
update says which slots the updated parts stand for.
-/

namespace AgencyNode
namespace Lib
namespace PackedArray

universe u

variable {w : Nat} {α : Type u}

/-- The number of bits that are set. -/
def popcount (x : BitVec w) : Nat :=
  x.cpopNatRec w 0

/-- The bitmap and the items of the slots in use. -/
structure Packs
    (bitmap : BitVec w)
    (items : List α)
    (slot : Nat → Option α) : Prop where
  inUse : ∀ i, bitmap.getLsbD i = (slot i).isSome
  items : items = (List.range w).filterMap slot

/-! ## Counting bits -/

theorem cpopNatRec_eq_countP
    (x : BitVec w)
    (n : Nat) :
    x.cpopNatRec n 0 = (List.range n).countP x.getLsbD := by
  induction n with
  | zero =>
      rfl
  | succ n ih =>
      rw [BitVec.cpopNatRec_succ, BitVec.cpopNatRec_eq, ih, List.range_succ,
        List.countP_append]
      cases hbit : x.getLsbD n <;> simp [hbit]

theorem getLsbD_mask
    {i : Nat}
    (hi : i < w)
    (j : Nat) :
    (1#w <<< i - 1#w).getLsbD j = decide (j < i) := by
  have hpow : 2 ^ i < 2 ^ w := Nat.pow_lt_pow_right (by decide) hi
  have hpos : 0 < 2 ^ i := Nat.two_pow_pos i
  have hone : 1 % 2 ^ w = 1 := Nat.mod_eq_of_lt (by omega)
  have hvalue : (1#w <<< i - 1#w).toNat = 2 ^ i - 1 := by
    rw [BitVec.toNat_sub, BitVec.toNat_shiftLeft, BitVec.toNat_ofNat, hone,
      Nat.one_shiftLeft, Nat.mod_eq_of_lt hpow]
    have hsum : 2 ^ w - 1 + 2 ^ i = 2 ^ i - 1 + 2 ^ w := by omega
    rw [hsum, Nat.add_mod_right, Nat.mod_eq_of_lt (by omega)]
  rw [← BitVec.testBit_toNat, hvalue, Nat.testBit_two_pow_sub_one]

theorem getLsbD_bit
    {i : Nat}
    (hi : i < w)
    (j : Nat) :
    (1#w <<< i).getLsbD j = decide (j = i) := by
  have htwo : (1#w <<< i) = BitVec.twoPow w i := BitVec.twoPow_eq w i |>.symm
  rw [htwo, BitVec.getLsbD_twoPow]
  simp only [hi, decide_true, Bool.true_and]
  exact decide_eq_decide.mpr eq_comm

/-- The slots below a slot, the slot, and the slots above it. -/
theorem range_split
    {i : Nat}
    (hi : i < w) :
    List.range w = List.range i ++ i :: List.range' (i + 1) (w - i - 1) := by
  have hw : w = i + (w - i - 1 + 1) := by omega
  rw [List.range_eq_range', List.range_eq_range']
  conv_lhs => rw [hw]
  rw [← List.range'_append_1, List.range'_succ, Nat.zero_add]

/-- The bits that are set below a bit. -/
theorem popcount_below
    {i : Nat}
    (hi : i < w)
    (x : BitVec w) :
    popcount (x &&& (1#w <<< i - 1#w)) = (List.range i).countP x.getLsbD := by
  rw [popcount, cpopNatRec_eq_countP, range_split hi, List.countP_append,
    List.countP_cons]
  have hbelow : (List.range i).countP (x &&& (1#w <<< i - 1#w)).getLsbD =
      (List.range i).countP x.getLsbD := by
    apply List.countP_congr
    intro j hj
    rw [BitVec.getLsbD_and, getLsbD_mask hi, decide_eq_true (List.mem_range.mp hj),
      Bool.and_true]
  have habove : (List.range' (i + 1) (w - i - 1)).countP
      (x &&& (1#w <<< i - 1#w)).getLsbD = 0 := by
    apply List.countP_eq_zero.mpr
    intro j hj
    have := List.mem_range'_1.mp hj
    rw [BitVec.getLsbD_and, getLsbD_mask hi, decide_eq_false (by omega)]
    simp
  rw [hbelow, habove, BitVec.getLsbD_and, getLsbD_mask hi]
  simp

theorem popcount_le
    (x : BitVec w) :
    popcount x ≤ w := by
  exact BitVec.cpopNatRec_zero_le x w

namespace Packs

variable {bitmap : BitVec w} {items : List α} {slot : Nat → Option α}

/-! ## What the parts say about the slots -/

theorem countP
    (h : Packs bitmap items slot)
    (js : List Nat) :
    js.countP bitmap.getLsbD = (js.filterMap slot).length := by
  rw [List.length_filterMap_eq_countP]
  apply List.countP_congr
  intro j _
  rw [h.inUse]

/-- The position of a slot's item. -/
theorem offset
    (h : Packs bitmap items slot)
    {i : Nat}
    (hi : i < w) :
    popcount (bitmap &&& (1#w <<< i - 1#w)) =
      ((List.range i).filterMap slot).length := by
  rw [popcount_below hi, h.countP]

theorem length
    (h : Packs bitmap items slot) :
    popcount bitmap = items.length := by
  rw [popcount, cpopNatRec_eq_countP, h.countP, h.items]

theorem bit_eq_zero_iff
    (h : Packs bitmap items slot)
    {i : Nat}
    (hi : i < w) :
    bitmap &&& (1#w <<< i) = 0#w ↔ slot i = none := by
  have hbit : ∀ j, (bitmap &&& (1#w <<< i)).getLsbD j =
      ((slot j).isSome && decide (j = i)) := by
    intro j
    rw [BitVec.getLsbD_and, h.inUse, getLsbD_bit hi]
  constructor
  · intro hzero
    have := hbit i
    rw [hzero] at this
    simpa using this.symm
  · intro hnone
    apply BitVec.eq_of_getLsbD_eq
    intro j _
    rw [hbit, BitVec.getLsbD_zero]
    by_cases hj : j = i
    · simp [hj, hnone]
    · simp [hj]

theorem bit_ne_zero
    (h : Packs bitmap items slot)
    {i : Nat}
    (hi : i < w)
    {v : α}
    (hv : slot i = some v) :
    bitmap &&& (1#w <<< i) ≠ 0#w := by
  rw [Ne, h.bit_eq_zero_iff hi, hv]
  exact Option.some_ne_none v

theorem not_bit_ne_zero
    (h : Packs bitmap items slot)
    {i : Nat}
    (hi : i < w)
    (hnone : slot i = none) :
    ¬ bitmap &&& (1#w <<< i) ≠ 0#w :=
  not_not_intro ((h.bit_eq_zero_iff hi).mpr hnone)

theorem slot_eq_none
    (h : Packs bitmap items slot)
    {i : Nat}
    (hi : w ≤ i) :
    slot i = none := by
  have := h.inUse i
  rw [BitVec.getLsbD_of_ge _ _ hi] at this
  exact Option.isNone_iff_eq_none.mp (by simpa using this.symm)

theorem zero_iff
    (h : Packs bitmap items slot) :
    bitmap = 0#w ↔ ∀ i, slot i = none := by
  constructor
  · rintro rfl i
    have := h.inUse i
    rw [BitVec.getLsbD_zero] at this
    exact Option.isNone_iff_eq_none.mp (by simpa using this.symm)
  · intro hnone
    apply BitVec.eq_of_getLsbD_eq
    intro i _
    rw [h.inUse, hnone, BitVec.getLsbD_zero, Option.isSome_none]

theorem of_eq
    {slot' : Nat → Option α}
    (h : Packs bitmap items slot)
    (heq : ∀ i, slot i = slot' i) :
    Packs bitmap items slot' :=
  (funext heq) ▸ h

/-- The slots determine both parts. -/
theorem unique
    {bitmap' : BitVec w}
    {items' : List α}
    (h : Packs bitmap items slot)
    (h' : Packs bitmap' items' slot) :
    bitmap = bitmap' ∧ items = items' := by
  refine ⟨?_, h.items.trans h'.items.symm⟩
  apply BitVec.eq_of_getLsbD_eq
  intro i _
  rw [h.inUse, h'.inUse]

/-- The items below a slot, its own, and those above it. -/
theorem items_split
    (h : Packs bitmap items slot)
    {i : Nat}
    (hi : i < w) :
    items = (List.range i).filterMap slot ++ ((slot i).toList ++
      (List.range' (i + 1) (w - i - 1)).filterMap slot) := by
  rw [h.items, range_split hi, List.filterMap_append]
  cases hslot : slot i with
  | none => rw [List.filterMap_cons_none hslot, Option.toList_none, List.nil_append]
  | some v =>
      rw [List.filterMap_cons_some hslot, Option.toList_some, List.singleton_append]

theorem getElem?
    (h : Packs bitmap items slot)
    {i : Nat}
    (hi : i < w)
    {v : α}
    (hv : slot i = some v) :
    items[popcount (bitmap &&& (1#w <<< i - 1#w))]? = some v := by
  rw [h.offset hi, h.items_split hi, hv, List.getElem?_append_right (Nat.le_refl _),
    Nat.sub_self]
  rfl

theorem mem_items
    (h : Packs bitmap items slot)
    {v : α} :
    v ∈ items ↔ ∃ i, slot i = some v := by
  rw [h.items, List.mem_filterMap]
  constructor
  · rintro ⟨i, _, hv⟩
    exact ⟨i, hv⟩
  · rintro ⟨i, hv⟩
    refine ⟨i, ?_, hv⟩
    by_contra hi
    rw [h.slot_eq_none (by simpa using hi)] at hv
    cases hv

theorem items_ne_nil
    (h : Packs bitmap items slot)
    (hne : bitmap ≠ 0#w) :
    items ≠ [] := by
  rintro rfl
  apply hne
  apply h.zero_iff.mpr
  intro i
  by_contra hi
  obtain ⟨v, hv⟩ := Option.ne_none_iff_exists'.mp hi
  exact List.not_mem_nil (h.mem_items.mpr ⟨i, hv⟩)

/-- Two arrays that use the same slots, item by item. -/
theorem zip
    {β : Type u}
    {items' : List β}
    {slot' : Nat → Option β}
    (h : Packs bitmap items slot)
    (h' : Packs bitmap items' slot') :
    Packs bitmap (items.zip items')
      (fun i => (slot i).bind fun v => (slot' i).map fun v' => (v, v')) := by
  have hsome : ∀ i, (slot i).isSome = (slot' i).isSome := by
    intro i
    rw [← h.inUse, ← h'.inUse]
  refine ⟨?_, ?_⟩
  · intro i
    have hi := hsome i
    rw [h.inUse]
    cases hv : slot i with
    | none => rfl
    | some v =>
        rw [hv] at hi
        obtain ⟨v', hv'⟩ := Option.isSome_iff_exists.mp hi.symm
        rw [hv']
        rfl
  · rw [h.items, h'.items]
    induction List.range w with
    | nil =>
        rfl
    | cons i js ih =>
        have hi := hsome i
        cases hv : slot i with
        | none =>
            rw [hv] at hi
            have hv' := Option.isNone_iff_eq_none.mp (by simpa using hi.symm)
            rw [List.filterMap_cons_none hv, List.filterMap_cons_none hv',
              List.filterMap_cons_none (by rw [hv]; rfl), ih]
        | some v =>
            rw [hv] at hi
            obtain ⟨v', hv'⟩ := Option.isSome_iff_exists.mp hi.symm
            rw [List.filterMap_cons_some hv, List.filterMap_cons_some hv',
              List.filterMap_cons_some (by rw [hv, hv']; rfl), List.zip_cons_cons, ih]

/-! ## Updates -/

theorem empty :
    Packs 0#w ([] : List α) (fun _ => none) where
  inUse := fun i => by simp
  items := by simp

/-- The parts of an array in which one slot has been changed. -/
theorem update
    (h : Packs bitmap items slot)
    {i : Nat}
    (hi : i < w)
    (o : Option α)
    {bitmap' : BitVec w}
    (hbitmap : ∀ j, bitmap'.getLsbD j = if j = i then o.isSome else bitmap.getLsbD j) :
    Packs bitmap'
      ((List.range i).filterMap slot ++ (o.toList ++
        (List.range' (i + 1) (w - i - 1)).filterMap slot))
      (Function.update slot i o) := by
  refine ⟨?_, ?_⟩
  · intro j
    rw [hbitmap, Function.update_apply, apply_ite Option.isSome, h.inUse]
  · have hbelow : (List.range i).filterMap (Function.update slot i o) =
        (List.range i).filterMap slot := by
      apply List.filterMap_congr
      intro j hj
      have := List.mem_range.mp hj
      exact Function.update_of_ne (by omega) _ _
    have habove : (List.range' (i + 1) (w - i - 1)).filterMap
        (Function.update slot i o) =
          (List.range' (i + 1) (w - i - 1)).filterMap slot := by
      apply List.filterMap_congr
      intro j hj
      have := List.mem_range'_1.mp hj
      exact Function.update_of_ne (by omega) _ _
    have hown : Function.update slot i o i = o := Function.update_self _ _ _
    rw [range_split hi, List.filterMap_append, hbelow]
    cases ho : o with
    | none =>
        rw [ho] at hown habove
        rw [List.filterMap_cons_none hown, habove, Option.toList_none, List.nil_append]
    | some v =>
        rw [ho] at hown habove
        rw [List.filterMap_cons_some hown, habove, Option.toList_some,
          List.singleton_append]

theorem insert
    (h : Packs bitmap items slot)
    {i : Nat}
    (hi : i < w)
    (hnone : slot i = none)
    (v : α) :
    Packs (bitmap ||| (1#w <<< i))
      (items.take (popcount (bitmap &&& (1#w <<< i - 1#w))) ++
        v :: items.drop (popcount (bitmap &&& (1#w <<< i - 1#w))))
      (Function.update slot i (some v)) := by
  have hsplit := h.items_split hi
  rw [hnone, Option.toList_none, List.nil_append] at hsplit
  have hbits : ∀ j, (bitmap ||| (1#w <<< i)).getLsbD j =
      if j = i then (some v).isSome else bitmap.getLsbD j := by
    intro j
    rw [BitVec.getLsbD_or, getLsbD_bit hi]
    by_cases hj : j = i <;> simp [hj]
  have hupdate := h.update hi (some v) hbits
  rw [h.offset hi]
  generalize (List.range i).filterMap slot = below at hsplit hupdate ⊢
  rw [hsplit, List.take_left, List.drop_left]
  exact hupdate

theorem replace
    (h : Packs bitmap items slot)
    {i : Nat}
    (hi : i < w)
    {u : α}
    (hu : slot i = some u)
    (v : α) :
    Packs bitmap (items.set (popcount (bitmap &&& (1#w <<< i - 1#w))) v)
      (Function.update slot i (some v)) := by
  have hsplit := h.items_split hi
  rw [hu, Option.toList_some, List.singleton_append] at hsplit
  have hbits : ∀ j, bitmap.getLsbD j =
      if j = i then (some v).isSome else bitmap.getLsbD j := by
    intro j
    by_cases hj : j = i
    · simp [hj, h.inUse, hu]
    · simp [hj]
  have hupdate := h.update hi (some v) hbits
  rw [h.offset hi]
  generalize (List.range i).filterMap slot = below at hsplit hupdate ⊢
  rw [hsplit, List.set_append_right _ _ (Nat.le_refl _), Nat.sub_self]
  exact hupdate

theorem remove
    (h : Packs bitmap items slot)
    {i : Nat}
    (hi : i < w)
    {u : α}
    (hu : slot i = some u) :
    Packs (bitmap &&& ~~~(1#w <<< i))
      (items.take (popcount (bitmap &&& (1#w <<< i - 1#w))) ++
        items.drop (popcount (bitmap &&& (1#w <<< i - 1#w)) + 1))
      (Function.update slot i none) := by
  have hsplit := h.items_split hi
  rw [hu, Option.toList_some, List.singleton_append] at hsplit
  have hbits : ∀ j, (bitmap &&& ~~~(1#w <<< i)).getLsbD j =
      if j = i then (none : Option α).isSome else bitmap.getLsbD j := by
    intro j
    rw [BitVec.getLsbD_and, BitVec.getLsbD_not, getLsbD_bit hi]
    by_cases hj : j = i
    · simp [hj]
    · by_cases hjw : j < w
      · simp [hj, hjw]
      · simp [hj, hjw, BitVec.getLsbD_of_ge bitmap j (by omega)]
  have hupdate := h.update hi none hbits
  rw [h.offset hi]
  generalize (List.range i).filterMap slot = below at hsplit hupdate ⊢
  rw [hsplit, List.take_left, List.drop_append, List.drop_of_length_le (by omega),
    Nat.add_sub_cancel_left, List.nil_append]
  exact hupdate

theorem popcount_insert
    (h : Packs bitmap items slot)
    {i : Nat}
    (hi : i < w)
    (hnone : slot i = none)
    (v : α) :
    popcount (bitmap ||| (1#w <<< i)) = popcount bitmap + 1 := by
  have hlength := (h.insert hi hnone v).length
  rw [hlength, h.length, List.length_append, List.length_cons, List.length_take,
    List.length_drop]
  omega

theorem singleton
    {i : Nat}
    (hi : i < w)
    (v : α) :
    Packs (1#w <<< i) [v] (Function.update (fun _ => none) i (some v)) := by
  have h := (empty (w := w) (α := α)).insert hi rfl v
  simpa using h

/-- Two items, the one of the lower slot first. -/
theorem pair
    {i j : Nat}
    (hi : i < w)
    (hj : j < w)
    (hne : i ≠ j)
    (u v : α) :
    Packs (1#w <<< i ||| 1#w <<< j) (if i < j then [u, v] else [v, u])
      (Function.update (Function.update (fun _ => none) i (some u)) j (some v)) := by
  have hsingle := singleton hi u
  have hnone : Function.update (fun _ => none) i (some u) j = none :=
    Function.update_of_ne (fun h => hne h.symm) _ _
  have h := hsingle.insert hj hnone v
  have hoffset : popcount (1#w <<< i &&& (1#w <<< j - 1#w)) =
      if i < j then 1 else 0 := by
    rw [popcount_below hj]
    have hbits : ∀ k, (1#w <<< i).getLsbD k = (k == i) := by
      intro k
      rw [getLsbD_bit hi]
      rfl
    have hcount : (List.range j).countP (1#w <<< i).getLsbD = (List.range j).count i := by
      rw [List.count]
      exact List.countP_congr fun k _ => by rw [hbits]
    rw [hcount, List.count_range]
  rw [hoffset] at h
  by_cases hij : i < j
  · rw [if_pos hij] at h ⊢
    exact h
  · rw [if_neg hij] at h ⊢
    exact h

end Packs

end PackedArray
end Lib
end AgencyNode
