import AgencyNode.VPackLayout

/-!
# Reading closed compounds

What the accessors of a slice read in a closed compound, whichever layout it has
and whatever follows it.
-/

namespace AgencyNode
namespace VPack

open Lib Lib.ByteIntegers Lib.Frames

/-! ### Padding -/

/-- A place that is out of question or holds padding is passed over. -/
theorem unlessPadding_pass
    {m : Memory}
    {fsm : Nat}
    {offset : ValueLength}
    {otherwise : Read ValueLength}
    (h : fsm ≤ offset.toNat → byteAt m offset = .ok 0) :
    Slice.unlessPadding m fsm offset otherwise = otherwise := by
  rw [Slice.unlessPadding]
  split
  · next hfsm =>
      rw [h hfsm]
      rfl
  · rfl

theorem unlessPadding_item
    {m : Memory}
    {fsm : Nat}
    {offset : ValueLength}
    {otherwise : Read ValueLength}
    {b : UInt8}
    (h : fsm ≤ offset.toNat)
    (hbyte : byteAt m offset = .ok b)
    (hb : b ≠ 0) :
    Slice.unlessPadding m fsm offset otherwise = .ok offset := by
  rw [Slice.unlessPadding, if_pos h, hbyte, Read.ok_bind, if_pos hb]
  rfl

/-- From the first place for an item on, all is padding up to the first item. -/
theorem findDataOffset_eq
    {m : Memory}
    {h b : UInt8}
    {start : ValueLength}
    (hstart : start = 2 ∨ start = 3 ∨ start = 5 ∨ start = 9)
    (hpos : 0 < firstSubMap h)
    (hle : firstSubMap h ≤ start.toNat)
    (hpadding : ∀ offset : ValueLength, firstSubMap h ≤ offset.toNat → offset < start →
      byteAt m offset = .ok 0)
    (hbyte : byteAt m start = .ok b)
    (hb : b ≠ 0) :
    Slice.findDataOffset m h = .ok start := by
  have hpass : ∀ {offset : ValueLength} {otherwise : Read ValueLength}, offset < start →
      Slice.unlessPadding m (firstSubMap h) offset otherwise = otherwise :=
    fun hlt => unlessPadding_pass fun hfsm => hpadding _ hfsm hlt
  rw [Slice.findDataOffset, if_neg (Nat.ne_of_gt hpos)]
  rcases hstart with rfl | rfl | rfl | rfl
  · exact unlessPadding_item hle hbyte hb
  · rw [hpass (by decide)]
    exact unlessPadding_item hle hbyte hb
  · rw [hpass (by decide), hpass (by decide)]
    exact unlessPadding_item hle hbyte hb
  · rw [hpass (by decide), hpass (by decide), hpass (by decide)]

theorem byteAt_padding
    {m before behind : Memory}
    {z : Nat}
    (hm : m = before ++ (List.replicate z 0 ++ behind))
    {offset : ValueLength}
    (hlow : before.length ≤ offset.toNat)
    (hhigh : offset.toNat < before.length + z) :
    byteAt m offset = .ok 0 := by
  have hget : m[offset.toNat]? = some 0 := by
    rw [hm, List.getElem?_append_right hlow,
      List.getElem?_append_left (by rw [List.length_replicate]; omega),
      List.getElem?_replicate_of_lt (by omega)]
  rw [byteAt, hget]

/-- The items start with a head that is no padding. -/
theorem exists_head
    {items : List Memory}
    (hne : items ≠ [])
    (hitems : ∀ x ∈ items, IsItem x) :
    ∃ b t, items.flatten = b :: t ∧ b ≠ 0 := by
  cases items with
  | nil => exact absurd rfl hne
  | cons x items =>
      obtain ⟨b, t, rfl, hb⟩ := hitems x List.mem_cons_self
      exact ⟨b, t ++ items.flatten, rfl, hb⟩

/-! ### With an index table -/

section Indexed

variable {s : Memory} {head : UInt8} {w z : Nat} {items : List Memory} {table : List Nat}
  (t : Memory)

/-- What lies in front of the items. -/
def front (head : UInt8) (w z len n : Nat) : Memory :=
  (head + widthStep w) :: (littleEndian w len ++ (countFront w n ++ List.replicate z 0))

theorem length_front
    (head : UInt8)
    (w z len n : Nat) :
    (front head w z len n).length = dataStart w z := by
  rw [front, dataStart, countFront]
  split <;> simp <;> omega

/-- The memory, cut where the items start and where they end. -/
theorem Indexed.memory
    (h : Indexed s head w z items table) :
    s ++ t = front head w z s.length items.length ++ (items.flatten ++
      (table.flatMap (littleEndian w) ++ (countBack w items.length ++ t))) := by
  conv_lhs => rw [h.bytes_eq]
  rw [front]
  simp only [List.cons_append, List.append_assoc]

theorem Indexed.isWidth
    (h : Indexed s head w z items table) :
    IsWidth w := by
  obtain ⟨h, _⟩ | ⟨h, _⟩ | ⟨h, _⟩ | ⟨h, _⟩ := h.padding
  · exact .inl h
  · exact .inr (.inl h)
  · exact .inr (.inr (.inl h))
  · exact .inr (.inr (.inr h))

theorem IsWidth.toNat_ofNat
    (hw : IsWidth w) :
    (UInt64.ofNat w).toNat = w := by
  obtain rfl | rfl | rfl | rfl := hw <;> rfl

theorem IsWidth.pow_le
    (hw : IsWidth w) :
    256 ^ w ≤ 2 ^ 64 := by
  obtain rfl | rfl | rfl | rfl := hw <;> decide

theorem Indexed.length_lt_two_pow
    (h : Indexed s head w z items table) :
    s.length < 2 ^ 64 :=
  Nat.lt_of_lt_of_le h.length_lt h.isWidth.pow_le

theorem Indexed.length_eq
    (h : Indexed s head w z items table) :
    s.length = dataStart w z + items.flatten.length + table.length * w +
      (if w < 8 then 0 else 8) := by
  have hlength := congrArg List.length (h.memory [])
  rw [List.append_nil, List.append_nil, List.length_append, List.length_append,
    List.length_append, length_front, length_flatMap_of_forall (length_littleEndian w),
    countBack] at hlength
  rw [hlength]
  split <;> simp <;> omega

theorem Indexed.head_eq
    (h : Indexed s head w z items table) :
    Slice.head (s ++ t) = .ok (head + widthStep w) := by
  rw [h.memory, front, List.cons_append]
  rfl

theorem Indexed.readLength
    (h : Indexed s head w z items table) :
    readInteger (s ++ t) 1 (UInt64.ofNat w) = .ok (UInt64.ofNat s.length) := by
  have hmemory := h.memory t
  rw [front] at hmemory
  simp only [List.cons_append, List.append_assoc] at hmemory
  rw [hmemory, ← List.singleton_append]
  exact readInteger_append rfl h.isWidth.toNat_ofNat h.length_lt

theorem Indexed.count_lt
    (h : Indexed s head w z items table)
    (htable : table.length = items.length) :
    items.length < 256 ^ w := by
  have hlength := h.length_eq
  have hle : table.length * 1 ≤ table.length * w := by
    apply Nat.mul_le_mul_left
    obtain rfl | rfl | rfl | rfl := h.isWidth <;> decide
  have hlt := h.length_lt
  omega

theorem Indexed.indexedLength
    (h : Indexed s head w z items table)
    (htable : table.length = items.length) :
    Slice.indexedLength (s ++ t) (UInt64.ofNat w) (UInt64.ofNat s.length) =
      .ok (UInt64.ofNat items.length) := by
  have hcount := h.count_lt htable
  have hwidth := h.isWidth.toNat_ofNat
  by_cases hlt : w < 8
  · have hsmall : UInt64.ofNat w < 8 := by
      rw [UInt64.lt_iff_toNat_lt, hwidth]
      exact hlt
    have hmemory : s ++ t = ((head + widthStep w) :: littleEndian w s.length) ++
        (littleEndian w items.length ++ (List.replicate z 0 ++ (items.flatten ++
          (table.flatMap (littleEndian w) ++ (countBack w items.length ++ t))))) := by
      rw [h.memory, front, countFront, if_pos hlt]
      simp only [List.cons_append, List.append_assoc]
    rw [Slice.indexedLength, if_pos hsmall, hmemory]
    apply readInteger_append _ hwidth hcount
    rw [UInt64.toNat_add, hwidth, List.length_cons, length_littleEndian]
    simp
    omega
  · have heq : w = 8 := by
      obtain hw | hw | hw | hw := h.isWidth <;> omega
    subst heq
    have hlength := h.length_eq
    rw [if_neg hlt] at hlength
    have hmemory : s ++ t = (front head 8 z s.length items.length ++ (items.flatten ++
          table.flatMap (littleEndian 8))) ++ (littleEndian 8 items.length ++ t) := by
      rw [h.memory, countBack, if_neg hlt]
      simp only [List.append_assoc]
    rw [Slice.indexedLength, if_neg (by decide), hmemory]
    apply readInteger_append _ rfl hcount
    rw [← UInt64.ofNat_sub (by omega), toNat_ofNat_of_lt (by have := h.length_lt_two_pow; omega),
      List.length_append, List.length_append, length_front,
      length_flatMap_of_forall (length_littleEndian 8)]
    omega

theorem Indexed.findDataOffset
    (h : Indexed s head w z items table)
    (hhead : head = 0x06 ∨ head = 0x0b)
    (hne : items ≠ [])
    (hitems : ∀ x ∈ items, IsItem x) :
    Slice.findDataOffset (s ++ t) (head + widthStep w) =
      .ok (UInt64.ofNat (dataStart w z)) := by
  obtain ⟨b, rest, hflatten, hb⟩ := exists_head hne hitems
  have hfsm : firstSubMap (head + widthStep w) = dataStart w 0 := by
    rcases hhead with rfl | rfl <;> obtain rfl | rfl | rfl | rfl := h.isWidth <;> rfl
  have hstart : (UInt64.ofNat (dataStart w z)).toNat = dataStart w z := by
    obtain ⟨rfl, rfl⟩ | ⟨rfl, rfl | rfl⟩ | ⟨rfl, rfl⟩ | ⟨rfl, rfl⟩ := h.padding <;> rfl
  have hfront : dataStart w z = dataStart w 0 + z := rfl
  have hmemory : s ++ t = front head w 0 s.length items.length ++ (List.replicate z 0 ++
      (items.flatten ++ (table.flatMap (littleEndian w) ++ (countBack w items.length ++ t)))) := by
    rw [h.memory, front, front, List.replicate_zero, List.append_nil]
    simp only [List.cons_append, List.append_assoc]
  refine findDataOffset_eq ?_ ?_ ?_ (fun offset hlow hhigh => ?_) (b := b) ?_ hb
  · obtain ⟨rfl, rfl⟩ | ⟨rfl, rfl | rfl⟩ | ⟨rfl, rfl⟩ | ⟨rfl, rfl⟩ := h.padding
    · exact .inr (.inl rfl)
    · exact .inr (.inr (.inl rfl))
    · exact .inr (.inr (.inr rfl))
    · exact .inr (.inr (.inr rfl))
    · exact .inr (.inr (.inr rfl))
  · rw [hfsm, dataStart]
    omega
  · rw [hfsm, hstart, hfront]
    exact Nat.le_add_right _ _
  · rw [UInt64.lt_iff_toNat_lt, hstart, hfront] at hhigh
    apply byteAt_padding hmemory
    · rwa [length_front, ← hfsm]
    · rwa [length_front]
  · rw [h.memory, hflatten, List.cons_append]
    exact byteAt_append (hstart.trans (length_front _ _ _ _ _).symm)

/-- The items from one on, and what follows the last of them. -/
theorem Indexed.advance
    (h : Indexed s head w z items table)
    (i : Nat) :
    Slice.advance (s ++ t) (UInt64.ofNat (dataStart w z + (items.take i).flatten.length)) =
      (items.drop i).flatten ++
        (table.flatMap (littleEndian w) ++ (countBack w items.length ++ t)) := by
  have hle := length_flatten_take_le items i
  have hlength := h.length_eq
  have hlt := h.length_lt_two_pow
  rw [Slice.advance, toNat_ofNat_of_lt (by omega), h.memory, ← length_front head w z s.length
    items.length, List.drop_append, List.drop_of_length_le (Nat.le_add_right _ _),
    Nat.add_sub_cancel_left, List.nil_append, List.drop_append_of_le_length hle, drop_flatten]

/-- An entry of the index table. -/
theorem Indexed.readEntry
    (h : Indexed s head w z items table)
    {i : Nat}
    (hi : i < table.length)
    (hentry : table[i] < 256 ^ w)
    {offset : ValueLength}
    (hoffset : offset.toNat = s.length - table.length * w - (if w < 8 then 0 else 8) + i * w) :
    readInteger (s ++ t) offset (UInt64.ofNat w) = .ok (UInt64.ofNat table[i]) := by
  have hlength := h.length_eq
  have hsplit : table.flatMap (littleEndian w) = (table.take i).flatMap (littleEndian w) ++
      (littleEndian w table[i] ++ (table.drop (i + 1)).flatMap (littleEndian w)) := by
    conv_lhs => rw [← List.take_append_drop i table, List.flatMap_append,
      List.drop_eq_getElem_cons hi, List.flatMap_cons]
  have hmemory : s ++ t = (front head w z s.length items.length ++ (items.flatten ++
      (table.take i).flatMap (littleEndian w))) ++ (littleEndian w table[i] ++
        ((table.drop (i + 1)).flatMap (littleEndian w) ++ (countBack w items.length ++ t))) := by
    rw [h.memory, hsplit]
    simp only [List.append_assoc]
  rw [hmemory]
  apply readInteger_append _ h.isWidth.toNat_ofNat hentry
  rw [hoffset, List.length_append, List.length_append, length_front,
    length_flatMap_of_forall (length_littleEndian w), List.length_take,
    Nat.min_eq_left (Nat.le_of_lt hi)]
  omega

end Indexed

/-! ### Without an index table -/

section Unindexed

variable {s : Memory} {w z : Nat} {items : List Memory} (t : Memory)

theorem Unindexed.isWidth
    (h : Unindexed s w z items) :
    IsWidth w := by
  obtain ⟨h, _⟩ | ⟨h, _⟩ | ⟨h, _⟩ | ⟨h, _⟩ := h.padding
  · exact .inl h
  · exact .inr (.inl h)
  · exact .inr (.inr (.inl h))
  · exact .inr (.inr (.inr h))

theorem Unindexed.memory
    (h : Unindexed s w z items) :
    s ++ t = ((0x02 + widthStep w) :: (littleEndian w s.length ++ List.replicate z 0)) ++
      (items.flatten ++ t) := by
  conv_lhs => rw [h.bytes_eq]
  simp only [List.cons_append, List.append_assoc]

theorem Unindexed.length_eq
    (h : Unindexed s w z items) :
    s.length = 1 + w + z + items.flatten.length := by
  have hlength := congrArg List.length (h.memory [])
  rw [List.append_nil, List.append_nil, List.length_append, List.length_cons, List.length_append,
    length_littleEndian, List.length_replicate] at hlength
  omega

theorem Unindexed.length_lt_two_pow
    (h : Unindexed s w z items) :
    s.length < 2 ^ 64 :=
  Nat.lt_of_lt_of_le h.length_lt h.isWidth.pow_le

theorem Unindexed.head_eq
    (h : Unindexed s w z items) :
    Slice.head (s ++ t) = .ok (0x02 + widthStep w) := by
  rw [h.memory, List.cons_append]
  rfl

theorem Unindexed.readLength
    (h : Unindexed s w z items) :
    readInteger (s ++ t) 1 (UInt64.ofNat w) = .ok (UInt64.ofNat s.length) := by
  have hmemory := h.memory t
  simp only [List.cons_append, List.append_assoc] at hmemory
  rw [hmemory, ← List.singleton_append]
  exact readInteger_append rfl h.isWidth.toNat_ofNat h.length_lt

theorem Unindexed.findDataOffset
    (h : Unindexed s w z items)
    (hne : items ≠ [])
    (hitems : ∀ x ∈ items, IsItem x) :
    Slice.findDataOffset (s ++ t) (0x02 + widthStep w) = .ok (UInt64.ofNat (1 + w + z)) := by
  obtain ⟨b, rest, hflatten, hb⟩ := exists_head hne hitems
  have hfsm : firstSubMap (0x02 + widthStep w) = 1 + w := by
    obtain rfl | rfl | rfl | rfl := h.isWidth <;> rfl
  have hstart : (UInt64.ofNat (1 + w + z)).toNat = 1 + w + z := by
    obtain ⟨rfl, rfl⟩ | ⟨rfl, rfl | rfl⟩ | ⟨rfl, rfl⟩ | ⟨rfl, rfl⟩ := h.padding <;> rfl
  have hfront : ((0x02 + widthStep w) :: littleEndian w s.length).length = 1 + w := by
    rw [List.length_cons, length_littleEndian, Nat.add_comm]
  have hmemory : s ++ t = ((0x02 + widthStep w) :: littleEndian w s.length) ++
      (List.replicate z 0 ++ (items.flatten ++ t)) := by
    rw [h.memory]
    simp only [List.cons_append, List.append_assoc]
  refine findDataOffset_eq ?_ ?_ ?_ (fun offset hlow hhigh => ?_) (b := b) ?_ hb
  · obtain ⟨rfl, rfl⟩ | ⟨rfl, rfl | rfl⟩ | ⟨rfl, rfl⟩ | ⟨rfl, rfl⟩ := h.padding
    · exact .inl rfl
    · exact .inr (.inl rfl)
    · exact .inr (.inr (.inr rfl))
    · exact .inr (.inr (.inr rfl))
    · exact .inr (.inr (.inr rfl))
  · rw [hfsm]
    omega
  · rw [hfsm, hstart]
    exact Nat.le_add_right _ _
  · rw [UInt64.lt_iff_toNat_lt, hstart] at hhigh
    apply byteAt_padding hmemory
    · rwa [hfront, ← hfsm]
    · rwa [hfront]
  · rw [h.memory, hflatten]
    apply byteAt_append
    rw [hstart, List.length_cons, List.length_append, length_littleEndian, List.length_replicate]
    omega

theorem Unindexed.advance
    (h : Unindexed s w z items) :
    Slice.advance (s ++ t) (UInt64.ofNat (1 + w + z)) = items.flatten ++ t := by
  have hlength := h.length_eq
  have hlt := h.length_lt_two_pow
  rw [h.memory]
  apply advance_append
  rw [toNat_ofNat_of_lt (by omega), List.length_cons, List.length_append, length_littleEndian,
    List.length_replicate]
  omega

end Unindexed

/-! ### Compact -/

section Compact

variable {s : Memory} {head : UInt8} {items : List Memory} (t : Memory)

theorem Compact.memory
    (h : Compact s head items) :
    s ++ t = (head :: leb s.length) ++
      (items.flatten ++ ((leb items.length).reverse ++ t)) := by
  conv_lhs => rw [h.bytes_eq]
  simp only [List.cons_append, List.append_assoc]

theorem Compact.length_eq
    (h : Compact s head items) :
    s.length = 1 + (leb s.length).length + items.flatten.length + (leb items.length).length := by
  have hlength := congrArg List.length (h.memory [])
  rw [List.append_nil, List.append_nil, List.length_append, List.length_cons, List.length_append,
    List.length_reverse] at hlength
  omega

theorem Compact.head_eq
    (h : Compact s head items) :
    Slice.head (s ++ t) = .ok head := by
  rw [h.memory, List.cons_append]
  rfl

theorem Compact.readLength
    (h : Compact s head items) :
    readVariableValueLength (s ++ t) 1 = .ok (UInt64.ofNat s.length) := by
  have hmemory := h.memory t
  simp only [List.cons_append] at hmemory
  rw [hmemory, ← List.singleton_append]
  exact readVariableValueLength_append s.length rfl

theorem Compact.compactLength
    (h : Compact s head items)
    (hlt : s.length < 2 ^ 64) :
    Slice.compactLength (s ++ t) = .ok (UInt64.ofNat items.length) := by
  have hlength := h.length_eq
  rw [Slice.compactLength, h.readLength, Read.ok_bind]
  have hmemory : s ++ t = (head :: (leb s.length ++ items.flatten)) ++
      ((leb items.length).reverse ++ t) := by
    rw [h.memory]
    simp only [List.cons_append, List.append_assoc]
  rw [hmemory]
  apply readVariableValueLengthReverse_append
  have hone : (1 : UInt64) = UInt64.ofNat 1 := rfl
  rw [hone, ← UInt64.ofNat_sub (by omega), toNat_ofNat_of_lt (by omega), List.length_cons,
    List.length_append]
  omega

theorem Compact.getStartOffset
    (h : Compact s head items)
    (hlt : s.length < 2 ^ 64) :
    Slice.getStartOffsetFromCompact (s ++ t) =
      .ok (UInt64.ofNat (1 + (leb s.length).length)) := by
  rw [Slice.getStartOffsetFromCompact, h.readLength, Read.ok_bind, getVariableValueLength,
    toNat_ofNat_of_lt hlt, UInt64.ofNat_add]
  rfl

theorem Compact.advance
    (h : Compact s head items)
    (hlt : s.length < 2 ^ 64) :
    Slice.advance (s ++ t) (UInt64.ofNat (1 + (leb s.length).length)) =
      items.flatten ++ ((leb items.length).reverse ++ t) := by
  have hlength := h.length_eq
  have hle : 1 + (leb s.length).length < 2 ^ 64 := by omega
  rw [h.memory]
  apply advance_append
  rw [toNat_ofNat_of_lt hle, List.length_cons, Nat.add_comm]

end Compact

end VPack
end AgencyNode
