import AgencyNode.VPackIterators
import Mathlib.Data.List.Perm.Basic

/-!
# The members of closed objects

An object with an index table lists its members by name, whatever order they have
been written in.  The offset of each leads to its key, with the value behind it.
-/

namespace AgencyNode
namespace VPack

open Lib Lib.ByteIntegers Lib.Frames

/-- The bytes of a member: its name and the bytes of its value. -/
abbrev Entry := Memory × Memory

def Entry.bytes (e : Entry) : Memory :=
  stringData e.1 ++ e.2

/-- The key and the value of a member take the bytes they say. -/
structure Entry.Fine (e : Entry) : Prop where
  key_lt : (stringData e.1).length < 2 ^ 64
  value : Sized e.2

/-- A key and a value that the iterator yields, as slices of the memory. -/
def Shows (p : Memory × Memory) (e : Entry) : Prop :=
  ∃ rest, p = (stringData e.1 ++ (e.2 ++ rest), e.2 ++ rest)

theorem sized_stringData
    {name : Memory}
    (h : (stringData name).length < 2 ^ 64) :
    Sized (stringData name) := by
  refine ⟨?_, h, fun t => byteSize_stringData t h⟩
  obtain ⟨b, hhead, _, hb⟩ := head_stringData name []
  exact .of_head hhead hb

theorem Entry.isItem
    (e : Entry) :
    IsItem e.bytes := by
  obtain ⟨b, hhead, _, hb⟩ := head_stringData e.1 (e.2 ++ [])
  apply IsItem.of_head _ hb
  rw [Entry.bytes, List.append_assoc]
  exact hhead

theorem findAttrName_stringData
    {name : Memory}
    (h : (stringData name).length < 2 ^ 64)
    (t : Memory) :
    findAttrName (stringData name ++ t) = name := by
  obtain ⟨b, hb, hle, hdata⟩ | ⟨hlt, hdata⟩ := stringData_cases name
  · have hshort : 0x40 ≤ b ∧ b ≤ 0xbe := by
      simp only [UInt8.le_iff_toNat_le, hb, UInt8.reduceToNat]
      omega
    have hlength : b.toNat - 0x40 = name.length := by omega
    rw [hdata, List.cons_append, findAttrName]
    simp only [if_pos hshort, hlength, List.take_left]
  · have hlength := length_stringData_le name
    have hlow : ofLittleEndian (littleEndian 8 name.length) = name.length :=
      ofLittleEndian_littleEndian (by omega)
    have htake : (littleEndian 8 name.length ++ (name ++ t)).take 8 =
        littleEndian 8 name.length :=
      List.take_left' (length_littleEndian 8 _)
    have hdrop : (littleEndian 8 name.length ++ (name ++ t)).drop 8 = name ++ t :=
      List.drop_left' (length_littleEndian 8 _)
    rw [hdata, List.cons_append, List.append_assoc, findAttrName]
    simp only [htake, hdrop, hlow, List.take_left]
    rfl

/-! ### The index table -/

/-- The members with their offsets, in storage order. -/
def placed (d : Nat) (es : List Entry) : List (Nat × Entry) :=
  (offsets d (es.map Entry.bytes)).zip es

theorem map_fst_placed
    (d : Nat)
    (es : List Entry) :
    (placed d es).map Prod.fst = offsets d (es.map Entry.bytes) := by
  rw [placed, List.map_fst_zip]
  rw [length_offsets, List.length_map]

theorem map_snd_placed
    (d : Nat)
    (es : List Entry) :
    (placed d es).map Prod.snd = es := by
  rw [placed, List.map_snd_zip]
  rw [length_offsets, List.length_map]

/-- At the offset of a member are its bytes. -/
theorem exists_of_mem_placed
    {d : Nat}
    {es : List Entry}
    {o : Nat}
    {e : Entry}
    (h : (o, e) ∈ placed d es) :
    ∃ i, o = d + ((es.map Entry.bytes).take i).flatten.length ∧ e ∈ es ∧
      ((es.map Entry.bytes).drop i).flatten =
        e.bytes ++ ((es.map Entry.bytes).drop (i + 1)).flatten ∧ i < es.length := by
  obtain ⟨i, hi, hget⟩ := List.getElem_of_mem h
  have hlength : i < es.length := by
    rw [placed, List.length_zip, length_offsets, List.length_map, Nat.min_self] at hi
    exact hi
  have hmap : i < (es.map Entry.bytes).length := by rwa [List.length_map]
  simp only [placed, List.getElem_zip, Prod.mk.injEq] at hget
  obtain ⟨hoffset, hentry⟩ := hget
  have hsome : (offsets d (es.map Entry.bytes))[i]? =
      some (d + ((es.map Entry.bytes).take i).flatten.length) :=
    getElem?_offsets hmap
  rw [List.getElem?_eq_getElem (by rwa [length_offsets]), Option.some.injEq] at hsome
  refine ⟨i, hoffset.symm.trans hsome, hentry ▸ List.getElem_mem hlength, ?_, hlength⟩
  rw [List.drop_eq_getElem_cons hmap, List.flatten_cons, List.getElem_map, hentry]

/-- A rearrangement of what a function yields comes from one of its arguments. -/
theorem exists_perm_of_perm_map
    {α β : Type}
    {f : α → β}
    {l : List β}
    {r : List α}
    (h : l.Perm (r.map f)) :
    ∃ r' : List α, r'.Perm r ∧ l = r'.map f := by
  generalize hm : r.map f = m at h
  induction h generalizing r with
  | nil =>
      rw [List.map_eq_nil_iff] at hm
      exact ⟨[], hm ▸ List.Perm.refl _, rfl⟩
  | cons b _ ih =>
      obtain ⟨a, r', rfl, rfl, hr⟩ := List.map_eq_cons_iff.mp hm
      obtain ⟨r'', hperm, rfl⟩ := ih hr
      exact ⟨a :: r'', hperm.cons a, rfl⟩
  | swap b c l =>
      obtain ⟨a, r', rfl, rfl, hr⟩ := List.map_eq_cons_iff.mp hm
      obtain ⟨a', r'', rfl, rfl, rfl⟩ := List.map_eq_cons_iff.mp hr
      exact ⟨a' :: a :: r'', List.Perm.swap _ _ _, rfl⟩
  | trans _ _ ih ih' =>
      obtain ⟨r', hperm, rfl⟩ := ih' hm
      obtain ⟨r'', hperm', rfl⟩ := ih rfl
      exact ⟨r'', hperm'.trans hperm, rfl⟩

/-- The table lists the members by name. -/
theorem sortObjectIndex_placed
    [StdSort]
    (d : Nat)
    (h : UInt8)
    (hd : 1 ≤ d)
    {es : List Entry}
    (hes : ∀ e ∈ es, (stringData e.1).length < 2 ^ 64) :
    ∃ order : List (Nat × Entry), order.Perm (placed d es) ∧
      sortObjectIndex (blank h d (es.map Entry.bytes)) (offsets d (es.map Entry.bytes)) =
        order.map Prod.fst ∧
      order.Pairwise fun a b => a.2.1 ≤ b.2.1 := by
  have hnames : (offsets d (es.map Entry.bytes)).map (fun offset =>
      (findAttrName ((blank h d (es.map Entry.bytes)).drop offset), offset)) =
      (placed d es).map fun x => (x.2.1, x.1) := by
    rw [← map_fst_placed, List.map_map]
    apply List.map_congr_left
    rintro ⟨o, e⟩ hmem
    obtain ⟨i, rfl, he, hdrop, _⟩ := exists_of_mem_placed hmem
    have hblank : (blank h d (es.map Entry.bytes)).drop
        (d + ((es.map Entry.bytes).take i).flatten.length) =
        e.bytes ++ ((es.map Entry.bytes).drop (i + 1)).flatten := by
      have hfront : blank h d (es.map Entry.bytes) =
          (h :: List.replicate (d - 1) 0) ++ (es.map Entry.bytes).flatten := rfl
      have hlength : (h :: List.replicate (d - 1) (0 : UInt8)).length = d := by
        rw [List.length_cons, List.length_replicate]
        omega
      rw [hfront, List.drop_append, hlength, Nat.add_sub_cancel_left, drop_flatten, hdrop,
        List.drop_of_length_le (by omega), List.nil_append]
    simp only [Function.comp_apply, hblank, Entry.bytes, List.append_assoc,
      findAttrName_stringData (hes e he)]
  rw [sortObjectIndex, hnames]
  have hperm := StdSort.perm ((placed d es).map fun x => (x.2.1, x.1))
  have hsorted := StdSort.sorted ((placed d es).map fun x => (x.2.1, x.1))
  obtain ⟨order, horder, heq⟩ := exists_perm_of_perm_map hperm
  rw [heq] at hsorted ⊢
  refine ⟨order, horder, ?_, ?_⟩
  · rw [List.map_map]
    rfl
  · rw [List.pairwise_map] at hsorted
    exact hsorted

/-! ### The offsets of the members -/

section Offsets

variable {s : Memory} {w z : Nat} {es : List Entry} {table : List Nat} (t : Memory)

/-- What lies at the offset of a member. -/
theorem Indexed.advance_placed
    (h : Indexed s 0x0b w z (es.map Entry.bytes) table)
    {o : Nat}
    {e : Entry}
    (hmem : (o, e) ∈ placed (dataStart w z) es) :
    o < s.length ∧ ∃ rest, Slice.advance (s ++ t) (UInt64.ofNat o) =
      stringData e.1 ++ (e.2 ++ rest) := by
  obtain ⟨i, rfl, _, hdrop, hi⟩ := exists_of_mem_placed hmem
  have hlength := h.length_eq
  have hadvance := h.advance t i
  rw [hdrop, Entry.bytes, List.append_assoc, List.append_assoc] at hadvance
  refine ⟨?_, _, hadvance⟩
  · have hflat := congrArg (fun l : List Memory => l.flatten.length)
      (List.take_append_drop i (es.map Entry.bytes))
    simp only [List.flatten_append, List.length_append] at hflat
    rw [hdrop, List.length_append, Entry.bytes, List.length_append] at hflat
    have hpos : 0 < (stringData e.1).length := List.length_pos_iff.mpr (stringData_ne_nil e.1)
    omega

theorem Indexed.head_object
    (h : Indexed s 0x0b w z (es.map Entry.bytes) table) :
    typeMap (0x0b + widthStep w) = .object ∧ widthMap (0x0b + widthStep w) = w ∧
      ¬ (0x0b : UInt8) + widthStep w = 0x0a ∧ ¬ (0x0b : UInt8) + widthStep w = 0x14 ∧
      ¬ ((0x0b : UInt8) + widthStep w = 0x13 ∨ (0x0b : UInt8) + widthStep w = 0x14) ∧
      ¬ ((0x0b : UInt8) + widthStep w = 0x01 ∨ (0x0b : UInt8) + widthStep w = 0x0a) ∧
      ¬ (0x0b : UInt8) + widthStep w ≤ 0x05 := by
  obtain rfl | rfl | rfl | rfl := h.isWidth <;> decide

/-- `Slice::getNthOffset` reads the table, or takes the only member. -/
theorem Indexed.getNthOffset
    (h : Indexed s 0x0b w z (es.map Entry.bytes) table)
    (hes : ∀ e ∈ es, e.Fine)
    {order : List (Nat × Entry)}
    (horder : order.Perm (placed (dataStart w z) es))
    (htable : table = order.map Prod.fst)
    {i : Nat}
    (hi : i < order.length) :
    Slice.getNthOffset (s ++ t) (UInt64.ofNat i) = .ok (UInt64.ofNat order[i].1) := by
  have hcountTable : table.length = (es.map Entry.bytes).length := by
    rw [htable, List.length_map, horder.length_eq, placed, List.length_zip, length_offsets,
      List.length_map, Nat.min_self]
  have hcount : order.length = (es.map Entry.bytes).length := by
    rw [← hcountTable, htable, List.length_map]
  obtain ⟨_, hwidth, _, _, hcompact, hempty, hplain⟩ := h.head_object
  have hlt := h.length_lt_two_pow
  have hn := h.count_lt hcountTable
  have hn' := Nat.lt_of_lt_of_le hn h.isWidth.pow_le
  have hread := h.readLength t
  have hindexed := h.indexedLength t hcountTable
  have hlength := h.length_eq
  have hbelow : ¬ UInt64.ofNat (es.map Entry.bytes).length ≤ UInt64.ofNat i := by
    rw [UInt64.le_iff_toNat_le, toNat_ofNat_of_lt hn', toNat_ofNat_of_lt (by omega)]
    omega
  rw [Slice.getNthOffset, h.head_eq, Read.ok_bind, if_neg hcompact, if_neg hempty, if_neg hplain,
    Slice.getNthOffsetFromTable]
  simp only [hwidth, hread, hindexed, Read.ok_bind, if_neg hbelow]
  by_cases hone : (es.map Entry.bytes).length = 1
  · have hentry : order[i].1 = dataStart w z := by
      have hmem : (order[i].1, order[i].2) ∈ placed (dataStart w z) es :=
        horder.mem_iff.mp (List.getElem_mem hi)
      obtain ⟨k, ho, _, _, hk⟩ := exists_of_mem_placed hmem
      rw [List.length_map] at hone
      have hzero : k = 0 := by omega
      rw [ho, hzero]
      rfl
    have hzero : UInt64.ofNat i = 0 := by
      rw [show i = 0 by omega]
      rfl
    have hmem : (order[i].1, order[i].2) ∈ placed (dataStart w z) es :=
      horder.mem_iff.mp (List.getElem_mem hi)
    obtain ⟨_, rest, hadvance⟩ := h.advance_placed t hmem
    obtain ⟨_, _, he, _, _⟩ := exists_of_mem_placed hmem
    rw [hentry] at hadvance
    have hne : es.map Entry.bytes ≠ [] := by
      intro hnil
      rw [hnil] at hone
      cases hone
    have hitems : ∀ x ∈ es.map Entry.bytes, IsItem x := by
      intro x hx
      obtain ⟨e, _, rfl⟩ := List.mem_map.mp hx
      exact e.isItem
    have hsize := byteSize_stringData (order[i].2.2 ++ rest) (hes _ he).key_lt
    have hifone : UInt64.ofNat (es.map Entry.bytes).length = 1 := by
      rw [hone]
      rfl
    rw [if_pos hifone, h.findDataOffset t (.inr rfl) hne hitems, Read.ok_bind, hadvance, hsize,
      Read.ok_bind, hentry, hzero]
    simp
  · have hifone : ¬ UInt64.ofNat (es.map Entry.bytes).length = 1 := by
      intro heq
      have hnat := congrArg UInt64.toNat heq
      rw [toNat_ofNat_of_lt hn'] at hnat
      exact hone hnat
    have hi' : i < table.length := by omega
    have hentry : table[i] = order[i].1 := by
      simp only [htable, List.getElem_map]
    have hmem : (order[i].1, order[i].2) ∈ placed (dataStart w z) es :=
      horder.mem_iff.mp (List.getElem_mem hi)
    have hoffset := (h.advance_placed t hmem).1
    have hback : (if UInt64.ofNat w = 8 then (8 : UInt64) else 0) =
        UInt64.ofNat (if w < 8 then 0 else 8) := by
      obtain rfl | rfl | rfl | rfl := h.isWidth <;> rfl
    have hle : i * w ≤ table.length * w := Nat.mul_le_mul_right w (by omega)
    rw [if_neg hifone, hback, ← hentry, ← hcountTable]
    apply h.readEntry t hi' (by rw [hentry]; exact Nat.lt_trans hoffset h.length_lt)
    rw [← UInt64.ofNat_mul, ← UInt64.ofNat_sub (by omega), ← UInt64.ofNat_mul,
      ← UInt64.ofNat_add, ← UInt64.ofNat_sub (by omega), toNat_ofNat_of_lt (by omega)]
    omega

end Offsets

/-! ### Iterating -/

/-- One round on the key a slice starts with. -/
theorem behind_entry
    {e : Entry}
    (he : e.Fine)
    (rest : Memory) :
    Slice.behind (stringData e.1 ++ (e.2 ++ rest)) = .ok (e.2 ++ rest) :=
  behind_stringData _ he.key_lt

/-- The loop over the members by offset. -/
theorem pairsLoop_table
    {m : Memory}
    {size : ValueLength}
    {order : List (Nat × Entry)}
    (hfine : ∀ x ∈ order, x.2.Fine)
    (hadvance : ∀ x ∈ order, ∃ rest, Slice.advance m (UInt64.ofNat x.1) =
      stringData x.2.1 ++ (x.2.2 ++ rest))
    {position : Nat}
    (hoffset : ∀ i (hi : i < order.length),
      Slice.getNthOffset m (UInt64.ofNat (position + i)) = .ok (UInt64.ofNat order[i].1)) :
    ∃ l, ObjectIterator.pairsLoop order.length ⟨m, size, UInt64.ofNat position, none⟩ = .ok l ∧
      List.Forall₂ Shows l (order.map Prod.snd) := by
  induction order generalizing position with
  | nil => exact ⟨[], rfl, .nil⟩
  | cons x order ih =>
      obtain ⟨rest, hx⟩ := hadvance x List.mem_cons_self
      have hfirst := hoffset 0 (Nat.succ_pos _)
      rw [Nat.add_zero, List.getElem_cons_zero] at hfirst
      have hrest : ∀ i (hi : i < order.length),
          Slice.getNthOffset m (UInt64.ofNat (position + 1 + i)) =
            .ok (UInt64.ofNat order[i].1) := by
        intro i hi
        have hnext := hoffset (i + 1) (Nat.succ_lt_succ hi)
        rw [List.getElem_cons_succ] at hnext
        rw [show position + 1 + i = position + (i + 1) by omega]
        exact hnext
      obtain ⟨l, hl, hshows⟩ := ih (fun y hy => hfine y (List.mem_cons_of_mem x hy))
        (fun y hy => hadvance y (List.mem_cons_of_mem x hy)) hrest
      have hnext := ofNat_add_one position
      have hbehind := behind_entry (hfine x List.mem_cons_self) rest
      have hkey : Slice.makeKey (stringData x.2.1 ++ (x.2.2 ++ rest)) =
          .ok (stringData x.2.1 ++ (x.2.2 ++ rest)) := makeKey_stringData _
      refine ⟨(stringData x.2.1 ++ (x.2.2 ++ rest), x.2.2 ++ rest) :: l, ?_, ?_⟩
      · rw [List.length_cons, ObjectIterator.pairsLoop]
        simp only [ObjectIterator.pair, ObjectIterator.next, hfirst, Read.ok_bind, hx, hbehind,
          hkey, Read.pure_eq_ok, hnext, hl]
      · exact .cons ⟨rest, rfl⟩ hshows

/-- The loop over the members as they lie in memory. -/
theorem pairsLoop_sequential
    (m post : Memory)
    {size : Nat}
    (hsize : size < 2 ^ 64)
    {e : Entry}
    {es : List Entry}
    (hfine : ∀ x ∈ e :: es, x.Fine)
    {position : Nat}
    (hposition : position + (es.length + 1) = size) :
    ∃ l, ObjectIterator.pairsLoop (es.length + 1) ⟨m, UInt64.ofNat size, UInt64.ofNat position,
        some (((e :: es).map Entry.bytes).flatten ++ post)⟩ = .ok l ∧
      List.Forall₂ Shows l (e :: es) := by
  induction es generalizing e position with
  | nil =>
      have hlast : ¬ UInt64.ofNat position + 1 < UInt64.ofNat size := by
        rw [ofNat_add_one, ofNat_lt_ofNat (by omega) hsize]
        simp only [List.length_nil] at hposition
        omega
      have hbehind := behind_entry (hfine e List.mem_cons_self) post
      have hkey : Slice.makeKey (stringData e.1 ++ (e.2 ++ post)) =
          .ok (stringData e.1 ++ (e.2 ++ post)) := makeKey_stringData _
      refine ⟨[(stringData e.1 ++ (e.2 ++ post), e.2 ++ post)], ?_, .cons ⟨post, rfl⟩ .nil⟩
      simp only [ObjectIterator.pairsLoop, ObjectIterator.pair, ObjectIterator.next, List.map_cons,
        List.map_nil, List.flatten_cons, List.flatten_nil, Entry.bytes, List.append_nil,
        List.append_assoc, hbehind, hkey, if_neg hlast, Read.ok_bind, Read.pure_eq_ok]
      rfl
  | cons f es ih =>
      have hmore : UInt64.ofNat position + 1 < UInt64.ofNat size := by
        rw [ofNat_add_one, ofNat_lt_ofNat (by omega) hsize]
        simp only [List.length_cons] at hposition
        omega
      have hnext := ofNat_add_one position
      rw [hnext] at hmore
      have hposition' : position + 1 + (es.length + 1) = size := by
        simp only [List.length_cons] at hposition
        omega
      obtain ⟨l, hl, hshows⟩ := ih (fun x hx => hfine x (List.mem_cons_of_mem e hx)) hposition'
      generalize hrest : ((f :: es).map Entry.bytes).flatten ++ post = rest at hl
      have hbehind := behind_entry (hfine e List.mem_cons_self) rest
      have hvalue := (hfine e List.mem_cons_self).value.behind rest
      have hkey : Slice.makeKey (stringData e.1 ++ (e.2 ++ rest)) =
          .ok (stringData e.1 ++ (e.2 ++ rest)) := makeKey_stringData _
      have hmemory : ((e :: f :: es).map Entry.bytes).flatten ++ post =
          stringData e.1 ++ (e.2 ++ rest) := by
        rw [← hrest, List.map_cons, List.flatten_cons, Entry.bytes]
        simp only [List.append_assoc]
      refine ⟨(stringData e.1 ++ (e.2 ++ rest), e.2 ++ rest) :: l, ?_, .cons ⟨rest, rfl⟩ hshows⟩
      rw [hmemory, List.length_cons, ObjectIterator.pairsLoop]
      simp only [ObjectIterator.pair, ObjectIterator.next, hbehind, hkey, hvalue, Read.ok_bind,
        Read.pure_eq_ok, hnext, if_pos hmore, hl]

theorem pairs_of_start
    {m post : Memory}
    {es : List Entry}
    {sequential : Bool}
    (hne : es ≠ [])
    (hfine : ∀ e ∈ es, e.Fine)
    (hlt : es.length < 2 ^ 64)
    (h : ObjectIterator.ofSlice m sequential =
      .ok ⟨m, UInt64.ofNat es.length, 0, some ((es.map Entry.bytes).flatten ++ post)⟩) :
    ∃ l, ObjectIterator.pairs m sequential = .ok l ∧ List.Forall₂ Shows l es := by
  obtain ⟨e, rest, rfl⟩ := List.exists_cons_of_ne_nil hne
  have hposition : 0 + (rest.length + 1) = (e :: rest).length := Nat.zero_add _
  obtain ⟨l, hl, hshows⟩ := pairsLoop_sequential m post hlt hfine hposition
  refine ⟨l, ?_, hshows⟩
  rw [ObjectIterator.pairs, h, Read.ok_bind]
  simp only [toNat_ofNat_of_lt hlt]
  exact hl

section Objects

variable {s : Memory} {w z : Nat} {es : List Entry} {table : List Nat} (t : Memory)

theorem isItem_of_mem
    {es : List Entry} :
    ∀ x ∈ es.map Entry.bytes, IsItem x := by
  intro x hx
  obtain ⟨e, _, rfl⟩ := List.mem_map.mp hx
  exact e.isItem

theorem Indexed.objectLength
    (h : Indexed s 0x0b w z (es.map Entry.bytes) table)
    (htable : table.length = (es.map Entry.bytes).length) :
    Slice.objectLength (s ++ t) = .ok (UInt64.ofNat es.length) := by
  obtain ⟨_, hwidth, hempty, hcompact, _⟩ := h.head_object
  have hindexed := h.indexedLength t htable
  have hread := h.readLength t
  rw [List.length_map] at hindexed
  rw [Slice.objectLength, h.head_eq, Read.ok_bind, if_neg hempty, if_neg hcompact]
  simp only [hwidth, hread, Read.ok_bind]
  exact hindexed

/-- A loop over an object with an index table. -/
theorem Indexed.pairs
    (h : Indexed s 0x0b w z (es.map Entry.bytes) table)
    (hne : es ≠ [])
    (hfine : ∀ e ∈ es, e.Fine)
    {order : List (Nat × Entry)}
    (horder : order.Perm (placed (dataStart w z) es))
    (htable : table = order.map Prod.fst) :
    (∃ l, ObjectIterator.pairs (s ++ t) true = .ok l ∧ List.Forall₂ Shows l es) ∧
      ∃ l, ObjectIterator.pairs (s ++ t) false = .ok l ∧
        List.Forall₂ Shows l (order.map Prod.snd) := by
  have hcount : order.length = es.length := by
    rw [horder.length_eq, placed, List.length_zip, length_offsets, List.length_map, Nat.min_self]
  have hcountTable : table.length = (es.map Entry.bytes).length := by
    rw [htable, List.length_map, List.length_map, hcount]
  have hlt : es.length < 2 ^ 64 := by
    have hn := Nat.lt_of_lt_of_le (h.count_lt hcountTable) h.isWidth.pow_le
    rwa [List.length_map] at hn
  obtain ⟨htype, _, _, hcompact, _⟩ := h.head_object
  have hlength := h.objectLength t hcountTable
  have hnonzero : ¬ UInt64.ofNat es.length = 0 := by
    rw [ofNat_eq_zero_iff hlt]
    exact fun hzero => hne (List.length_eq_zero_iff.mp hzero)
  have hne' : es.map Entry.bytes ≠ [] := fun hnil => hne (List.map_eq_nil_iff.mp hnil)
  have hoffset := h.findDataOffset t (.inr rfl) hne' isItem_of_mem
  have hadvance := h.advance t 0
  rw [List.take_zero, List.flatten_nil, List.length_nil, Nat.add_zero, List.drop_zero] at hadvance
  refine ⟨?_, ?_⟩
  · have hstart : ObjectIterator.ofSlice (s ++ t) true =
        .ok ⟨s ++ t, UInt64.ofNat es.length, 0, some ((es.map Entry.bytes).flatten ++
          (table.flatMap (littleEndian w) ++
            (countBack w (es.map Entry.bytes).length ++ t)))⟩ := by
      rw [ObjectIterator.ofSlice, h.head_eq, Read.ok_bind, if_neg (not_not_intro htype), hlength,
        Read.ok_bind, if_neg hnonzero, if_neg hcompact, if_pos rfl, hoffset, Read.ok_bind,
        hadvance]
      rfl
    exact pairs_of_start hne hfine hlt hstart
  · have hmem : ∀ x ∈ order, (x.1, x.2) ∈ placed (dataStart w z) es :=
      fun x hx => horder.mem_iff.mp hx
    have hfine' : ∀ x ∈ order, x.2.Fine := by
      intro x hx
      obtain ⟨_, _, he, _⟩ := exists_of_mem_placed (hmem x hx)
      exact hfine _ he
    have hoffsets : ∀ i (hi : i < order.length),
        Slice.getNthOffset (s ++ t) (UInt64.ofNat (0 + i)) = .ok (UInt64.ofNat order[i].1) := by
      intro i hi
      rw [Nat.zero_add]
      exact h.getNthOffset t hfine horder htable hi
    have hloop : ∃ l, ObjectIterator.pairsLoop order.length
        ⟨s ++ t, UInt64.ofNat es.length, UInt64.ofNat 0, none⟩ = .ok l ∧
          List.Forall₂ Shows l (order.map Prod.snd) :=
      pairsLoop_table hfine' (fun x hx => (h.advance_placed t (hmem x hx)).2) hoffsets
    obtain ⟨l, hl, hshows⟩ := hloop
    refine ⟨l, ?_, hshows⟩
    have hstart : ObjectIterator.ofSlice (s ++ t) false =
        .ok ⟨s ++ t, UInt64.ofNat es.length, 0, none⟩ := by
      rw [ObjectIterator.ofSlice, h.head_eq, Read.ok_bind, if_neg (not_not_intro htype), hlength,
        Read.ok_bind, if_neg hnonzero, if_neg hcompact, if_neg (by decide)]
      rfl
    rw [ObjectIterator.pairs, hstart, Read.ok_bind]
    simp only [toNat_ofNat_of_lt hlt]
    rw [← hcount]
    rw [← hcount] at hl
    exact hl

/-- The iterator of a compact object starts at the first member. -/
theorem Compact.objectIterator
    (h : Compact s 0x14 (es.map Entry.bytes))
    (hlt : s.length < 2 ^ 64)
    (hne : es ≠ [])
    (sequential : Bool) :
    ObjectIterator.ofSlice (s ++ t) sequential =
      .ok ⟨s ++ t, UInt64.ofNat es.length, 0, some ((es.map Entry.bytes).flatten ++
        ((leb (es.map Entry.bytes).length).reverse ++ t))⟩ := by
  have hlength := h.length_eq
  have hcount : (es.map Entry.bytes).length ≤ (es.map Entry.bytes).flatten.length :=
    count_le isItem_of_mem
  rw [List.length_map] at hcount
  have hnonzero : ¬ UInt64.ofNat es.length = 0 := by
    rw [ofNat_eq_zero_iff (by omega)]
    exact fun hzero => hne (List.length_eq_zero_iff.mp hzero)
  have hobject : Slice.objectLength (s ++ t) = .ok (UInt64.ofNat es.length) := by
    have hcompact := h.compactLength t hlt
    rw [List.length_map] at hcompact
    rw [Slice.objectLength, h.head_eq, Read.ok_bind]
    exact hcompact
  rw [ObjectIterator.ofSlice, h.head_eq, Read.ok_bind, if_neg (by decide), hobject,
    Read.ok_bind, if_neg hnonzero, if_pos rfl, h.getStartOffset t hlt, Read.ok_bind,
    h.advance t hlt]
  rfl

/-- A loop over a compact object. -/
theorem Compact.pairs
    (h : Compact s 0x14 (es.map Entry.bytes))
    (hlt : s.length < 2 ^ 64)
    (hne : es ≠ [])
    (hfine : ∀ e ∈ es, e.Fine)
    (sequential : Bool) :
    ∃ l, ObjectIterator.pairs (s ++ t) sequential = .ok l ∧ List.Forall₂ Shows l es := by
  have hlength := h.length_eq
  have hcount : (es.map Entry.bytes).length ≤ (es.map Entry.bytes).flatten.length :=
    count_le isItem_of_mem
  rw [List.length_map] at hcount
  exact pairs_of_start hne hfine (by omega) (h.objectIterator t hlt hne sequential)

end Objects

/-- The table an object is closed with lists its members by name. -/
theorem exists_order
    [StdSort]
    {es : List Entry}
    (hfine : ∀ e ∈ es, e.Fine)
    (d : Nat)
    (hd : 1 ≤ d) :
    ∃ order : List (Nat × Entry), order.Perm (placed d es) ∧
      (if 2 ≤ (es.map Entry.bytes).length then
        sortObjectIndex (blank 0x0b d (es.map Entry.bytes)) (offsets d (es.map Entry.bytes))
      else offsets d (es.map Entry.bytes)) = order.map Prod.fst ∧
      order.Pairwise fun a b => a.2.1 ≤ b.2.1 := by
  by_cases htwo : 2 ≤ (es.map Entry.bytes).length
  · obtain ⟨order, hperm, htable, hsorted⟩ :=
      sortObjectIndex_placed d 0x0b hd fun e he => (hfine e he).key_lt
    exact ⟨order, hperm, by rw [if_pos htwo, htable], hsorted⟩
  · refine ⟨placed d es, List.Perm.refl _, by rw [if_neg htwo, map_fst_placed], ?_⟩
    have hlength : (placed d es).length ≤ 1 := by
      rw [placed, List.length_zip, length_offsets, List.length_map, Nat.min_self]
      rw [List.length_map] at htwo
      omega
    cases hplaced : placed d es with
    | nil => exact .nil
    | cons x rest =>
        rw [hplaced, List.length_cons] at hlength
        have hnil : rest = [] := List.length_eq_zero_iff.mp (by omega)
        rw [hnil]
        exact List.pairwise_singleton _ _

/-- **A loop over an object visits its members**, in storage order if asked to. -/
theorem pairs_closed
    [StdSort]
    {options : Options}
    (hpadding : options.paddingBehavior ≠ .usePadding)
    {es : List Entry}
    (hfine : ∀ e ∈ es, e.Fine)
    {s : Memory}
    (hs : s = closeCompound options (openHeader 0x0b ++ (es.map Entry.bytes).flatten)
      (offsets 9 (es.map Entry.bytes)))
    (hlt : s.length < 2 ^ 64) :
    Sized s ∧ ∀ t, Slice.isType (s ++ t) .object = .ok true ∧
      (∃ l, ObjectIterator.pairs (s ++ t) true = .ok l ∧ List.Forall₂ Shows l es) ∧
      ∃ l es', ObjectIterator.pairs (s ++ t) false = .ok l ∧ es'.Perm es ∧
        List.Forall₂ Shows l es' := by
  by_cases hne : es = []
  · subst hne
    have hclosed : s = [0x0a] := hs
    subst hclosed
    exact ⟨⟨⟨0x0a, [], rfl, by decide⟩, by decide, fun t => rfl⟩,
      fun t => ⟨rfl, ⟨[], rfl, .nil⟩, [], [], rfl, .refl _, .nil⟩⟩
  · have hne' : es.map Entry.bytes ≠ [] := fun hnil => hne (List.map_eq_nil_iff.mp hnil)
    obtain h | ⟨w, z, h⟩ := closeCompound_object hpadding hne' hs hlt
    · refine ⟨h.sized (.inr rfl) hlt, fun t => ⟨?_, h.pairs t hlt hne hfine true, ?_⟩⟩
      · rw [Slice.isType, h.head_eq]
        rfl
      · obtain ⟨l, hl, hshows⟩ := h.pairs t hlt hne hfine false
        exact ⟨l, es, hl, .refl _, hshows⟩
    · have hd : 1 ≤ dataStart w z := by
        rw [dataStart]
        omega
      obtain ⟨order, hperm, htable, _⟩ := exists_order hfine (dataStart w z) hd
      refine ⟨h.sized (.inr rfl), fun t => ?_⟩
      obtain ⟨htrue, l, hl, hshows⟩ := h.pairs t hne hfine hperm htable
      refine ⟨?_, htrue, l, order.map Prod.snd, hl, ?_, hshows⟩
      · rw [Slice.isType, h.head_eq]
        obtain rfl | rfl | rfl | rfl := h.isWidth <;> rfl
      · have hmap := hperm.map Prod.snd
        rwa [map_snd_placed] at hmap

end VPack
end AgencyNode
