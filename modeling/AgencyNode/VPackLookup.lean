import AgencyNode.VPackMembers

/-!
# Looking up attributes

`Slice::get` on a closed object: the loop over a compact one, the only member, the
linear and the binary search in the index table.  Each returns the value of a
member of the name, or the slice of type `None` if there is none.
-/

namespace AgencyNode
namespace VPack

open Lib Lib.ByteIntegers Lib.Frames

/-! ### Comparing names -/

/-- `memcmp` tells two names apart unless one is the front of the other. -/
theorem memcmp_cases
    (k v : Memory) :
    (memcmp k v < 0 ∧ k < v) ∨ (0 < memcmp k v ∧ v < k) ∨
      memcmp k v = 0 ∧ ((k.length < v.length ∧ k < v) ∨ k = v ∨
        (v.length < k.length ∧ v < k)) := by
  induction k generalizing v with
  | nil =>
      right; right
      cases v with
      | nil => exact ⟨rfl, .inr (.inl rfl)⟩
      | cons b v => exact ⟨rfl, .inl ⟨Nat.succ_pos _, List.nil_lt_cons b v⟩⟩
  | cons a k ih =>
      cases v with
      | nil => exact .inr (.inr ⟨rfl, .inr (.inr ⟨Nat.succ_pos _, List.nil_lt_cons a k⟩)⟩)
      | cons b v =>
          rw [memcmp, List.cons_lt_cons_iff, List.cons_lt_cons_iff]
          by_cases heq : a = b
          · subst heq
            rw [if_pos rfl, List.length_cons, List.length_cons]
            obtain ⟨hres, hlt⟩ | ⟨hres, hlt⟩ | ⟨hres, ⟨hlen, hlt⟩ | rfl | ⟨hlen, hlt⟩⟩ := ih v
            · exact .inl ⟨hres, .inr ⟨rfl, hlt⟩⟩
            · exact .inr (.inl ⟨hres, .inr ⟨rfl, hlt⟩⟩)
            · exact .inr (.inr ⟨hres, .inl ⟨by omega, .inr ⟨rfl, hlt⟩⟩⟩)
            · exact .inr (.inr ⟨hres, .inr (.inl rfl)⟩)
            · exact .inr (.inr ⟨hres, .inr (.inr ⟨by omega, .inr ⟨rfl, hlt⟩⟩)⟩)
          · rw [if_neg heq]
            by_cases hlt : a < b
            · rw [if_pos hlt]
              exact .inl ⟨by omega, .inl hlt⟩
            · rw [if_neg hlt]
              have hgt : b < a := by
                rw [UInt8.lt_iff_toNat_lt] at hlt ⊢
                rw [← UInt8.toNat_inj] at heq
                omega
              exact .inr (.inl ⟨by omega, .inl hgt⟩)

/-- What `Slice::compareStringUnchecked` returns for two names. -/
def compareNames (k v : Memory) : Int :=
  if memcmp k v = 0 then ((k.length : Int) - v.length).bmod (2 ^ 32) else memcmp k v

/-- The cast to `int` does no harm to names of less than two gibibytes. -/
theorem compareNames_cases
    {k v : Memory}
    (hk : k.length < 2 ^ 31)
    (hv : v.length < 2 ^ 31) :
    (compareNames k v < 0 ∧ k < v) ∨ (compareNames k v = 0 ∧ k = v) ∨
      (0 < compareNames k v ∧ v < k) := by
  have hcast : ((k.length : Int) - v.length).bmod (2 ^ 32) = (k.length : Int) - v.length := by
    apply Int.bmod_eq_of_le
    · omega
    · omega
  rw [compareNames, hcast]
  obtain ⟨hres, hlt⟩ | ⟨hres, hlt⟩ | ⟨hres, ⟨hlen, hlt⟩ | rfl | ⟨hlen, hlt⟩⟩ := memcmp_cases k v
  · rw [if_neg (by omega)]
    exact .inl ⟨hres, hlt⟩
  · rw [if_neg (by omega)]
    exact .inr (.inr ⟨hres, hlt⟩)
  · rw [if_pos hres]
    exact .inl ⟨by omega, hlt⟩
  · rw [if_pos hres]
    exact .inr (.inl ⟨by omega, rfl⟩)
  · rw [if_pos hres]
    exact .inr (.inr ⟨by omega, hlt⟩)

/-- Comparing with names in order. -/
theorem compareNames_mono
    {k k' v : Memory}
    (hk : k.length < 2 ^ 31)
    (hk' : k'.length < 2 ^ 31)
    (hv : v.length < 2 ^ 31)
    (hle : k ≤ k') :
    (0 < compareNames k v → 0 < compareNames k' v) ∧
      (compareNames k' v < 0 → compareNames k v < 0) := by
  have hnot : ¬ k' < k := hle
  obtain ⟨hres, hlt⟩ | ⟨hres, heq⟩ | ⟨hres, hlt⟩ := compareNames_cases hk hv
  · exact ⟨fun h => by omega, fun _ => hres⟩
  · obtain ⟨hres', hlt'⟩ | ⟨hres', _⟩ | ⟨hres', _⟩ := compareNames_cases hk' hv
    · exact absurd (heq ▸ hlt') hnot
    · exact ⟨fun h => by omega, fun h => by omega⟩
    · exact ⟨fun h => by omega, fun h => by omega⟩
  · obtain ⟨hres', hlt'⟩ | ⟨hres', heq'⟩ | ⟨hres', _⟩ := compareNames_cases hk' hv
    · exact absurd (List.lt_trans hlt' hlt) hnot
    · exact absurd (heq' ▸ hlt) hnot
    · exact ⟨fun _ => hres', fun h => by omega⟩

/-! ### What a search returns -/

/-- The value of a member of the name, or nothing if there is none. -/
def Found (es : List Entry) (name r : Memory) : Prop :=
  (∃ value rest, (name, value) ∈ es ∧ r = value ++ rest) ∨
    (∀ e ∈ es, e.1 ≠ name) ∧ r = Slice.noneSlice

theorem Found.head
    {e : Entry}
    {name : Memory}
    (h : e.1 = name)
    (es : List Entry)
    (rest : Memory) :
    Found (e :: es) name (e.2 ++ rest) := by
  subst h
  exact .inl ⟨e.2, rest, List.mem_cons_self, rfl⟩

theorem Found.tail
    {e : Entry}
    {es : List Entry}
    {name r : Memory}
    (hne : e.1 ≠ name)
    (h : Found es name r) :
    Found (e :: es) name r := by
  obtain ⟨value, rest, hmem, hr⟩ | ⟨hall, hr⟩ := h
  · exact .inl ⟨value, rest, List.mem_cons_of_mem e hmem, hr⟩
  · refine .inr ⟨?_, hr⟩
    intro f hf
    rcases List.mem_cons.mp hf with rfl | hf
    · exact hne
    · exact hall f hf

theorem Found.of_perm
    {es es' : List Entry}
    {name r : Memory}
    (h : Found es name r)
    (hperm : es.Perm es') :
    Found es' name r := by
  obtain ⟨value, rest, hmem, hr⟩ | ⟨hall, hr⟩ := h
  · exact .inl ⟨value, rest, hperm.mem_iff.mp hmem, hr⟩
  · exact .inr ⟨fun e he => hall e (hperm.mem_iff.mpr he), hr⟩

theorem isEqualStringUnchecked_stringData
    {key : Memory}
    (hkey : (stringData key).length < 2 ^ 64)
    (name t : Memory) :
    Slice.isEqualStringUnchecked (stringData key ++ t) name = .ok (key == name) := by
  rw [Slice.isEqualStringUnchecked, getStringUnchecked_stringData t hkey]
  rfl

theorem isEqualString_stringData
    {key : Memory}
    (hkey : (stringData key).length < 2 ^ 64)
    (name t : Memory) :
    Slice.isEqualString (stringData key ++ t) name = .ok (key == name) := by
  rw [Slice.isEqualString, getString_stringData t hkey]
  rfl

theorem compareStringUnchecked_stringData
    {key : Memory}
    (hkey : (stringData key).length < 2 ^ 64)
    (name t : Memory) :
    Slice.compareStringUnchecked (stringData key ++ t) name = .ok (compareNames key name) := by
  rw [Slice.compareStringUnchecked, getStringUnchecked_stringData t hkey, Read.ok_bind,
    compareNames]
  split
  · rename_i h
    rw [if_pos h]
    rfl
  · rename_i h
    rw [if_neg h]
    rfl

/-! ### The searches -/

/-- The linear search in an index table. -/
theorem searchLinearLoop_found
    {m : Memory}
    (name : Memory)
    {ieBase offsetSize : ValueLength}
    {order : List (Nat × Entry)}
    (hfine : ∀ x ∈ order, x.2.Fine)
    (hadvance : ∀ x ∈ order, ∃ rest, Slice.advance m (UInt64.ofNat x.1) =
      stringData x.2.1 ++ (x.2.2 ++ rest))
    {index : Nat}
    (hentry : ∀ i (hi : i < order.length),
      readInteger m (ieBase + UInt64.ofNat (index + i) * offsetSize) offsetSize =
        .ok (UInt64.ofNat order[i].1)) :
    ∃ r, Slice.searchLinearLoop m name ieBase offsetSize order.length (UInt64.ofNat index) =
        .ok r ∧ Found (order.map Prod.snd) name r := by
  induction order generalizing index with
  | nil => exact ⟨_, rfl, .inr ⟨fun e he => absurd he List.not_mem_nil, rfl⟩⟩
  | cons x order ih =>
      obtain ⟨rest, hx⟩ := hadvance x List.mem_cons_self
      have hfirst := hentry 0 (Nat.succ_pos _)
      rw [Nat.add_zero, List.getElem_cons_zero] at hfirst
      have hnext := ofNat_add_one index
      have hrest : ∀ i (hi : i < order.length),
          readInteger m (ieBase + UInt64.ofNat (index + 1 + i) * offsetSize) offsetSize =
            .ok (UInt64.ofNat order[i].1) := by
        intro i hi
        have hthis := hentry (i + 1) (Nat.succ_lt_succ hi)
        rw [List.getElem_cons_succ] at hthis
        rw [show index + 1 + i = index + (i + 1) by omega]
        exact hthis
      obtain ⟨r, hr, hfound⟩ := ih (fun y hy => hfine y (List.mem_cons_of_mem x hy))
        (fun y hy => hadvance y (List.mem_cons_of_mem x hy)) hrest
      obtain ⟨b, hhead, htype, _⟩ := head_stringData x.2.1 (x.2.2 ++ rest)
      have hequal := isEqualStringUnchecked_stringData (hfine x List.mem_cons_self).key_lt name
        (x.2.2 ++ rest)
      have hbehind := behind_entry (hfine x List.mem_cons_self) rest
      rw [List.length_cons, Slice.searchLinearLoop]
      simp only [hfirst, Read.ok_bind, hx, hhead, htype, hequal, hnext, hbehind]
      by_cases hname : x.2.1 = name
      · rw [if_pos (beq_iff_eq.mpr hname)]
        exact ⟨_, rfl, .head hname _ _⟩
      · rw [if_neg (by simpa using hname)]
        exact ⟨r, hr, .tail hname hfound⟩

/-- The loop over a compact object. -/
theorem getFromCompactLoop_found
    (m name post : Memory)
    {size : Nat}
    (hsize : size < 2 ^ 64)
    {e : Entry}
    {es : List Entry}
    (hfine : ∀ x ∈ e :: es, x.Fine)
    {position : Nat}
    (hposition : position + (es.length + 1) = size) :
    ∃ r, Slice.getFromCompactLoop name (es.length + 1) ⟨m, UInt64.ofNat size,
        UInt64.ofNat position, some (((e :: es).map Entry.bytes).flatten ++ post)⟩ = .ok r ∧
      Found (e :: es) name r := by
  induction es generalizing e position with
  | nil =>
      have hlast : ¬ UInt64.ofNat position + 1 < UInt64.ofNat size := by
        rw [ofNat_add_one, ofNat_lt_ofNat (by omega) hsize]
        simp only [List.length_nil] at hposition
        omega
      have hbehind := behind_entry (hfine e List.mem_cons_self) post
      have hkey : Slice.makeKey (stringData e.1 ++ (e.2 ++ post)) =
          .ok (stringData e.1 ++ (e.2 ++ post)) := makeKey_stringData _
      have hequal := isEqualString_stringData (hfine e List.mem_cons_self).key_lt name
        (e.2 ++ post)
      simp only [Slice.getFromCompactLoop, ObjectIterator.next, List.map_cons, List.map_nil,
        List.flatten_cons, List.flatten_nil, Entry.bytes, List.append_nil, List.append_assoc,
        Option.getD_some, hkey, hequal, hbehind, if_neg hlast, Read.ok_bind, Read.pure_eq_ok]
      by_cases hname : e.1 = name
      · rw [if_pos (beq_iff_eq.mpr hname)]
        exact ⟨_, rfl, .head hname _ _⟩
      · rw [if_neg (by simpa using hname)]
        exact ⟨_, rfl, .tail hname (.inr ⟨fun e he => absurd he List.not_mem_nil, rfl⟩)⟩
  | cons f es ih =>
      have hmore : UInt64.ofNat position + 1 < UInt64.ofNat size := by
        rw [ofNat_add_one, ofNat_lt_ofNat (by omega) hsize]
        simp only [List.length_cons] at hposition
        omega
      have hnext := ofNat_add_one position
      rw [hnext] at hmore
      have hposition' : position + 1 + (es.length + 1) = size := by
        simp only [List.length_cons] at hposition
        omega
      obtain ⟨r, hr, hfound⟩ := ih (fun x hx => hfine x (List.mem_cons_of_mem e hx)) hposition'
      generalize hrest : ((f :: es).map Entry.bytes).flatten ++ post = rest at hr
      have hbehind := behind_entry (hfine e List.mem_cons_self) rest
      have hvalue := (hfine e List.mem_cons_self).value.behind rest
      have hkey : Slice.makeKey (stringData e.1 ++ (e.2 ++ rest)) =
          .ok (stringData e.1 ++ (e.2 ++ rest)) := makeKey_stringData _
      have hequal := isEqualString_stringData (hfine e List.mem_cons_self).key_lt name
        (e.2 ++ rest)
      have hmemory : ((e :: f :: es).map Entry.bytes).flatten ++ post =
          stringData e.1 ++ (e.2 ++ rest) := by
        rw [← hrest, List.map_cons, List.flatten_cons, Entry.bytes]
        simp only [List.append_assoc]
      rw [hmemory, List.length_cons, Slice.getFromCompactLoop]
      simp only [ObjectIterator.next, Option.getD_some, hkey, hequal, hbehind, hvalue,
        Read.ok_bind, Read.pure_eq_ok, hnext, if_pos hmore]
      by_cases hname : e.1 = name
      · rw [if_pos (beq_iff_eq.mpr hname)]
        exact ⟨_, rfl, .head hname _ _⟩
      · rw [if_neg (by simpa using hname)]
        exact ⟨r, hr, .tail hname hfound⟩

/-- The binary search in an index table. -/
theorem searchObjectKeyBinary_found
    {m name : Memory}
    (hname : name.length < 2 ^ 31)
    {ieBase offsetSize n : ValueLength}
    {order : List (Nat × Entry)}
    (hfine : ∀ x ∈ order, x.2.Fine)
    (hshort : ∀ x ∈ order, x.2.1.length < 2 ^ 31)
    (hadvance : ∀ x ∈ order, ∃ rest, Slice.advance m (UInt64.ofNat x.1) =
      stringData x.2.1 ++ (x.2.2 ++ rest))
    (hentry : ∀ i (hi : i < order.length),
      readInteger m (ieBase + UInt64.ofNat i * offsetSize) offsetSize =
        .ok (UInt64.ofNat order[i].1))
    (hsorted : order.Pairwise fun a b => a.2.1 ≤ b.2.1)
    (hn : n.toNat = order.length) :
    ∃ r, Slice.searchObjectKeyBinary m name ieBase offsetSize n = .ok r ∧
      Found (order.map Prod.snd) name r := by
  let x : Int → Nat × Entry := fun i => order.getD i.toNat (0, ([], []))
  have hx : ∀ {i : Int}, 0 ≤ i → i < order.length →
      ∃ hi : i.toNat < order.length, x i = order[i.toNat] := by
    intro i hlow hhigh
    have hi : i.toNat < order.length := by omega
    exact ⟨hi, by simp only [x, List.getD_eq_getElem?_getD, List.getElem?_eq_getElem hi,
      Option.getD_some]⟩
  have hmem : ∀ {i : Int}, 0 ≤ i → i < order.length → x i ∈ order := by
    intro i hlow hhigh
    obtain ⟨hi, heq⟩ := hx hlow hhigh
    rw [heq]
    exact List.getElem_mem hi
  have hle : ∀ {i j : Int}, 0 ≤ i → i < j → j < order.length → (x i).2.1 ≤ (x j).2.1 := by
    intro i j hlow hlt hhigh
    obtain ⟨hi, heqi⟩ := hx hlow (by omega)
    obtain ⟨hj, heqj⟩ := hx (show 0 ≤ j by omega) hhigh
    rw [heqi, heqj]
    exact List.pairwise_iff_getElem.mp hsorted _ _ hi hj (by omega)
  have htable : BinarySearch.Sorted (Slice.probe m name ieBase offsetSize) order.length
      (fun i => compareNames (x i).2.1 name)
      (fun i => Slice.advance m (UInt64.ofNat (x i).1)) := by
    refine ⟨?_, ?_, ?_⟩
    · intro i hlow hhigh
      obtain ⟨hi, heq⟩ := hx hlow hhigh
      have hread := hentry i.toNat hi
      rw [← heq] at hread
      obtain ⟨rest, hrest⟩ := hadvance _ (hmem hlow hhigh)
      have hkey := (hfine _ (hmem hlow hhigh)).key_lt
      have hstring : Slice.isString (stringData (x i).2.1 ++ ((x i).2.2 ++ rest)) = .ok true :=
        isString_stringData _
      have hcompare := compareStringUnchecked_stringData hkey name ((x i).2.2 ++ rest)
      rw [Slice.probe]
      simp only [hread, Read.ok_bind, hrest, hstring, if_true, hcompare, Read.pure_eq_ok]
    · intro i j hlow hlt hhigh
      exact (compareNames_mono (hshort _ (hmem hlow (by omega)))
        (hshort _ (hmem (by omega) hhigh)) hname (hle hlow hlt hhigh)).1
    · intro i j hlow hlt hhigh
      exact (compareNames_mono (hshort _ (hmem hlow (by omega)))
        (hshort _ (hmem (by omega) hhigh)) hname (hle hlow hlt hhigh)).2
  obtain ⟨result, hsearch, hanswers⟩ := htable.search
  rw [Slice.searchObjectKeyBinary, hn, hsearch, Read.ok_bind]
  cases result with
  | none =>
      refine ⟨_, rfl, .inr ⟨?_, rfl⟩⟩
      intro e he heq
      obtain ⟨y, hy, rfl⟩ := List.mem_map.mp he
      obtain ⟨i, hi, rfl⟩ := List.getElem_of_mem hy
      have hlow : (0 : Int) ≤ i := by omega
      have hhigh : (i : Int) < order.length := by omega
      apply hanswers i hlow hhigh
      obtain ⟨hi', hxi⟩ := hx hlow hhigh
      have hnames : (x i).2.1 = name := by
        rw [hxi]
        exact heq
      obtain ⟨_, hlt⟩ | ⟨hres, _⟩ | ⟨_, hlt⟩ :=
        compareNames_cases (hshort _ (hmem hlow hhigh)) hname
      · rw [hnames] at hlt
        exact absurd hlt (List.lt_irrefl name)
      · exact hres
      · rw [hnames] at hlt
        exact absurd hlt (List.lt_irrefl name)
  | some key =>
      obtain ⟨i, hlow, hhigh, hres, rfl⟩ := hanswers
      have hzero : compareNames (x i).2.1 name = 0 := hres
      obtain ⟨rest, hrest⟩ := hadvance _ (hmem hlow hhigh)
      have hbehind := behind_entry (hfine _ (hmem hlow hhigh)) rest
      have hnames : (x i).2.1 = name := by
        obtain ⟨hneg, _⟩ | ⟨_, heq⟩ | ⟨hpos, _⟩ :=
          compareNames_cases (hshort _ (hmem hlow hhigh)) hname
        · omega
        · exact heq
        · omega
      refine ⟨(x i).2.2 ++ rest, ?_, .inl ⟨(x i).2.2, rest, ?_, rfl⟩⟩
      · simp only [hrest]
        exact hbehind
      · rw [← hnames]
        exact List.mem_map_of_mem (hmem hlow hhigh)

/-! ### Closed objects -/

section Objects

variable {s : Memory} {w z : Nat} {es : List Entry} {table : List Nat} (t : Memory)

/-- Where the index table starts. -/
theorem IsWidth.ieBase_eq
    (hw : IsWidth w)
    {len n : Nat}
    (h : n * w + (if w < 8 then 0 else 8) ≤ len) :
    (if UInt64.ofNat w < 8 then UInt64.ofNat len - UInt64.ofNat n * UInt64.ofNat w
      else UInt64.ofNat len - UInt64.ofNat n * UInt64.ofNat w - UInt64.ofNat w) =
      UInt64.ofNat (len - n * w - (if w < 8 then 0 else 8)) := by
  by_cases hlt : w < 8
  · have hsmall : UInt64.ofNat w < 8 := by
      rw [UInt64.lt_iff_toNat_lt, hw.toNat_ofNat]
      exact hlt
    rw [if_pos hlt] at h ⊢
    rw [if_pos hsmall, ← UInt64.ofNat_mul, ← UInt64.ofNat_sub (by omega), Nat.sub_zero]
  · have heq : w = 8 := by
      obtain hw | hw | hw | hw := hw <;> omega
    subst heq
    rw [if_neg hlt] at h ⊢
    rw [if_neg (by decide), ← UInt64.ofNat_mul, ← UInt64.ofNat_sub (by omega),
      ← UInt64.ofNat_sub (by omega)]

/-- `Slice::get` in an object with an index table. -/
theorem Indexed.get
    (h : Indexed s 0x0b w z (es.map Entry.bytes) table)
    (hne : es ≠ [])
    (hfine : ∀ e ∈ es, e.Fine)
    (hshort : ∀ e ∈ es, e.1.length < 2 ^ 31)
    {order : List (Nat × Entry)}
    (horder : order.Perm (placed (dataStart w z) es))
    (htable : table = order.map Prod.fst)
    (hsorted : order.Pairwise fun a b => a.2.1 ≤ b.2.1)
    {name : Memory}
    (hname : name.length < 2 ^ 31) :
    ∃ r, Slice.get (s ++ t) name = .ok r ∧ Found es name r := by
  have hcount : order.length = es.length := by
    rw [horder.length_eq, placed, List.length_zip, length_offsets, List.length_map, Nat.min_self]
  have hcountTable : table.length = es.length := by
    rw [htable, List.length_map, hcount]
  have hcountItems : table.length = (es.map Entry.bytes).length := by
    rw [hcountTable, List.length_map]
  have hlt := h.length_lt_two_pow
  have hn : es.length < 2 ^ 64 := by
    have hitems := Nat.lt_of_lt_of_le (h.count_lt hcountItems) h.isWidth.pow_le
    rwa [List.length_map] at hitems
  obtain ⟨htype, hwidth, hempty, hcompact, _⟩ := h.head_object
  have hread := h.readLength t
  have hindexed := h.indexedLength t hcountItems
  rw [List.length_map] at hindexed
  have hlength := h.length_eq
  rw [hcountTable] at hlength
  have hbase := h.isWidth.ieBase_eq (show es.length * w + (if w < 8 then 0 else 8) ≤ s.length by omega)
  have hmem : ∀ x ∈ order, (x.1, x.2) ∈ placed (dataStart w z) es :=
    fun x hx => horder.mem_iff.mp hx
  have hmem' : ∀ x ∈ order, x.2 ∈ es := by
    intro x hx
    obtain ⟨_, _, he, _⟩ := exists_of_mem_placed (hmem x hx)
    exact he
  have hperm : (order.map Prod.snd).Perm es := by
    have hmap := horder.map Prod.snd
    rwa [map_snd_placed] at hmap
  rw [Slice.get, h.head_eq, Read.ok_bind, if_neg (not_not_intro htype), if_neg hempty,
    if_neg hcompact, Slice.getFromTable]
  simp only [hwidth, hread, hindexed, Read.ok_bind, hbase]
  by_cases hone : UInt64.ofNat es.length = 1
  · have hone' : es.length = 1 := by
      have hnat := congrArg UInt64.toNat hone
      rwa [toNat_ofNat_of_lt hn] at hnat
    obtain ⟨e, rfl⟩ := List.length_eq_one_iff.mp hone'
    have hoffset := h.findDataOffset t (.inr rfl) (List.cons_ne_nil _ _) isItem_of_mem
    have hadvance := h.advance t 0
    rw [List.take_zero, List.flatten_nil, List.length_nil, Nat.add_zero, List.drop_zero,
      List.map_singleton, List.flatten_singleton, Entry.bytes, List.append_assoc] at hadvance
    have hkey := (hfine e List.mem_cons_self).key_lt
    generalize hrest : table.flatMap (littleEndian w) ++ (countBack w 1 ++ t) = rest
    have hadvance' : Slice.advance (s ++ t) (UInt64.ofNat (dataStart w z)) =
        stringData e.1 ++ (e.2 ++ rest) := by
      rw [← hrest]
      exact hadvance
    obtain ⟨b, hhead, hstring, _⟩ := head_stringData e.1 (e.2 ++ rest)
    have hequal := isEqualStringUnchecked_stringData hkey name (e.2 ++ rest)
    have hbehind := behind_entry (hfine e List.mem_cons_self) rest
    rw [if_pos hone]
    simp only [hoffset, Read.ok_bind, hadvance', hhead, hstring, hequal, hbehind]
    by_cases heq : e.1 = name
    · rw [if_pos (beq_iff_eq.mpr heq)]
      exact ⟨_, rfl, .head heq _ _⟩
    · rw [if_neg (by simpa using heq)]
      exact ⟨_, rfl, .tail heq (.inr ⟨fun f hf => absurd hf List.not_mem_nil, rfl⟩)⟩
  · have hentry : ∀ i (hi : i < order.length), readInteger (s ++ t)
        (UInt64.ofNat (s.length - es.length * w - (if w < 8 then 0 else 8)) +
          UInt64.ofNat i * UInt64.ofNat w) (UInt64.ofNat w) =
        .ok (UInt64.ofNat order[i].1) := by
      intro i hi
      have hi' : i < table.length := by omega
      have hvalue : table[i] = order[i].1 := by
        simp only [htable, List.getElem_map]
      have hbound := (h.advance_placed t (hmem _ (List.getElem_mem hi))).1
      have hle : i * w ≤ es.length * w := Nat.mul_le_mul_right w (by omega)
      rw [← hvalue]
      apply h.readEntry t hi' (by rw [hvalue]; exact Nat.lt_trans hbound h.length_lt)
      rw [← UInt64.ofNat_mul, ← UInt64.ofNat_add, toNat_ofNat_of_lt (by omega), hcountTable]
    rw [if_neg hone]
    split
    · obtain ⟨r, hr, hfound⟩ := searchObjectKeyBinary_found hname
        (fun x hx => hfine _ (hmem' x hx)) (fun x hx => hshort _ (hmem' x hx))
        (fun x hx => (h.advance_placed t (hmem x hx)).2) hentry hsorted
        ((toNat_ofNat_of_lt hn).trans hcount.symm)
      exact ⟨r, hr, hfound.of_perm hperm⟩
    · have hentry' : ∀ i (hi : i < order.length), readInteger (s ++ t)
          (UInt64.ofNat (s.length - es.length * w - (if w < 8 then 0 else 8)) +
            UInt64.ofNat (0 + i) * UInt64.ofNat w) (UInt64.ofNat w) =
          .ok (UInt64.ofNat order[i].1) := by
        intro i hi
        rw [Nat.zero_add]
        exact hentry i hi
      obtain ⟨r, hr, hfound⟩ := searchLinearLoop_found name
        (fun x hx => hfine _ (hmem' x hx))
        (fun x hx => (h.advance_placed t (hmem x hx)).2) hentry'
      refine ⟨r, ?_, hfound.of_perm hperm⟩
      rw [hcount] at hr
      rw [Slice.searchObjectKeyLinear, toNat_ofNat_of_lt hn]
      exact hr

/-- `Slice::get` in a compact object. -/
theorem Compact.get
    (h : Compact s 0x14 (es.map Entry.bytes))
    (hlt : s.length < 2 ^ 64)
    (hne : es ≠ [])
    (hfine : ∀ e ∈ es, e.Fine)
    (name : Memory) :
    ∃ r, Slice.get (s ++ t) name = .ok r ∧ Found es name r := by
  have hlength := h.length_eq
  have hcount : (es.map Entry.bytes).length ≤ (es.map Entry.bytes).flatten.length :=
    count_le isItem_of_mem
  rw [List.length_map] at hcount
  have hn : es.length < 2 ^ 64 := by omega
  have hstart := h.objectIterator t hlt hne false
  obtain ⟨e, rest, rfl⟩ := List.exists_cons_of_ne_nil hne
  have hposition : 0 + (rest.length + 1) = (e :: rest).length := Nat.zero_add _
  obtain ⟨r, hr, hfound⟩ := getFromCompactLoop_found (s ++ t) name
    ((leb ((e :: rest).map Entry.bytes).length).reverse ++ t) hn hfine hposition
  refine ⟨r, ?_, hfound⟩
  rw [Slice.get, h.head_eq, Read.ok_bind, if_neg (by decide), if_neg (by decide), if_pos rfl,
    Slice.getFromCompactObject, hstart, Read.ok_bind]
  simp only [toNat_ofNat_of_lt hn]
  exact hr

end Objects

/--
**A lookup finds a member of the name** if there is one, in whichever layout the
object has been closed.
-/
theorem get_closed
    [StdSort]
    {options : Options}
    (hpadding : options.paddingBehavior ≠ .usePadding)
    {es : List Entry}
    (hfine : ∀ e ∈ es, e.Fine)
    (hshort : ∀ e ∈ es, e.1.length < 2 ^ 31)
    {s : Memory}
    (hs : s = closeCompound options (openHeader 0x0b ++ (es.map Entry.bytes).flatten)
      (offsets 9 (es.map Entry.bytes)))
    (hlt : s.length < 2 ^ 64)
    {name : Memory}
    (hname : name.length < 2 ^ 31)
    (t : Memory) :
    ∃ r, Slice.get (s ++ t) name = .ok r ∧ Found es name r := by
  by_cases hne : es = []
  · subst hne
    have hclosed : s = [0x0a] := hs
    subst hclosed
    exact ⟨_, rfl, .inr ⟨fun e he => absurd he List.not_mem_nil, rfl⟩⟩
  · have hne' : es.map Entry.bytes ≠ [] := fun hnil => hne (List.map_eq_nil_iff.mp hnil)
    obtain h | ⟨w, z, h⟩ := closeCompound_object hpadding hne' hs hlt
    · exact h.get t hlt hne hfine name
    · have hd : 1 ≤ dataStart w z := by
        rw [dataStart]
        omega
      obtain ⟨order, hperm, htable, hsorted⟩ := exists_order hfine (dataStart w z) hd
      exact h.get t hne hfine hshort hperm htable hsorted hname

end VPack
end AgencyNode
