import AgencyNode.VPackReading

/-!
# The layouts of closed compounds

What `Builder::close` makes of an open array or object: an empty one, a compact
one, one without an index table whose items are of one length, or one with a table.
-/

namespace AgencyNode
namespace VPack

open Lib Lib.ByteIntegers Lib.Frames

/-- A head, the length and the number in groups of seven bits. -/
structure Compact (s : Memory) (head : UInt8) (items : List Memory) : Prop where
  bytes_eq : s = head :: (leb s.length ++ (items.flatten ++ (leb items.length).reverse))

/-- The number of subvalues in front of them. -/
def countFront (w n : Nat) : Memory :=
  if w < 8 then littleEndian w n else []

/-- The number of subvalues behind the index table. -/
def countBack (w n : Nat) : Memory :=
  if w < 8 then [] else littleEndian 8 n

/-- The widths of lengths and offsets. -/
def IsWidth (w : Nat) : Prop :=
  w = 1 ∨ w = 2 ∨ w = 4 ∨ w = 8

/-- A head, the length, padding and the items. -/
structure Unindexed (s : Memory) (w z : Nat) (items : List Memory) : Prop where
  bytes_eq : s = (0x02 + widthStep w) ::
    (littleEndian w s.length ++ (List.replicate z 0 ++ items.flatten))
  length_lt : s.length < 256 ^ w
  padding : w = 1 ∧ z = 0 ∨ w = 2 ∧ (z = 0 ∨ z = 6) ∨ w = 4 ∧ z = 4 ∨ w = 8 ∧ z = 0

/-- A head, the length and the number, padding, the items and their offsets. -/
structure Indexed (s : Memory) (head : UInt8) (w z : Nat) (items : List Memory)
    (table : List Nat) : Prop where
  bytes_eq : s = (head + widthStep w) ::
    (littleEndian w s.length ++ (countFront w items.length ++ (List.replicate z 0 ++
      (items.flatten ++ (table.flatMap (littleEndian w) ++ countBack w items.length)))))
  length_lt : s.length < 256 ^ w
  padding : w = 1 ∧ z = 0 ∨ w = 2 ∧ (z = 0 ∨ z = 4) ∨ w = 4 ∧ z = 0 ∨ w = 8 ∧ z = 0

/-- Where the items of an indexed compound start. -/
def dataStart (w z : Nat) : Nat :=
  1 + w + (if w < 8 then w else 0) + z

/-- An item starts with a head that is no padding. -/
def IsItem (x : Memory) : Prop :=
  ∃ b t, x = b :: t ∧ b ≠ 0

/-! ### Filling in -/

/-- What is left of the header, and the items behind it. -/
def blank (h : UInt8) (d : Nat) (items : List Memory) : Memory :=
  h :: (List.replicate (d - 1) 0 ++ items.flatten)

theorem moveDown_openHeader
    (plan : Plan)
    (h : UInt8)
    (items : List Memory)
    (hlow : 1 ≤ plan.targetPos)
    (hhigh : plan.targetPos ≤ 9) :
    plan.moveDown (openHeader h ++ items.flatten) = blank h plan.targetPos items := by
  obtain ⟨d, hd⟩ : ∃ d, plan.targetPos = d + 1 := ⟨plan.targetPos - 1, by omega⟩
  have hdrop : (openHeader h ++ items.flatten).drop 9 = items.flatten := rfl
  have htake : (openHeader h ++ items.flatten).take plan.targetPos =
      h :: List.replicate d 0 := by
    rw [hd, openHeader, List.cons_append, List.take_succ_cons, List.take_append_of_le_length]
    · rw [List.take_replicate, Nat.min_eq_left (by omega)]
    · rw [List.length_replicate]
      omega
  rw [Plan.moveDown, hdrop, htake, blank, hd, Nat.add_sub_cancel, List.cons_append]

theorem overwrite_head
    (h x : UInt8)
    (t : Memory) :
    overwrite (h :: t) 0 [x] = x :: t := by
  rfl

/-- The length goes over the zeros behind the head. -/
theorem overwrite_length
    (x : UInt8)
    (w y : Nat)
    (t : Memory) :
    overwrite (x :: (List.replicate w 0 ++ t)) 1 (littleEndian w y) =
      x :: (littleEndian w y ++ t) := by
  have h := overwrite_append [x] (List.replicate w 0) (littleEndian w y) t (by simp)
  rw [List.append_assoc, List.append_assoc] at h
  exact h

/-- The number of subvalues goes over the zeros behind the length. -/
theorem overwrite_count
    (x : UInt8)
    (w y n : Nat)
    (t : Memory) :
    overwrite (x :: (littleEndian w y ++ (List.replicate w 0 ++ t))) (1 + w)
        (littleEndian w n) =
      x :: (littleEndian w y ++ (littleEndian w n ++ t)) := by
  have h := overwrite_append (x :: littleEndian w y) (List.replicate w 0) (littleEndian w n) t
    (by simp)
  rw [List.append_assoc, List.append_assoc, List.length_cons, length_littleEndian,
    Nat.add_comm] at h
  exact h

/-- The header of a compound with an index table is filled in. -/
theorem finish_indexed
    {plan : Plan}
    (hneed : plan.needIndexTable = true)
    (hnrs : plan.needNrSubs = true)
    {z : Nat}
    (hw : IsWidth plan.offsetSize)
    (h : UInt8)
    (items : List Memory)
    (table : List Nat)
    (htable : table.length = items.length)
    {s : Memory}
    (hs : s = plan.finish table (blank h (dataStart plan.offsetSize z) items)) :
    s = (plan.head + widthStep plan.offsetSize) ::
      (littleEndian plan.offsetSize s.length ++
        (countFront plan.offsetSize items.length ++ (List.replicate z 0 ++
          (items.flatten ++ (table.flatMap (littleEndian plan.offsetSize) ++
            countBack plan.offsetSize items.length))))) := by
  generalize hx : plan.head + widthStep plan.offsetSize = x
  generalize hT : table.flatMap (littleEndian plan.offsetSize) = T
  rw [Plan.finish, hneed, hnrs, hx, hT, htable] at hs
  simp only [if_true, and_true] at hs
  generalize plan.offsetSize = w at hs hw ⊢
  by_cases hlt : w < 8
  · have hne : ¬ w = 8 := by omega
    have hblank : blank h (dataStart w z) items ++ T =
        h :: (List.replicate w 0 ++ (List.replicate w 0 ++ (List.replicate z 0 ++
          (items.flatten ++ T)))) := by
      rw [blank, dataStart, if_pos hlt, show 1 + w + w + z - 1 = w + (w + z) by omega,
        List.replicate_add, List.replicate_add]
      simp only [List.cons_append, List.append_assoc]
    rw [hblank, overwrite_head, if_neg hne, if_pos hlt] at hs
    generalize hlength : (x :: (List.replicate w (0 : UInt8) ++ (List.replicate w 0 ++
      (List.replicate z 0 ++ (items.flatten ++ T))))).length = len at hs
    rw [overwrite_length, overwrite_count] at hs
    have hslength : s.length = len := by
      rw [hs, ← hlength]
      simp
    rw [hslength, countFront, countBack, if_pos hlt, if_pos hlt, hs]
    simp
  · have heq : w = 8 := by
      rcases hw with hw | hw | hw | hw <;> omega
    subst heq
    have hblank : blank h (dataStart 8 z) items ++ T =
        h :: (List.replicate 8 0 ++ (List.replicate z 0 ++ (items.flatten ++ T))) := by
      rw [blank, dataStart, if_neg hlt, show 1 + 8 + 0 + z - 1 = 8 + z by omega,
        List.replicate_add]
      simp only [List.cons_append, List.append_assoc]
    rw [hblank, overwrite_head, if_pos rfl, if_neg hlt] at hs
    generalize hlength : (x :: (List.replicate 8 (0 : UInt8) ++ (List.replicate z 0 ++
      (items.flatten ++ T))) ++ littleEndian 8 items.length).length = len at hs
    rw [List.cons_append, List.append_assoc, overwrite_length] at hs
    have hslength : s.length = len := by
      rw [hs, ← hlength]
      simp
      omega
    rw [hslength, countFront, countBack, if_neg hlt, if_neg hlt, hs]
    simp

/-- The header of an array without an index table is filled in. -/
theorem finish_unindexed
    {plan : Plan}
    (hneed : plan.needIndexTable = false)
    (hnrs : plan.needNrSubs = false)
    {z : Nat}
    (h : UInt8)
    (items : List Memory)
    (table : List Nat)
    {s : Memory}
    (hs : s = plan.finish table (blank h (1 + plan.offsetSize + z) items)) :
    s = (plan.head + widthStep plan.offsetSize) ::
      (littleEndian plan.offsetSize s.length ++ (List.replicate z 0 ++ items.flatten)) := by
  generalize hx : plan.head + widthStep plan.offsetSize = x
  rw [Plan.finish, hneed, hnrs, hx] at hs
  simp only [Bool.false_eq_true, if_false, and_false] at hs
  generalize plan.offsetSize = w at hs ⊢
  have hblank : blank h (1 + w + z) items =
      h :: (List.replicate w 0 ++ (List.replicate z 0 ++ items.flatten)) := by
    rw [blank, show 1 + w + z - 1 = w + z by omega, List.replicate_add, List.append_assoc]
  rw [hblank, overwrite_head] at hs
  generalize hlength : (x :: (List.replicate w (0 : UInt8) ++ (List.replicate z 0 ++
    items.flatten))).length = len at hs
  rw [overwrite_length] at hs
  have hslength : s.length = len := by
    rw [hs, ← hlength]
    simp
  rw [hslength, hs]

/-! ### Compact compounds -/

/-- The groups of the length take the room that has been left for them. -/
theorem length_leb_byteSize
    (size : Nat)
    (hsize : 1 ≤ size) :
    let bLen := (leb size).length
    let fits := (leb (size + bLen)).length = bLen
    (leb (if fits then size + bLen else size + bLen + 1)).length =
      if fits then bLen else bLen + 1 := by
  intro bLen fits
  by_cases h : fits
  · rw [if_pos h, if_pos h]
    exact h
  · rw [if_neg h, if_neg h]
    have hle : bLen ≤ size + 1 := length_leb_le size
    have hlow : bLen ≤ (leb (size + bLen)).length := length_leb_mono (by omega)
    have hmono : (leb (size + bLen)).length ≤ (leb (size + bLen + 1)).length :=
      length_leb_mono (by omega)
    have hhigh : (leb (size + bLen + 1)).length ≤ bLen + 1 :=
      length_leb_le_succ (by omega)
    have hne : (leb (size + bLen)).length ≠ bLen := h
    omega

theorem closeCompact_layout
    {h : UInt8}
    {isArray : Bool}
    {items : List Memory}
    {s : Memory}
    (hs : closeCompactArrayOrObject (openHeader h ++ items.flatten) isArray
      (offsets 9 items) = some s) :
    Compact s (if isArray then 0x13 else 0x14) items := by
  have hlength : (openHeader h ++ items.flatten).length - 8 + (leb items.length).length =
      1 + items.flatten.length + (leb items.length).length := by
    rw [openHeader, List.length_append, List.length_cons, List.length_replicate]
    omega
  rw [closeCompactArrayOrObject, length_offsets, hlength] at hs
  have hroom := length_leb_byteSize (1 + items.flatten.length + (leb items.length).length)
    (by omega)
  generalize hsize : 1 + items.flatten.length + (leb items.length).length = size at hs hroom
  simp only at hs hroom
  have hsum : (if (leb (size + (leb size).length)).length = (leb size).length then
      size + (leb size).length else size + (leb size).length + 1) =
      size + (if (leb (size + (leb size).length)).length = (leb size).length then
        (leb size).length else (leb size).length + 1) := by
    split <;> omega
  rw [hsum] at hs hroom
  generalize (if (leb (size + (leb size).length)).length = (leb size).length then
    (leb size).length else (leb size).length + 1) = bLen at hs hroom
  generalize (if isArray then (0x13 : UInt8) else 0x14) = x at hs ⊢
  by_cases hlt : bLen < 9
  · rw [if_pos hlt, Option.some.injEq] at hs
    have hdrop : (openHeader h ++ items.flatten).drop 9 = items.flatten := rfl
    have htake : (openHeader h ++ items.flatten).take (1 + bLen) =
        h :: List.replicate bLen 0 := by
      rw [openHeader, List.cons_append, Nat.add_comm, List.take_succ_cons,
        List.take_append_of_le_length]
      · rw [List.take_replicate, Nat.min_eq_left (by omega)]
      · rw [List.length_replicate]
        omega
    have hover := overwrite_append [x] (List.replicate bLen 0) (leb (size + bLen))
      items.flatten (by rw [hroom, List.length_replicate])
    have hback := overwrite_append (x :: (leb (size + bLen) ++ items.flatten))
      (List.replicate (leb items.length).length 0) (leb items.length).reverse []
      (by rw [List.length_reverse, List.length_replicate])
    rw [List.length_cons, List.length_append, hroom,
      show bLen + items.flatten.length + 1 = size + bLen - (leb items.length).length by omega,
      List.append_nil, List.append_nil] at hback
    rw [htake, hdrop, List.cons_append, overwrite_head] at hs
    have hmiddle : overwrite (x :: (List.replicate bLen 0 ++ items.flatten)) 1
        (leb (size + bLen)) = x :: (leb (size + bLen) ++ items.flatten) := by
      rw [List.append_assoc, List.append_assoc] at hover
      exact hover
    rw [hmiddle, hback] at hs
    have hslength : s.length = size + bLen := by
      rw [← hs, List.length_append, List.length_cons, List.length_append, hroom,
        List.length_reverse]
      omega
    constructor
    rw [hslength, ← hs, List.cons_append, List.append_assoc]
  · rw [if_neg hlt] at hs
    cases hs

/-! ### Choosing the layout -/

theorem length_openHeader
    (h : UInt8)
    (items : List Memory) :
    (openHeader h ++ items.flatten).length = 9 + items.flatten.length := by
  rw [openHeader, List.length_append, List.length_cons, List.length_replicate]

/-- No item starts like padding. -/
theorem all_offsets
    (h : UInt8)
    {items : List Memory}
    (hitems : ∀ x ∈ items, IsItem x)
    (k : Nat) :
    ((offsets 9 items).take k).all
      (fun offset => (openHeader h ++ items.flatten).getD offset 0 ≠ 0x00) = true := by
  rw [List.all_eq_true]
  intro offset hoffset
  have hmem := List.mem_of_mem_take hoffset
  rw [offsets_eq_map, List.mem_map] at hmem
  obtain ⟨i, hi, rfl⟩ := hmem
  rw [List.mem_range] at hi
  obtain ⟨b, t, hx, hb⟩ := hitems _ (List.getElem_mem hi)
  have hdrop : (openHeader h ++ items.flatten).drop (9 + (items.take i).flatten.length) =
      b :: (t ++ (items.drop (i + 1)).flatten) := by
    have hnine : (9 : Nat) = (openHeader h).length := rfl
    rw [hnine, List.drop_append, Nat.add_sub_cancel_left, drop_flatten,
      List.drop_eq_getElem_cons hi, List.flatten_cons, hx, List.cons_append,
      List.drop_of_length_le (Nat.le_add_right _ _)]
    rfl
  have hget := congrArg (fun l : Memory => l[0]?) hdrop
  simp only [List.getElem?_drop, Nat.add_zero, List.getElem?_cons_zero] at hget
  rw [List.getD_eq_getElem?_getD, hget]
  simpa using hb

/-- The width and the padding, with what the width has been chosen for. -/
structure Fits (w z size n : Nat) : Prop where
  padding : w = 1 ∧ z = 0 ∨ w = 2 ∧ (z = 0 ∨ z = 4) ∨ w = 4 ∧ z = 0 ∨ w = 8 ∧ z = 0
  one : w = 1 → size + n - 6 ≤ 0xff
  two : w = 2 → size + 2 * n ≤ 0xffff
  four : w = 4 → size + 4 * n ≤ 0xffffffff

theorem Fits.isWidth
    {w z size n : Nat}
    (h : Fits w z size n) :
    IsWidth w := by
  obtain ⟨h, _⟩ | ⟨h, _⟩ | ⟨h, _⟩ | ⟨h, _⟩ := h.padding
  · exact .inl h
  · exact .inr (.inl h)
  · exact .inr (.inr (.inl h))
  · exact .inr (.inr (.inr h))

theorem Fits.indexed
    {w z : Nat}
    {items : List Memory}
    {table : List Nat}
    {head : UInt8}
    {s : Memory}
    (h : Fits w z (9 + items.flatten.length) items.length)
    (htable : table.length = items.length)
    (hlength : s.length < 2 ^ 64)
    (hs : s = (head + widthStep w) ::
      (littleEndian w s.length ++ (countFront w items.length ++ (List.replicate z 0 ++
        (items.flatten ++ (table.flatMap (littleEndian w) ++ countBack w items.length)))))) :
    Indexed s head w z items table := by
  refine ⟨hs, ?_, h.padding⟩
  have hsize := congrArg List.length hs
  rw [List.length_cons, List.length_append, List.length_append, List.length_append,
    List.length_append, List.length_append, length_littleEndian, List.length_replicate,
    length_flatMap_of_forall (length_littleEndian w), htable] at hsize
  obtain ⟨rfl, rfl⟩ | ⟨rfl, hz⟩ | ⟨rfl, rfl⟩ | ⟨rfl, rfl⟩ := h.padding
  · have := h.one rfl
    simp [countFront, countBack, -List.length_flatten] at hsize
    omega
  · have := h.two rfl
    simp [countFront, countBack, -List.length_flatten] at hsize
    omega
  · have := h.four rfl
    simp [countFront, countBack, -List.length_flatten] at hsize
    omega
  · exact hlength

/-- The width that is chosen for a compound with an index table. -/
def tableWidth (size n : Nat) : Nat :=
  if size + n - 6 ≤ 0xff then 1
  else if size + 2 * n ≤ 0xffff then 2
  else if size + 4 * n ≤ 0xffffffff then 4
  else 8

/-- The items are moved down as far as the width and the options allow. -/
theorem tableWidth_fits
    {options : Options}
    (hpadding : options.paddingBehavior ≠ .usePadding)
    {size n d : Nat}
    (hd : d = if tableWidth size n ≤ 2 ∧ (options.paddingBehavior = .noPadding ∨
      tableWidth size n = 1 ∧ options.paddingBehavior = .flexible) then
        1 + 2 * tableWidth size n else 9) :
    ∃ z, Fits (tableWidth size n) z size n ∧ d = dataStart (tableWidth size n) z := by
  rw [tableWidth] at hd ⊢
  by_cases hone : size + n - 6 ≤ 0xff
  · rw [if_pos hone] at hd ⊢
    refine ⟨0, ⟨by simp, fun _ => hone, by simp, by simp⟩, hd.trans ?_⟩
    cases hb : options.paddingBehavior with
    | usePadding => exact absurd hb hpadding
    | noPadding => simp [dataStart]
    | flexible => simp [dataStart]
  · rw [if_neg hone] at hd ⊢
    by_cases htwo : size + 2 * n ≤ 0xffff
    · rw [if_pos htwo] at hd ⊢
      cases hb : options.paddingBehavior with
      | usePadding => exact absurd hb hpadding
      | noPadding =>
          exact ⟨0, ⟨by simp, by simp, fun _ => htwo, by simp⟩, by simp [hd, hb, dataStart]⟩
      | flexible =>
          exact ⟨4, ⟨by simp, by simp, fun _ => htwo, by simp⟩, by simp [hd, hb, dataStart]⟩
    · rw [if_neg htwo] at hd ⊢
      by_cases hfour : size + 4 * n ≤ 0xffffffff
      · rw [if_pos hfour] at hd ⊢
        exact ⟨0, ⟨by simp, by simp, by simp, fun _ => hfour⟩, by simp [hd, dataStart]⟩
      · rw [if_neg hfour] at hd ⊢
        exact ⟨0, ⟨by simp, by simp, by simp, by simp⟩, by simp [hd, dataStart]⟩

theorem objectPlan_fits
    {options : Options}
    (hpadding : options.paddingBehavior ≠ .usePadding)
    (size n : Nat) :
    ∃ z, Fits (objectPlan options size n).offsetSize z size n ∧
      (objectPlan options size n).targetPos =
        dataStart (objectPlan options size n).offsetSize z := by
  refine tableWidth_fits hpadding ?_
  have hfour : tableWidth size n < 4 ↔ tableWidth size n ≤ 2 := by
    rw [tableWidth]
    split_ifs <;> decide
  simp only [← hfour]
  rfl

/-- The plan of an array whose items differ in length. -/
theorem arrayPlan_fits
    {options : Options}
    (hpadding : options.paddingBehavior ≠ .usePadding)
    {items : List Memory}
    (hitems : ∀ x ∈ items, IsItem x)
    {plan : Plan}
    (hplan : plan = arrayPlan options (openHeader 0x06 ++ items.flatten) (offsets 9 items))
    (hneed : plan.needIndexTable = true) :
    plan.head = 0x06 ∧ plan.needNrSubs = true ∧
      ∃ z, Fits plan.offsetSize z (9 + items.flatten.length) items.length ∧
        plan.targetPos = dataStart plan.offsetSize z := by
  have hall := all_offsets 0x06 hitems
  rw [arrayPlan, length_offsets, length_openHeader] at hplan
  generalize (!(decide (items.length = 1) ||
    sameLengths (9 + items.flatten.length) (offsets 9 items))) = need at hplan
  have hneed' : need = true := by
    rw [hplan] at hneed
    exact hneed
  subst hneed'
  simp only [if_true, hall, Bool.not_true, Bool.false_eq_true, false_and, and_false, if_false,
    and_true] at hplan
  subst hplan
  exact ⟨rfl, rfl, tableWidth_fits hpadding rfl⟩

/-- The width and the padding of an array without an index table. -/
structure FitsPlain (w z size : Nat) : Prop where
  padding : w = 1 ∧ z = 0 ∨ w = 2 ∧ (z = 0 ∨ z = 6) ∨ w = 4 ∧ z = 4 ∨ w = 8 ∧ z = 0
  one : w = 1 → size - 7 ≤ 0xff
  two : w = 2 → size ≤ 0xffff
  four : w = 4 → size ≤ 0xffffffff

/-- The width that is chosen for an array without an index table. -/
def plainWidth (size : Nat) : Nat :=
  if size - 7 ≤ 0xff then 1
  else if size ≤ 0xffff then 2
  else if size ≤ 0xffffffff then 4
  else 8

theorem plainWidth_fits
    {options : Options}
    (hpadding : options.paddingBehavior ≠ .usePadding)
    {size d : Nat}
    (hd : d = if plainWidth size ≤ 2 ∧ (options.paddingBehavior = .noPadding ∨
      plainWidth size = 1 ∧ options.paddingBehavior = .flexible) then
        1 + 2 * plainWidth size - plainWidth size else 9) :
    ∃ z, FitsPlain (plainWidth size) z size ∧ d = 1 + plainWidth size + z := by
  rw [plainWidth] at hd ⊢
  by_cases hone : size - 7 ≤ 0xff
  · rw [if_pos hone] at hd ⊢
    refine ⟨0, ⟨by simp, fun _ => hone, by simp, by simp⟩, hd.trans ?_⟩
    cases hb : options.paddingBehavior with
    | usePadding => exact absurd hb hpadding
    | noPadding => simp
    | flexible => simp
  · rw [if_neg hone] at hd ⊢
    by_cases htwo : size ≤ 0xffff
    · rw [if_pos htwo] at hd ⊢
      cases hb : options.paddingBehavior with
      | usePadding => exact absurd hb hpadding
      | noPadding =>
          exact ⟨0, ⟨by simp, by simp, fun _ => htwo, by simp⟩, by simp [hd, hb]⟩
      | flexible =>
          exact ⟨6, ⟨by simp, by simp, fun _ => htwo, by simp⟩, by simp [hd, hb]⟩
    · rw [if_neg htwo] at hd ⊢
      by_cases hfour : size ≤ 0xffffffff
      · rw [if_pos hfour] at hd ⊢
        exact ⟨4, ⟨by simp, by simp, by simp, fun _ => hfour⟩, by simp [hd]⟩
      · rw [if_neg hfour] at hd ⊢
        exact ⟨0, ⟨by simp, by simp, by simp, by simp⟩, by simp [hd]⟩

theorem FitsPlain.unindexed
    {w z : Nat}
    {items : List Memory}
    {s : Memory}
    (h : FitsPlain w z (9 + items.flatten.length))
    (hlength : s.length < 2 ^ 64)
    (hs : s = (0x02 + widthStep w) ::
      (littleEndian w s.length ++ (List.replicate z 0 ++ items.flatten))) :
    Unindexed s w z items := by
  refine ⟨hs, ?_, h.padding⟩
  have hsize := congrArg List.length hs
  rw [List.length_cons, List.length_append, List.length_append, length_littleEndian,
    List.length_replicate] at hsize
  obtain ⟨rfl, rfl⟩ | ⟨rfl, hz⟩ | ⟨rfl, rfl⟩ | ⟨rfl, rfl⟩ := h.padding
  · have := h.one rfl
    omega
  · have := h.two rfl
    omega
  · have := h.four rfl
    omega
  · exact hlength

/-- The plan of an array whose items are of one length. -/
theorem arrayPlan_fitsPlain
    {options : Options}
    (hpadding : options.paddingBehavior ≠ .usePadding)
    {items : List Memory}
    (hitems : ∀ x ∈ items, IsItem x)
    {plan : Plan}
    (hplan : plan = arrayPlan options (openHeader 0x06 ++ items.flatten) (offsets 9 items))
    (hneed : plan.needIndexTable = false) :
    plan.head = 0x02 ∧ plan.needNrSubs = false ∧
      (items.length = 1 ∨
        sameLengths (9 + items.flatten.length) (offsets 9 items) = true) ∧
      ∃ z, FitsPlain plan.offsetSize z (9 + items.flatten.length) ∧
        plan.targetPos = 1 + plan.offsetSize + z := by
  have hall := all_offsets 0x06 hitems
  rw [arrayPlan, length_offsets, length_openHeader] at hplan
  generalize hn : (!(decide (items.length = 1) ||
    sameLengths (9 + items.flatten.length) (offsets 9 items))) = need at hplan
  have hneed' : need = false := by
    rw [hplan] at hneed
    exact hneed
  subst hneed'
  simp only [if_false, hall, Bool.not_false, Bool.false_eq_true, hpadding, and_false, and_true,
    Nat.add_zero] at hplan
  rw [Bool.not_eq_false', Bool.or_eq_true, decide_eq_true_eq] at hn
  subst hplan
  exact ⟨rfl, rfl, hn, plainWidth_fits hpadding rfl⟩

/-! ### Arrays and objects -/

/-- The items are of one length. -/
def OneLength (items : List Memory) : Prop :=
  ∃ k, ∀ x ∈ items, x.length = k

theorem getD_offsets
    {items : List Memory}
    {i : Nat}
    (hi : i < items.length) :
    (offsets 9 items).getD i 0 = 9 + (items.take i).flatten.length := by
  rw [List.getD_eq_getElem?_getD, getElem?_offsets hi, Option.getD_some]

theorem length_flatten_take_succ
    {items : List Memory}
    {i : Nat}
    (hi : i < items.length) :
    (items.take (i + 1)).flatten.length =
      (items.take i).flatten.length + items[i].length := by
  rw [List.take_succ_eq_append_getElem hi, List.flatten_append, List.flatten_singleton,
    List.length_append]

/-- The test of `Builder::closeArray` is right. -/
theorem oneLength_of_sameLengths
    {items : List Memory}
    (h : sameLengths (9 + items.flatten.length) (offsets 9 items) = true) :
    OneLength items := by
  refine ⟨(offsets 9 items).getD 1 0 - (offsets 9 items).getD 0 0, ?_⟩
  intro x hx
  obtain ⟨i, hi, rfl⟩ := List.getElem_of_mem hx
  rw [sameLengths, length_offsets] at h
  simp only [Bool.and_eq_true, decide_eq_true_eq, List.all_eq_true, List.mem_range] at h
  obtain ⟨_, hlast, hmiddle⟩ := h
  have hstep := length_flatten_take_succ hi
  by_cases hend : i + 1 = items.length
  · rw [← hlast, show items.length - 1 = i by omega, getD_offsets hi]
    rw [hend, List.take_length] at hstep
    omega
  · cases i with
    | zero =>
        rw [Nat.zero_add] at hstep
        rw [getD_offsets (by omega), getD_offsets (by omega)]
        omega
    | succ i =>
        rw [← hmiddle i (by omega), getD_offsets (by omega), getD_offsets (by omega), hstep]
        omega

theorem oneLength_of_length_eq_one
    {items : List Memory}
    (h : items.length = 1) :
    OneLength items := by
  obtain ⟨x, rfl⟩ := List.length_eq_one_iff.mp h
  refine ⟨x.length, ?_⟩
  intro y hy
  rw [List.mem_singleton.mp hy]

theorem Fits.le_nine
    {w z size n : Nat}
    (h : Fits w z size n) :
    1 ≤ dataStart w z ∧ dataStart w z ≤ 9 := by
  obtain ⟨rfl, rfl⟩ | ⟨rfl, rfl | rfl⟩ | ⟨rfl, rfl⟩ | ⟨rfl, rfl⟩ := h.padding <;> decide

theorem FitsPlain.le_nine
    {w z size : Nat}
    (h : FitsPlain w z size) :
    1 + w + z ≤ 9 := by
  obtain ⟨rfl, rfl⟩ | ⟨rfl, rfl | rfl⟩ | ⟨rfl, rfl⟩ | ⟨rfl, rfl⟩ := h.padding <;> decide

/-- What `Builder::closeArray` makes of some items. -/
theorem closeArray_layout
    {options : Options}
    (hpadding : options.paddingBehavior ≠ .usePadding)
    {items : List Memory}
    (hitems : ∀ x ∈ items, IsItem x)
    {s : Memory}
    (hs : s = closeArray options (openHeader 0x06 ++ items.flatten) (offsets 9 items))
    (hlength : s.length < 2 ^ 64) :
    (∃ w z, Unindexed s w z items ∧ OneLength items) ∨
      ∃ w z, Indexed s 0x06 w z items (offsets (dataStart w z) items) := by
  rw [closeArray] at hs
  generalize hplan : arrayPlan options (openHeader 0x06 ++ items.flatten) (offsets 9 items) =
    plan at hs
  cases hneed : plan.needIndexTable with
  | false =>
      left
      obtain ⟨hhead, hnrs, hsame, z, hfits, htarget⟩ :=
        arrayPlan_fitsPlain hpadding hitems hplan.symm hneed
      have hle := hfits.le_nine
      rw [moveDown_openHeader plan 0x06 items (by omega) (by omega), htarget] at hs
      have hbytes := finish_unindexed hneed hnrs 0x06 items _ hs
      rw [hhead] at hbytes
      exact ⟨plan.offsetSize, z, hfits.unindexed hlength hbytes,
        hsame.elim oneLength_of_length_eq_one oneLength_of_sameLengths⟩
  | true =>
      right
      obtain ⟨hhead, hnrs, z, hfits, htarget⟩ :=
        arrayPlan_fits hpadding hitems hplan.symm hneed
      obtain ⟨hlow, hhigh⟩ := hfits.le_nine
      rw [moveDown_openHeader plan 0x06 items (by omega) (by omega),
        map_sub_offsets items (by omega), show 9 - (9 - plan.targetPos) = plan.targetPos by omega,
        htarget] at hs
      have hbytes := finish_indexed hneed hnrs hfits.isWidth 0x06 items _
        (length_offsets _ _) hs
      rw [hhead] at hbytes
      exact ⟨plan.offsetSize, z, hfits.indexed (length_offsets _ _) hlength hbytes⟩

theorem length_sortObjectIndex
    [StdSort]
    (objBase : Memory)
    (index : List Nat) :
    (sortObjectIndex objBase index).length = index.length := by
  rw [sortObjectIndex, List.length_map, (StdSort.perm _).length_eq, List.length_map]

/-- What `Builder::close` makes of the members of an object that is not compact. -/
theorem closeObject_layout
    [StdSort]
    {options : Options}
    (hpadding : options.paddingBehavior ≠ .usePadding)
    {items : List Memory}
    {s : Memory}
    (hs : s = closeObject options (openHeader 0x0b ++ items.flatten) (offsets 9 items))
    (hlength : s.length < 2 ^ 64) :
    ∃ w z, Indexed s 0x0b w z items
      (if 2 ≤ items.length then
        sortObjectIndex (blank 0x0b (dataStart w z) items) (offsets (dataStart w z) items)
      else offsets (dataStart w z) items) := by
  rw [closeObject, length_offsets, length_openHeader] at hs
  obtain ⟨z, hfits, htarget⟩ := objectPlan_fits hpadding (9 + items.flatten.length) items.length
  generalize hplan : objectPlan options (9 + items.flatten.length) items.length =
    plan at hs hfits htarget
  obtain ⟨hlow, hhigh⟩ := hfits.le_nine
  rw [moveDown_openHeader plan 0x0b items (by omega) (by omega),
    map_sub_offsets items (by omega), show 9 - (9 - plan.targetPos) = plan.targetPos by omega,
    htarget, length_offsets] at hs
  have hneed : plan.needIndexTable = true := by
    rw [← hplan]
    rfl
  have hnrs : plan.needNrSubs = true := by
    rw [← hplan]
    rfl
  have hhead : plan.head = 0x0b := by
    rw [← hplan]
    rfl
  have htable : (if 2 ≤ items.length then
      sortObjectIndex (blank 0x0b (dataStart plan.offsetSize z) items)
        (offsets (dataStart plan.offsetSize z) items)
      else offsets (dataStart plan.offsetSize z) items).length = items.length := by
    split
    · rw [length_sortObjectIndex, length_offsets]
    · exact length_offsets _ _
  have hbytes := finish_indexed hneed hnrs hfits.isWidth 0x0b items _ htable hs
  rw [hhead] at hbytes
  exact ⟨plan.offsetSize, z, hfits.indexed htable hlength hbytes⟩

/-- A compound that is not empty becomes compact, or else an array or an object. -/
theorem closeCompound_cases
    [StdSort]
    (options : Options)
    (start : Memory)
    {index : List Nat}
    (hindex : index.isEmpty = false)
    {isArray : Bool}
    (harray : (start.getD 0 0 = 0x06 || start.getD 0 0 = 0x13 : Bool) = isArray) :
    closeCompactArrayOrObject start isArray index =
        some (closeCompound options start index) ∨
      closeCompound options start index =
        if isArray then closeArray options start index else closeObject options start index := by
  rw [closeCompound]
  simp only [hindex, harray, Bool.false_eq_true, if_false]
  split
  · rename_i closed heq
    left
    split at heq
    · exact heq
    · cases heq
  · exact .inr rfl

theorem isEmpty_offsets
    {items : List Memory}
    (hne : items ≠ []) :
    (offsets 9 items).isEmpty = false := by
  cases items with
  | nil => exact absurd rfl hne
  | cons x items => rfl

/-- What `Builder::close` makes of an array. -/
theorem closeCompound_array
    [StdSort]
    {options : Options}
    (hpadding : options.paddingBehavior ≠ .usePadding)
    {items : List Memory}
    (hne : items ≠ [])
    (hitems : ∀ x ∈ items, IsItem x)
    {s : Memory}
    (hs : s = closeCompound options (openHeader 0x06 ++ items.flatten) (offsets 9 items))
    (hlength : s.length < 2 ^ 64) :
    Compact s 0x13 items ∨ (∃ w z, Unindexed s w z items ∧ OneLength items) ∨
      ∃ w z, Indexed s 0x06 w z items (offsets (dataStart w z) items) := by
  rcases closeCompound_cases options (openHeader 0x06 ++ items.flatten)
    (isEmpty_offsets hne) (rfl : _ = true) with h | h
  · rw [← hs] at h
    exact .inl (closeCompact_layout h)
  · exact .inr (closeArray_layout hpadding hitems (hs.trans h) hlength)

/-- What `Builder::close` makes of an object. -/
theorem closeCompound_object
    [StdSort]
    {options : Options}
    (hpadding : options.paddingBehavior ≠ .usePadding)
    {items : List Memory}
    (hne : items ≠ [])
    {s : Memory}
    (hs : s = closeCompound options (openHeader 0x0b ++ items.flatten) (offsets 9 items))
    (hlength : s.length < 2 ^ 64) :
    Compact s 0x14 items ∨
      ∃ w z, Indexed s 0x0b w z items
        (if 2 ≤ items.length then
          sortObjectIndex (blank 0x0b (dataStart w z) items) (offsets (dataStart w z) items)
        else offsets (dataStart w z) items) := by
  rcases closeCompound_cases options (openHeader 0x0b ++ items.flatten)
    (isEmpty_offsets hne) (rfl : _ = false) with h | h
  · rw [← hs] at h
    exact .inl (closeCompact_layout h)
  · exact .inr (closeObject_layout hpadding (hs.trans h) hlength)

end VPack
end AgencyNode
