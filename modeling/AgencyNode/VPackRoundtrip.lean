import AgencyNode.VPackLookup
import AgencyNode.Serialization
import AgencyNode.Lib.Utf8

/-!
# From nodes to bytes and back

What `encode` appends for a value takes the bytes it says, and `from_slice` reads
from them a node of the same tree, whatever layouts `close` has chosen.  Objects
are read in the order of their index tables.
-/

namespace AgencyNode
namespace VPack

open Lib Lib.ByteIntegers Lib.Frames

/-! ### Compounds are longer than what is in them -/

theorem Plan.length_le_finish
    (plan : Plan)
    (index : List Nat)
    (start : Memory) :
    start.length ≤ (plan.finish index start).length := by
  have hover : ∀ (s part : Memory) (i : Nat), start.length ≤ s.length →
      start.length ≤ (overwrite s i part).length :=
    fun s part i h => h.trans (length_le_overwrite s i part)
  have hgrow : ∀ (p : Prop) [Decidable p] (s part : Memory), start.length ≤ s.length →
      start.length ≤ (if p then s ++ part else s).length := by
    intro p _ s part h
    split
    · rw [List.length_append]
      exact Nat.le_add_right_of_le h
    · exact h
  rw [Plan.finish]
  split
  · apply hover
    apply hover
    apply hgrow
    apply hover
    exact hgrow _ _ _ (Nat.le_refl _)
  · apply hover
    apply hgrow
    apply hover
    exact hgrow _ _ _ (Nat.le_refl _)

theorem Plan.length_lt_finish_moveDown
    {plan : Plan}
    (hlow : 1 ≤ plan.targetPos)
    (h : UInt8)
    (items : List Memory)
    (index : List Nat) :
    items.flatten.length <
      (plan.finish index (plan.moveDown (openHeader h ++ items.flatten))).length := by
  refine Nat.lt_of_lt_of_le ?_ (plan.length_le_finish index _)
  rw [Plan.moveDown, List.length_append, List.length_take, List.length_drop,
    length_openHeader]
  omega

theorem one_le_arrayPlan
    (options : Options)
    (start : Memory)
    (index : List Nat) :
    1 ≤ (arrayPlan options start index).targetPos := by
  have hpos : ∀ (p q : Prop) [Decidable p] [Decidable q] (w : Nat),
      1 ≤ (if p then 1 + 2 * w - (if q then 0 else w) else 9) := by
    intro p q _ _ w
    split
    · split
      · omega
      · omega
    · omega
  exact hpos _ _ _

theorem one_le_objectPlan
    (options : Options)
    (size n : Nat) :
    1 ≤ (objectPlan options size n).targetPos := by
  have hpos : ∀ (p : Prop) [Decidable p] (w : Nat), 1 ≤ (if p then 1 + 2 * w else 9) := by
    intro p _ w
    split
    · omega
    · omega
  exact hpos _ _

/-- An item takes fewer bytes than the compound around it. -/
theorem length_flatten_lt_closeCompound
    [StdSort]
    (options : Options)
    {h : UInt8}
    (items : List Memory) :
    items.flatten.length <
      (closeCompound options (openHeader h ++ items.flatten) (offsets 9 items)).length := by
  by_cases hne : items = []
  · subst hne
    exact Nat.succ_pos _
  · obtain hcompact | hclosed := closeCompound_cases options (openHeader h ++ items.flatten)
      (isEmpty_offsets hne) rfl
    · have hlength := (closeCompact_layout hcompact).length_eq
      omega
    · rw [hclosed]
      split
      · exact Plan.length_lt_finish_moveDown (one_le_arrayPlan _ _ _) h items _
      · exact Plan.length_lt_finish_moveDown (one_le_objectPlan _ _ _) h items _

theorem length_le_flatten
    {items : List Memory}
    {x : Memory}
    (hx : x ∈ items) :
    x.length ≤ items.flatten.length :=
  (List.sublist_flatten_of_mem hx).length_le

/-! ### Reading one slice -/

theorem exists_head_of_isType
    {s : Memory}
    {t : ValueType}
    (h : Slice.isType s t = .ok true) :
    ∃ b, Slice.head s = .ok b ∧ typeMap b = t := by
  rw [Slice.isType] at h
  cases hhead : Slice.head s with
  | error e =>
      rw [hhead] at h
      cases h
  | ok b =>
      rw [hhead, Read.ok_bind, Read.pure_eq_ok, Except.ok.injEq, decide_eq_true_eq] at h
      exact ⟨b, rfl, h⟩

section Slices

variable {D : Type} [StoredDouble D]

/-- `from_slice` on an array. -/
theorem nodeFromSlice_array
    {s : Memory}
    (h : Slice.isType s .array = .ok true)
    (depth : Nat) :
    Slice.nodeFromSlice (D := D) (depth + 1) s = do
      let members ← ArrayIterator.values s
      let container ← members.mapM fun member => do
        let value ← Slice.nodeFromSlice depth member
        return some value
      return .array container := by
  obtain ⟨b, hhead, htype⟩ := exists_head_of_isType h
  simp [Slice.nodeFromSlice, Slice.isNumber, Slice.isString, Slice.isBool, Slice.isObject,
    Slice.isArray, Slice.isType, hhead, htype]

/-- `from_slice` on an object. -/
theorem nodeFromSlice_object
    {s : Memory}
    (h : Slice.isType s .object = .ok true)
    (depth : Nat) :
    Slice.nodeFromSlice (D := D) (depth + 1) s = do
      let members ← ObjectIterator.pairs s false
      let container ← members.foldlM
        (fun container member => do
          let key ← Slice.copyString member.1
          let value ← Slice.nodeFromSlice depth member.2
          return AssocMap.set container key (some value)) []
      return .object container := by
  obtain ⟨b, hhead, htype⟩ := exists_head_of_isType h
  simp [Slice.nodeFromSlice, Slice.isNumber, Slice.isString, Slice.isBool, Slice.isObject,
    Slice.isType, hhead, htype]

theorem copyString_stringData
    (value : String)
    (hlt : (stringData (FlatStore.bytes value)).length < 2 ^ 64)
    (t : Memory) :
    Slice.copyString (stringData (FlatStore.bytes value) ++ t) = .ok value := by
  rw [Slice.copyString, getString_stringData t hlt, Read.ok_bind, FlatStore.bytes,
    Utf8.fromUTF8?_toUTF8]
  rfl

theorem nodeFromSlice_string
    (value : String)
    (hlt : (stringData (FlatStore.bytes value)).length < 2 ^ 64)
    (depth : Nat)
    (t : Memory) :
    Slice.nodeFromSlice (D := D) (depth + 1) (stringData (FlatStore.bytes value) ++ t) =
      .ok (.string value) := by
  obtain ⟨b, hhead, htype, _⟩ := head_stringData (FlatStore.bytes value) t
  simp [Slice.nodeFromSlice, Slice.isNumber, Slice.isString, Slice.isType, hhead, htype,
    copyString_stringData value hlt]

theorem nodeFromSlice_double
    (v : D)
    (depth : Nat)
    (t : Memory) :
    Slice.nodeFromSlice (depth + 1) (doubleData v ++ t) = .ok (.double v) := by
  have hread : readInteger (doubleData v ++ t) 1 8 = .ok (StoredDouble.bits v) := by
    have hbits : readInteger ([0x1b] ++ (littleEndian 8 (StoredDouble.bits v).toNat ++ t)) 1 8 =
        .ok (UInt64.ofNat (StoredDouble.bits v).toNat) :=
      readInteger_append rfl rfl (UInt64.toNat_lt _)
    rw [UInt64.ofNat_toNat] at hbits
    exact hbits
  have hhead : Slice.head (doubleData v ++ t) = .ok 0x1b := rfl
  have htype : typeMap 0x1b = .double := by decide
  simp [Slice.nodeFromSlice, Slice.isNumber, Slice.getNumber, hhead, htype, hread,
    StoredDouble.ofBits_bits]

end Slices

/-! ### One slice for another -/

section Read

variable {D : Type}

/-- A slice that is read where another one has been written. -/
structure ReadAs (j' j : Json D) : Prop where
  denote_eq : j'.denote = j.denote
  unique : j'.UniqueKeys

theorem ReadAs.refl_of_unique
    {j : Json D}
    (h : j.UniqueKeys) :
    ReadAs j j :=
  ⟨rfl, h⟩

theorem ReadAs.array
    {elements' elements : List (Json D)}
    (h : List.Forall₂ ReadAs elements' elements) :
    ReadAs (.array elements') (.array elements) := by
  have hdenote : Json.denoteElements elements' = Json.denoteElements elements := by
    induction h with
    | nil => rfl
    | cons hhead _ ih => rw [Json.denoteElements, Json.denoteElements, hhead.denote_eq, ih]
  refine ⟨congrArg Tree.array hdenote, ?_⟩
  intro members hbelow
  rcases hbelow with _ | ⟨hs, hbelow⟩ | _
  obtain ⟨i, hi, rfl⟩ := List.getElem_of_mem hs
  have hget := h.get hi (h.length_eq ▸ hi)
  exact hget.unique members hbelow

/-- Members with the same keys, whose values have been read. -/
def MemberReadAs (member' member : String × Json D) : Prop :=
  member'.1 = member.1 ∧ ReadAs member'.2 member.2

theorem MemberReadAs.denoteMembers_eq
    {members' members : List (String × Json D)}
    (h : List.Forall₂ MemberReadAs members' members) :
    Json.denoteMembers members' = Json.denoteMembers members := by
  induction h with
  | nil => rfl
  | @cons a b _ _ hhead _ ih =>
      obtain ⟨key, value⟩ := a
      obtain ⟨key', value'⟩ := b
      obtain ⟨hkey, hvalue⟩ := hhead
      simp only at hkey hvalue
      rw [Json.denoteMembers, Json.denoteMembers, Json.denoteMember, Json.denoteMember, hkey,
        hvalue.denote_eq, ih]

theorem MemberReadAs.keys_eq
    {members' members : List (String × Json D)}
    (h : List.Forall₂ MemberReadAs members' members) :
    members'.map Prod.fst = members.map Prod.fst := by
  induction h with
  | nil => rfl
  | cons hhead _ ih => rw [List.map_cons, List.map_cons, hhead.1, ih]

/-- The order in which the members are read does not matter. -/
theorem ReadAs.object
    {members'' members' members : List (String × Json D)}
    (h : List.Forall₂ MemberReadAs members'' members')
    (hperm : members'.Perm members)
    (hkeys : AssocMap.KeysNodup members) :
    ReadAs (.object members'') (.object members) := by
  have hkeys' : AssocMap.KeysNodup members' := hkeys.of_perm hperm
  refine ⟨?_, ?_⟩
  · rw [Json.denote, Json.denote, MemberReadAs.denoteMembers_eq h]
    congr 1
    funext k
    rw [Json.find_denoteMembers, Json.find_denoteMembers, hkeys'.find_eq_of_perm hkeys hperm k]
  · intro ms hbelow
    rcases hbelow with _ | _ | ⟨hs, hbelow⟩
    · unfold AssocMap.KeysNodup at hkeys' ⊢
      rwa [MemberReadAs.keys_eq h]
    · obtain ⟨i, hi, heq⟩ := List.getElem_of_mem hs
      have hget := h.get hi (h.length_eq ▸ hi)
      rw [List.get_eq_getElem, heq] at hget
      exact hget.2.unique ms hbelow

end Read

/-! ### What is written takes the bytes it says -/

section Roundtrip

variable {D : Type} [StdSort] [StoredDouble D]

/-- The members of an object, as bytes. -/
def entries (options : Options) (members : List (String × Json D)) : List Entry :=
  members.map fun member => (FlatStore.bytes member.1, encode options member.2)

theorem encodeMembers_entries
    (options : Options)
    (members : List (String × Json D)) :
    encodeMembers options members = (entries options members).map Entry.bytes := by
  rw [encodeMembers_eq, entries, List.map_map]
  apply List.map_congr_left
  rintro ⟨key, value⟩ _
  rw [encodeMember]
  rfl

section Written

variable {options : Options}

theorem length_element_lt
    (options : Options)
    {elements : List (Json D)}
    {s : Json D}
    (hs : s ∈ elements) :
    (encode options s).length < (encode options (.array elements)).length := by
  have hmem : encode options s ∈ encodeElements options elements := by
    rw [encodeElements_eq]
    exact List.mem_map_of_mem hs
  rw [encode]
  exact Nat.lt_of_le_of_lt (length_le_flatten hmem) (length_flatten_lt_closeCompound options _)

theorem length_member_lt
    (options : Options)
    {members : List (String × Json D)}
    {member : String × Json D}
    (hs : member ∈ members) :
    (stringData (FlatStore.bytes member.1)).length + (encode options member.2).length <
      (encode options (.object members)).length := by
  have hmem : encodeMember options member ∈ encodeMembers options members := by
    rw [encodeMembers_eq]
    exact List.mem_map_of_mem hs
  have hle := length_le_flatten hmem
  rw [encodeMember, List.length_append] at hle
  rw [encode]
  exact Nat.lt_of_le_of_lt hle (length_flatten_lt_closeCompound options _)

theorem forall_encodeElements
    {elements : List (Json D)}
    (h : ∀ s ∈ elements, Sized (encode options s)) :
    ∀ x ∈ encodeElements options elements, Sized x := by
  intro x hx
  rw [encodeElements_eq] at hx
  obtain ⟨s, hs, rfl⟩ := List.mem_map.mp hx
  exact h s hs

theorem fine_entries
    {members : List (String × Json D)}
    (hlt : (encode options (.object members)).length < 2 ^ 64)
    (h : ∀ member ∈ members, Sized (encode options member.2)) :
    ∀ e ∈ entries options members, e.Fine := by
  intro e he
  obtain ⟨member, hmem, rfl⟩ := List.mem_map.mp he
  have hmember := length_member_lt options hmem
  exact ⟨by dsimp only; omega, h member hmem⟩

theorem encode_array
    (elements : List (Json D)) :
    encode options (.array elements) =
      closeCompound options (openHeader 0x06 ++ (encodeElements options elements).flatten)
        (offsets 9 (encodeElements options elements)) := by
  rw [encode]

theorem encode_object
    (members : List (String × Json D)) :
    encode options (.object members) = closeCompound options
      (openHeader 0x0b ++ ((entries options members).map Entry.bytes).flatten)
      (offsets 9 ((entries options members).map Entry.bytes)) := by
  rw [encode, encodeMembers_entries]

/-- **The size of a value is written in front of it**, in every layout. -/
theorem sized_encode
    (hpadding : options.paddingBehavior ≠ .usePadding)
    {j : Json D}
    (hlt : (encode options j).length < 2 ^ 64) :
    Sized (encode options j) := by
  induction j using Json.induction with
  | null => exact ⟨⟨0x18, [], rfl, by decide⟩, hlt, fun t => rfl⟩
  | bool v =>
      cases v
      · exact ⟨⟨0x19, [], rfl, by decide⟩, hlt, fun t => rfl⟩
      · exact ⟨⟨0x1a, [], rfl, by decide⟩, hlt, fun t => rfl⟩
  | number v =>
      refine ⟨⟨0x1b, _, rfl, by decide⟩, hlt, fun t => ?_⟩
      have hlength : (encode options (.number v)).length = 9 := by
        rw [encode, doubleData, List.length_cons, length_littleEndian]
      rw [hlength]
      rfl
  | string v => exact sized_stringData hlt
  | array elements ih =>
      have hitems := forall_encodeElements fun s hs =>
        ih s hs ((length_element_lt options hs).trans hlt)
      exact (values_closed hpadding hitems (encode_array elements) hlt).1
  | object members ih =>
      have hfine := fine_entries hlt fun member hmem => by
        have hmember := length_member_lt options hmem
        exact ih member hmem (by omega)
      exact (pairs_closed hpadding hfine (encode_object members) hlt).1

theorem length_encode_pos
    (hpadding : options.paddingBehavior ≠ .usePadding)
    {j : Json D}
    (hlt : (encode options j).length < 2 ^ 64) :
    0 < (encode options j).length := by
  obtain ⟨b, t, hitem, _⟩ := (sized_encode hpadding hlt).isItem
  rw [hitem]
  exact Nat.succ_pos _

/-- What `Slice::length` says of what has been written. -/
theorem length_encode
    (hpadding : options.paddingBehavior ≠ .usePadding)
    (t : Memory) :
    (∀ elements : List (Json D), (encode options (.array elements)).length < 2 ^ 64 →
      Slice.length (encode options (.array elements) ++ t) =
        .ok (UInt64.ofNat elements.length)) ∧
    ∀ members : List (String × Json D), (encode options (.object members)).length < 2 ^ 64 →
      Slice.length (encode options (.object members) ++ t) =
        .ok (UInt64.ofNat members.length) := by
  refine ⟨?_, ?_⟩
  · intro elements hlt
    have hitems := forall_encodeElements fun s hs =>
      sized_encode hpadding ((length_element_lt options hs).trans hlt)
    have hlength := length_closed_array hpadding hitems (encode_array elements) hlt t
    rwa [encodeElements_eq, List.length_map] at hlength
  · intro members hlt
    have hlength := length_closed_object hpadding (encode_object members) hlt t
    rwa [List.length_map, entries, List.length_map] at hlength

/-! ### What is read -/

/-- What is written for a value is read as that value, whatever follows. -/
def ReadsBack (options : Options) (depth : Nat) (j : Json D) : Prop :=
  ∀ t, ∃ j', Slice.nodeFromSlice depth (encode options j ++ t) = .ok (Node.ofJson j') ∧
    ReadAs j' j

/-- A loop over an array reads every element. -/
theorem mapM_slicesOf
    {depth : Nat}
    (post : Memory)
    {elements : List (Json D)}
    (h : ∀ s ∈ elements, ReadsBack options depth s) :
    ∃ elements', ((slicesOf post (elements.map (encode options))).mapM fun member => do
        let value ← Slice.nodeFromSlice depth member
        return some value) = .ok (Node.ofElements elements') ∧
      List.Forall₂ ReadAs elements' elements := by
  induction elements with
  | nil => exact ⟨[], rfl, .nil⟩
  | cons element elements ih =>
      obtain ⟨elements', hrest, hread⟩ := ih fun s hs => h s (List.mem_cons_of_mem element hs)
      obtain ⟨element', hfirst, hreadFirst⟩ := h element List.mem_cons_self
        ((elements.map (encode options)).flatten ++ post)
      refine ⟨element' :: elements', ?_, .cons hreadFirst hread⟩
      rw [List.map_cons, slicesOf, List.mapM_cons, hfirst, hrest]
      rfl

/-- A loop over an object reads every member. -/
theorem foldlM_pairs
    {depth : Nat}
    {members : List (String × Json D)}
    (hkey : ∀ member ∈ members, (stringData (FlatStore.bytes member.1)).length < 2 ^ 64)
    (h : ∀ member ∈ members, ReadsBack options depth member.2)
    {l : List (Memory × Memory)}
    (hl : List.Forall₂ Shows l (entries options members))
    (container : NodeObject D) :
    ∃ members', (l.foldlM (fun container member => do
        let key ← Slice.copyString member.1
        let value ← Slice.nodeFromSlice depth member.2
        return AssocMap.set container key (some value)) container) =
        .ok (Node.ofMembers members' container) ∧
      List.Forall₂ MemberReadAs members' members := by
  induction members generalizing l container with
  | nil =>
      cases hl
      exact ⟨[], rfl, .nil⟩
  | cons member members ih =>
      cases hl with
      | @cons p _ l _ hshows hl =>
          obtain ⟨rest, rfl⟩ := hshows
          obtain ⟨value', hvalue, hreadValue⟩ := h member List.mem_cons_self rest
          have hname := copyString_stringData member.1 (hkey member List.mem_cons_self)
            (encode options member.2 ++ rest)
          obtain ⟨members', hrest, hread⟩ := ih
            (fun m hm => hkey m (List.mem_cons_of_mem member hm))
            (fun m hm => h m (List.mem_cons_of_mem member hm)) hl
            (AssocMap.set container member.1 (some (Node.ofJson value')))
          refine ⟨(member.1, value') :: members', ?_, .cons ⟨rfl, hreadValue⟩ hread⟩
          rw [List.foldlM_cons]
          simp only [hname, hvalue, Read.ok_bind, Read.pure_eq_ok]
          exact hrest

theorem readsBack_array
    (hpadding : options.paddingBehavior ≠ .usePadding)
    {elements : List (Json D)}
    (hlt : (encode options (.array elements)).length < 2 ^ 64)
    {depth : Nat}
    (h : ∀ s ∈ elements, ReadsBack options depth s) :
    ReadsBack options (depth + 1) (.array elements) := by
  intro t
  have hitems := forall_encodeElements fun s hs =>
    sized_encode hpadding ((length_element_lt options hs).trans hlt)
  obtain ⟨_, hclosed⟩ := values_closed hpadding hitems (encode_array elements) hlt
  obtain ⟨htype, post, hvalues⟩ := hclosed t
  rw [encodeElements_eq] at hvalues
  obtain ⟨elements', hmap, hread⟩ := mapM_slicesOf post h
  refine ⟨.array elements', ?_, .array hread⟩
  rw [nodeFromSlice_array htype, hvalues, Read.ok_bind, hmap]
  rfl

theorem readsBack_object
    (hpadding : options.paddingBehavior ≠ .usePadding)
    {members : List (String × Json D)}
    (hkeys : AssocMap.KeysNodup members)
    (hlt : (encode options (.object members)).length < 2 ^ 64)
    {depth : Nat}
    (h : ∀ member ∈ members, ReadsBack options depth member.2) :
    ReadsBack options (depth + 1) (.object members) := by
  intro t
  have hmember : ∀ member ∈ members,
      (stringData (FlatStore.bytes member.1)).length < 2 ^ 64 ∧
        Sized (encode options member.2) := by
    intro member hmem
    have hlength := length_member_lt options hmem
    exact ⟨by omega, sized_encode hpadding (by omega)⟩
  have hfine := fine_entries hlt fun member hmem => (hmember member hmem).2
  obtain ⟨_, hpairs⟩ := pairs_closed hpadding hfine (encode_object members) hlt
  obtain ⟨htype, _, l, es, hl, hperm, hshows⟩ := hpairs t
  obtain ⟨members', hperm', rfl⟩ := exists_perm_of_perm_map hperm
  obtain ⟨members'', hfold, hread⟩ := foldlM_pairs
    (fun member hmem => (hmember member (hperm'.mem_iff.mp hmem)).1)
    (fun member hmem => h member (hperm'.mem_iff.mp hmem)) hshows []
  refine ⟨.object members'', ?_, .object hread hperm' hkeys⟩
  rw [nodeFromSlice_object htype, hl, Read.ok_bind, hfold]
  rfl

/-- **What is written for a value is read as a node of the same tree.** -/
theorem readsBack_encode
    (hpadding : options.paddingBehavior ≠ .usePadding)
    {j : Json D}
    (hkeys : j.UniqueKeys)
    (hlt : (encode options j).length < 2 ^ 64)
    {depth : Nat}
    (hdepth : (encode options j).length ≤ depth) :
    ReadsBack options depth j := by
  have hpos := length_encode_pos hpadding hlt
  obtain ⟨depth, rfl⟩ : ∃ d, depth = d + 1 := ⟨depth - 1, by omega⟩
  clear hpos
  induction j using Json.induction generalizing depth with
  | null => exact fun t => ⟨.null, rfl, .refl_of_unique hkeys⟩
  | bool v =>
      intro t
      refine ⟨.bool v, ?_, .refl_of_unique hkeys⟩
      cases v
      · rfl
      · rfl
  | number v => exact fun t => ⟨.number v, nodeFromSlice_double v depth t, .refl_of_unique hkeys⟩
  | string v =>
      exact fun t => ⟨.string v, nodeFromSlice_string v hlt depth t, .refl_of_unique hkeys⟩
  | array elements ih =>
      apply readsBack_array hpadding hlt
      intro s hs
      have hshorter := length_element_lt options hs
      have hpos := length_encode_pos (j := s) hpadding (by omega)
      obtain ⟨depth, rfl⟩ : ∃ d, depth = d + 1 := ⟨depth - 1, by omega⟩
      exact ih s hs (hkeys.element hs) (by omega) depth (by omega)
  | object members ih =>
      apply readsBack_object hpadding (hkeys members .refl) hlt
      intro member hmem
      have hshorter := length_member_lt options hmem
      have hpos := length_encode_pos (j := member.2) hpadding (by omega)
      obtain ⟨depth, rfl⟩ : ∃ d, depth = d + 1 := ⟨depth - 1, by omega⟩
      exact ih member hmem (hkeys.member hmem) (by omega) depth (by omega)

end Written

/--
**A node survives being written to a buffer and read from it**: the calls of
`into_builder` succeed on a new builder, and `from_slice` reads an equal node from
the bytes.
-/
theorem buffer_roundtrip
    [StdHash]
    {options : Options}
    (hpadding : options.paddingBehavior ≠ .usePadding)
    {n : Node D}
    (hn : n.Complete)
    (hkeys : n.DistinctKeys) :
    ∃ s b, n.intoBuilder = .ok s ∧ Builder.addValue options s Builder.empty = .ok b ∧
      (b.buffer.length < 2 ^ 64 → ∀ depth, b.buffer.length ≤ depth → ∀ t,
        ∃ m, Slice.nodeFromSlice depth (b.buffer ++ t) = .ok m ∧ m.Equal n) := by
  obtain ⟨s, hs⟩ := hn.intoBuilder
  obtain ⟨hdenote, hunique⟩ := Node.denote_intoBuilder hkeys hs
  have hempty : Builder.empty.ExpectsValue := rfl
  have hadd := Builder.addValue_eq options s hempty
  refine ⟨s, _, hs, hadd, ?_⟩
  have hbuffer : (Builder.empty.received (encode options s)).buffer = encode options s := rfl
  rw [hbuffer]
  intro hlt depth hdepth t
  obtain ⟨j, hj, hread⟩ := readsBack_encode hpadding hunique hlt hdepth t
  refine ⟨Node.ofJson j, hj, ?_⟩
  exact (Node.denote_ofJson hread.unique).trans (hread.denote_eq.trans hdenote)

end Roundtrip

/-- An array of an empty object and a number. -/
theorem buffer_roundtrip_array :
    letI := constantHash
    letI := stableSort
    letI := storedBits
    let n : Node UInt64 := .array [some (.object []), some (.double 5)]
    ∃ s b m, n.intoBuilder = .ok s ∧ Builder.addValue {} s Builder.empty = .ok b ∧
      Slice.nodeFromSlice 16 b.buffer = .ok m ∧ m.Equal n := by
  let := constantHash
  let := stableSort
  let := storedBits
  intro n
  have hpadding : ({} : Options).paddingBehavior ≠ .usePadding := by
    decide
  have hcomplete : n.Complete := Node.complete_ofJson (.array [.object [], .number 5])
  have hkeys : n.DistinctKeys := Node.distinctKeys_ofJson (.array [.object [], .number 5])
  obtain ⟨s, b, hs, hb, hread⟩ := buffer_roundtrip hpadding hcomplete hkeys
  cases hs
  have hrun : ((Builder.addValue {} (.array [.object [], .number 5] : Json UInt64)
      Builder.empty).map fun b => b.buffer.length) = .ok 15 := by
    decide +kernel
  have hmap := congrArg (Except.map fun b => b.buffer.length) hb
  have hlength : b.buffer.length = 15 := (Except.ok.inj (hrun.symm.trans hmap)).symm
  obtain ⟨m, hm, hequal⟩ := hread (by rw [hlength]; decide) 16 (by rw [hlength]; decide) []
  rw [List.append_nil] at hm
  exact ⟨_, b, m, rfl, hb, hm, hequal⟩

/-! ### Attributes -/

section Attributes

variable {D : Type} [StdSort] [StoredDouble D]

/-- `Slice::get` on what is written for an object. -/
theorem get_encode
    {options : Options}
    (hpadding : options.paddingBehavior ≠ .usePadding)
    {members : List (String × Json D)}
    (hkeys : AssocMap.KeysNodup members)
    (hshort : ∀ member ∈ members, (FlatStore.bytes member.1).length < 2 ^ 31)
    (hlt : (encode options (.object members)).length < 2 ^ 64)
    {key : String}
    (hkey : (FlatStore.bytes key).length < 2 ^ 31)
    (t : Memory) :
    ∃ r, Slice.get (encode options (.object members) ++ t) (FlatStore.bytes key) = .ok r ∧
      ((∃ value rest, AssocMap.find members key = some value ∧
        r = encode options value ++ rest) ∨
      (AssocMap.find members key = none ∧ r = Slice.noneSlice)) := by
  have hfine := fine_entries hlt fun member hmem => by
    have hlength := length_member_lt options hmem
    exact sized_encode hpadding (by omega)
  have hshort' : ∀ e ∈ entries options members, e.1.length < 2 ^ 31 := by
    intro e he
    obtain ⟨member, hmem, rfl⟩ := List.mem_map.mp he
    exact hshort member hmem
  obtain ⟨r, hr, hfound⟩ :=
    get_closed hpadding hfine hshort' (encode_object members) hlt hkey t
  refine ⟨r, hr, ?_⟩
  obtain ⟨value, rest, hmem, hvalue⟩ | ⟨hall, hnone⟩ := hfound
  · left
    obtain ⟨⟨k, v⟩, hmember, heq⟩ := List.mem_map.mp hmem
    obtain ⟨hname, rfl⟩ := Prod.mk.inj heq
    obtain rfl : k = key := Utf8.toUTF8_injective hname
    exact ⟨v, rest, hkeys.find_iff.mpr hmember, hvalue⟩
  · right
    refine ⟨?_, hnone⟩
    rw [AssocMap.find_eq_none_iff]
    intro hmem
    obtain ⟨member, hmember, rfl⟩ := List.mem_map.mp hmem
    exact hall _ (List.mem_map_of_mem hmember) rfl

/--
**An attribute of a written object is the member of the node**: `Slice::get` on
the bytes finds a slice from which `from_slice` reads an equal node, or the slice
of type `None` where the node has no such member.  `Slice::length` counts the
members.
-/
theorem attribute_roundtrip
    [StdHash]
    {options : Options}
    (hpadding : options.paddingBehavior ≠ .usePadding)
    {value : NodeObject D}
    (hn : (Node.object value).Complete)
    (hkeys : (Node.object value).DistinctKeys)
    (hshort : ∀ member ∈ value, (FlatStore.bytes member.1).length < 2 ^ 31) :
    ∃ s b, (Node.object value).intoBuilder = .ok s ∧
      Builder.addValue options s Builder.empty = .ok b ∧
      (b.buffer.length < 2 ^ 64 → ∀ t,
        Slice.length (b.buffer ++ t) = .ok (UInt64.ofNat value.length) ∧
        ∀ depth, b.buffer.length ≤ depth → ∀ key, (FlatStore.bytes key).length < 2 ^ 31 →
          ∃ r, Slice.get (b.buffer ++ t) (FlatStore.bytes key) = .ok r ∧
            (∀ m, AssocMap.find value key = some (some m) →
              ∃ m', Slice.nodeFromSlice depth r = .ok m' ∧ m'.Equal m) ∧
            (AssocMap.find value key = none → r = Slice.noneSlice)) := by
  obtain ⟨s, hs⟩ := hn.intoBuilder
  obtain ⟨hdenote, hunique⟩ := Node.denote_intoBuilder hkeys hs
  obtain ⟨members, hmembers, hobject⟩ := Exec.bind_eq_ok.mp hs
  cases hobject
  have hfind : ∀ k, (AssocMap.find members k).map (fun s => some s.denote) =
      (AssocMap.find value k).map (Option.map Node.denote) := by
    intro k
    rw [Json.denote, Node.denote] at hdenote
    have hk := congrFun (Tree.object.inj hdenote) k
    rwa [Json.find_denoteMembers, Node.denoteMembers_eq, AssocMap.find_map] at hk
  have hnodup := hunique members .refl
  have hshort' : ∀ member ∈ members, (FlatStore.bytes member.1).length < 2 ^ 31 := by
    rintro ⟨k, v⟩ hmem
    have hk := hfind k
    rw [hnodup.find_iff.mpr hmem] at hk
    obtain ⟨c, hc, _⟩ := Option.map_eq_some_iff.mp hk.symm
    exact hshort (k, c) (AssocMap.mem_of_find hc)
  have hempty : Builder.empty.ExpectsValue := rfl
  have hadd := Builder.addValue_eq options (.object members) hempty
  refine ⟨.object members, _, hs, hadd, ?_⟩
  have hbuffer : (Builder.empty.received (encode options (.object members))).buffer =
      encode options (.object members) := rfl
  rw [hbuffer]
  intro hlt t
  have hcount : members.length = value.length := by
    have hperm := ImmerMap.iterate_perm (Node.membersIntoBuilder value)
    rw [Node.buildMembers_eq_ok.mp hmembers, Node.membersIntoBuilder_eq] at hperm
    have hlength := hperm.length_eq
    rwa [List.length_map, List.length_map] at hlength
  refine ⟨hcount ▸ (length_encode hpadding t).2 members hlt, ?_⟩
  intro depth hdepth key hkey
  obtain ⟨r, hr, hcases⟩ := get_encode hpadding hnodup hshort' hlt hkey t
  have hk := hfind key
  refine ⟨r, hr, ?_, ?_⟩
  · intro m hm
    rw [hm] at hk
    obtain ⟨v, hv, heq⟩ := Option.map_eq_some_iff.mp hk
    obtain ⟨v', rest, hv', rfl⟩ | ⟨hnone, _⟩ := hcases
    · obtain rfl : v' = v := Option.some.inj (hv'.symm.trans hv)
      have hmem := AssocMap.mem_of_find hv
      have hlength := length_member_lt options hmem
      dsimp only at hlength
      obtain ⟨j, hj, hread⟩ := readsBack_encode hpadding (hunique.member hmem) (by omega)
        (show (encode options v').length ≤ depth by omega) rest
      refine ⟨Node.ofJson j, hj, ?_⟩
      have hvalue : v'.denote = m.denote := Option.some.inj heq
      exact (Node.denote_ofJson hread.unique).trans (hread.denote_eq.trans hvalue)
    · rw [hnone] at hv
      cases hv
  · intro hm
    rw [hm] at hk
    obtain ⟨v, _, hv, _⟩ | ⟨_, hnone⟩ := hcases
    · rw [hv] at hk
      cases hk
    · exact hnone

end Attributes

/-- An object of which the builder writes an index table. -/
def indexedNode : NodeObject UInt64 :=
  [("c", some (.double 3)), ("a", some (.double 1)), ("e", some .null),
    ("d", some (.double 4)), ("b", some (.string "x"))]

def indexedJson : Json UInt64 :=
  .object [("c", .number 3), ("a", .number 1), ("e", .null), ("d", .number 4),
    ("b", .string "x")]

theorem intoBuilder_indexedNode :
    letI := constantHash
    (Node.object indexedNode).intoBuilder = .ok indexedJson := by
  rfl

/-- One name is found in the index table, and one is not. -/
theorem attribute_roundtrip_member :
    letI := constantHash
    letI := stableSort
    letI := storedBits
    ∃ b r, ∃ m : Node UInt64, (Node.object indexedNode).intoBuilder = .ok indexedJson ∧
      Builder.addValue {} indexedJson Builder.empty = .ok b ∧
      Slice.length b.buffer = .ok 5 ∧
      Slice.get b.buffer (FlatStore.bytes "d") = .ok r ∧
      Slice.nodeFromSlice 64 r = .ok m ∧ m.Equal (.double 4) ∧
      Slice.get b.buffer (FlatStore.bytes "f") = .ok Slice.noneSlice := by
  let := constantHash
  let := stableSort
  let := storedBits
  have hpadding : ({} : Options).paddingBehavior ≠ .usePadding := by
    decide
  have hcomplete : (Node.object indexedNode).Complete :=
    ⟨trivial, trivial, trivial, trivial, trivial, trivial⟩
  have hkeys : (Node.object indexedNode).DistinctKeys := by
    refine ⟨?_, trivial, trivial, trivial, trivial, trivial, trivial⟩
    simp [indexedNode, AssocMap.KeysNodup]
  have hshort : ∀ member ∈ indexedNode, (FlatStore.bytes member.1).length < 2 ^ 31 := by
    have hone : ∀ member ∈ indexedNode, (FlatStore.bytes member.1).length = 1 := by
      decide +kernel
    intro member hmem
    rw [hone member hmem]
    decide
  obtain ⟨s, b, hs, hb, hread⟩ := attribute_roundtrip hpadding hcomplete hkeys hshort
  cases intoBuilder_indexedNode.symm.trans hs
  have hrun : ((Builder.addValue {} indexedJson Builder.empty).map
      fun b => b.buffer.length) = .ok 48 := by
    decide +kernel
  have hmap := congrArg (Except.map fun b => b.buffer.length) hb
  have hlength : b.buffer.length = 48 := (Except.ok.inj (hrun.symm.trans hmap)).symm
  obtain ⟨hcount, hlookup⟩ := hread (by rw [hlength]; decide) []
  rw [List.append_nil] at hcount hlookup
  have hdepth : b.buffer.length ≤ 64 := by
    rw [hlength]
    decide
  obtain ⟨r, hr, hmember, _⟩ := hlookup 64 hdepth "d" (by decide +kernel)
  obtain ⟨r', hr', _, hnone⟩ := hlookup 64 hdepth "f" (by decide +kernel)
  obtain ⟨m, hm, hequal⟩ := hmember (.double 4) rfl
  rw [hnone rfl] at hr'
  exact ⟨b, r, m, hs, hb, hcount, hr, hm, hequal, hr'⟩

end VPack
end AgencyNode
