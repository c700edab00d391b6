import AgencyNode.VPackBuilder

/-!
# What the builder appends

Wherever a value is due, the calls for it append `encode` of the value and enter
its offset into the compound around it.  None of them throws, and what has been
written before stays as it is.
-/

namespace AgencyNode
namespace VPack

open Lib Lib.ByteIntegers Lib.Frames

namespace Builder

variable {D : Type}

/-- A value is due: behind its key in an object, at any time elsewhere. -/
def ExpectsValue (b : Builder) : Prop :=
  b.isOpenObject = b.keyWritten

/-- The builder once it has been given the bytes of a value. -/
def received (bytes : Memory) (b : Builder) : Builder :=
  { (if b.keyWritten then b else b.reportAdd) with
    buffer := b.buffer ++ bytes
    keyWritten := false }

/-- The builder with a compound open that has been given some items. -/
def opened (type : UInt8) (items : List Memory) (b : Builder) : Builder :=
  { buffer := b.buffer ++ (openHeader type ++ items.flatten)
    stack := ⟨b.buffer.length, offsets 9 items⟩ :: b.stack
    keyWritten := false }

/-- The head of an open compound stays, whatever is appended. -/
theorem getD_openHeader
    (front : Memory)
    (type : UInt8)
    (t : Memory) :
    (front ++ (openHeader type ++ t)).getD front.length 0 = type := by
  rw [openHeader, List.getD_eq_getElem?_getD, List.getElem?_append_right (Nat.le_refl _),
    Nat.sub_self]
  rfl

theorem isOpenObject_opened
    (type : UInt8)
    (items : List Memory)
    (b : Builder) :
    (b.opened type items).isOpenObject = objectHead type :=
  congrArg objectHead (getD_openHeader b.buffer type items.flatten)

theorem length_opened
    (type : UInt8)
    (items : List Memory)
    (b : Builder) :
    (b.opened type items).buffer.length - b.buffer.length = 9 + items.flatten.length := by
  rw [opened, openHeader, List.length_append, List.length_append, List.length_cons,
    List.length_replicate]
  omega

theorem received_opened
    (type : UInt8)
    (items : List Memory)
    (bytes : Memory)
    (b : Builder) :
    (b.opened type items).received bytes = b.opened type (items ++ [bytes]) := by
  have hlength := length_opened type items b
  simp only [received, opened, reportAdd, Bool.false_eq_true, if_false] at hlength ⊢
  rw [hlength, offsets_append_singleton, List.flatten_append, List.flatten_singleton,
    List.append_assoc, List.append_assoc]

section Scalars

variable [StoredDouble D]

theorem add_of_expectsValue
    {b : Builder}
    (hb : b.ExpectsValue)
    (sub : Value D) :
    b.add sub = .ok (b.received (scalarData sub)) := by
  obtain ⟨buffer, stack, keyWritten⟩ := b
  cases keyWritten with
  | true =>
      have hin : isOpenObject ⟨buffer, stack, true⟩ = true := hb
      simp [add, set, checkKeyIsString, hin, append, received]
  | false =>
      have hin : (reportAdd ⟨buffer, stack, false⟩).isOpenObject = false := by
        cases stack with
        | nil => rfl
        | cons top rest => exact hb
      have hbuffer : (reportAdd ⟨buffer, stack, false⟩).buffer = buffer := by
        cases stack <;> rfl
      have hkey : (reportAdd ⟨buffer, stack, false⟩).keyWritten = false := by
        cases stack <;> rfl
      simp only [add, set, checkKeyIsString, hin, append, received, Bool.false_eq_true, if_false]
      cases stack <;> rfl

/-- A key is entered into the object, and its value is due. -/
theorem add_key
    (items : List Memory)
    (key : String)
    (b : Builder) :
    ∃ b', (b.opened 0x0b items).add (D := D) (.string key) = .ok b' ∧ b'.ExpectsValue ∧
      ∀ bytes, b'.received bytes =
        b.opened 0x0b (items ++ [stringData (FlatStore.bytes key) ++ bytes]) := by
  have hreported : (b.opened 0x0b items).reportAdd =
      { b.opened 0x0b items with
        stack := ⟨b.buffer.length, offsets 9 items ++ [9 + items.flatten.length]⟩ ::
          b.stack } := by
    have hlength := length_opened 0x0b items b
    simp only [reportAdd, opened] at hlength ⊢
    rw [hlength]
  have hopen : (b.opened 0x0b items).reportAdd.isOpenObject = true := by
    rw [hreported]
    exact isOpenObject_opened 0x0b items b
  refine ⟨⟨b.buffer ++ (openHeader 0x0b ++ (items.flatten ++ stringData (FlatStore.bytes key))),
    ⟨b.buffer.length, offsets 9 items ++ [9 + items.flatten.length]⟩ :: b.stack, true⟩,
    ?_, ?_, ?_⟩
  · have hset : (b.opened 0x0b items).add (D := D) (.string key) =
        set (D := D) (.string key) (b.opened 0x0b items).reportAdd := rfl
    rw [hset, set, checkKeyIsString, hopen, hreported]
    simp [opened, isString, append, scalarData]
  · exact congrArg objectHead (getD_openHeader b.buffer 0x0b _)
  · intro bytes
    simp only [received, opened, if_true, offsets_append_singleton, List.flatten_append,
      List.flatten_singleton, List.append_assoc]

end Scalars

/-- The compound is opened as the value that is due. -/
theorem openCompoundValue_of_expectsValue
    {b : Builder}
    (hb : b.ExpectsValue)
    (type : UInt8) :
    b.openCompoundValue type = .ok ((b.received []).opened type []) := by
  obtain ⟨buffer, stack, keyWritten⟩ := b
  cases stack with
  | nil =>
      have hkey : false = keyWritten := hb
      subst hkey
      simp [openCompoundValue, addCompoundValue, received, opened, reportAdd, offsets]
  | cons top rest =>
      cases keyWritten with
      | true => simp [openCompoundValue, addCompoundValue, received, opened, offsets]
      | false =>
          have hin : isOpenObject ⟨buffer, top :: rest, false⟩ = false := hb
          simp [openCompoundValue, hin, addCompoundValue, received, opened, reportAdd, offsets]

/-- `Builder::close` replaces the open compound by the closed one. -/
theorem close_opened
    [StdSort]
    (options : Options)
    (type : UInt8)
    (items : List Memory)
    (b : Builder) :
    ((b.received []).opened type items).close options =
      .ok (b.received
        (closeCompound options (openHeader type ++ items.flatten) (offsets 9 items))) := by
  simp only [close, opened, List.take_left, List.drop_left, received, List.append_nil]

variable [StdSort] [StoredDouble D]

/-- **The calls for a value append its bytes.** -/
theorem addValue_eq
    (options : Options)
    (j : Json D)
    {b : Builder}
    (hb : b.ExpectsValue) :
    addValue options j b = .ok (b.received (encode options j)) := by
  induction j using Json.induction generalizing b with
  | null => exact add_of_expectsValue hb .nullSlice
  | bool v => exact add_of_expectsValue hb (.bool v)
  | number v => exact add_of_expectsValue hb (.double v)
  | string v => exact add_of_expectsValue hb (.string v)
  | array elements ih =>
      have hrun : ∀ (rest : List (Json D)) (items : List Memory) (b : Builder),
          (∀ s ∈ rest, s ∈ elements) →
          addElements options rest (b.opened 0x06 items) =
            .ok (b.opened 0x06 (items ++ encodeElements options rest)) := by
        intro rest
        induction rest with
        | nil =>
            intro items b _
            rw [addElements, encodeElements, List.append_nil]
        | cons element rest ihrest =>
            intro items b hmem
            have hexpects : (b.opened 0x06 items).ExpectsValue :=
              isOpenObject_opened 0x06 items b
            rw [addElements, ih element (hmem element List.mem_cons_self) hexpects,
              received_opened]
            refine (ihrest _ b fun s hs => hmem s (List.mem_cons_of_mem element hs)).trans ?_
            rw [encodeElements, List.append_assoc, List.singleton_append]
      rw [addValue, openArray, openCompoundValue_of_expectsValue hb]
      have hall := hrun elements [] (b.received []) fun s hs => hs
      rw [List.nil_append] at hall
      have hclose := close_opened options 0x06 (encodeElements options elements) b
      simp only [bind, Except.bind, hall, hclose, encode]
  | object members ih =>
      have hrun : ∀ (rest : List (String × Json D)) (items : List Memory) (b : Builder),
          (∀ member ∈ rest, member ∈ members) →
          addMembers options rest (b.opened 0x0b items) =
            .ok (b.opened 0x0b (items ++ encodeMembers options rest)) := by
        intro rest
        induction rest with
        | nil =>
            intro items b _
            rw [addMembers, encodeMembers, List.append_nil]
        | cons member rest ihrest =>
            intro items b hmem
            obtain ⟨key, value⟩ := member
            obtain ⟨b', hkey, hexpects, hreceived⟩ := add_key (D := D) items key b
            have hvalue := ih (key, value) (hmem _ List.mem_cons_self) hexpects
            have htail := ihrest (items ++ [encodeMember options (key, value)]) b
              fun s hs => hmem s (List.mem_cons_of_mem _ hs)
            rw [encodeMember] at htail
            simp only [addMembers, addMember, bind, Except.bind, hkey, hvalue, hreceived, htail]
            rw [encodeMembers, encodeMember, List.append_assoc, List.singleton_append]
      rw [addValue, openObject, openCompoundValue_of_expectsValue hb]
      have hall := hrun members [] (b.received []) fun s hs => hs
      rw [List.nil_append] at hall
      have hclose := close_opened options 0x0b (encodeMembers options members) b
      simp only [bind, Except.bind, hall, hclose, encode]

end Builder

end VPack
end AgencyNode
