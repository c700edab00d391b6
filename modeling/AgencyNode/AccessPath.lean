import AgencyNode.Deserialize.Deserializer

/-!
# Access paths

The entries of a backtrace name the fields and indices by which an error has come
out of the slice.  Read from the last to the first, they are to lead into it.
-/

namespace AgencyNode

open Lib

/-! ## Access paths -/

/-- An entry of an access path. -/
inductive Entry where
  | field (name : String)
  | index (i : Nat)
deriving DecidableEq, Repr

variable {D : Type}

namespace Slice

/-- The entry can be applied to the slice. -/
def Admits (s : Slice D) : Entry → Prop
  | .field _ => s.isObject = true
  | .index _ => s.isArray = true

/-- A member of an object or an element of an array. -/
def Child : Slice D → Entry → Json D → Prop
  | some (.object members), .field name, v => (name, v) ∈ members
  | some (.array elements), .index i, v => elements[i]? = some v
  | _, _, _ => False

/-- The path leads from one slice to another. -/
def Leads : Slice D → List Entry → Slice D → Prop
  | s, [], t => s = t
  | s, x :: p, t => ∃ v, s.Child x v ∧ Leads (some v) p t

/--
Every entry can be applied to the slice it is reached at, and every entry but the
last one leads to a member or an element that exists.
-/
def IsAccessPath : Slice D → List Entry → Prop
  | _, [] => True
  | s, x :: p =>
      s.Admits x ∧ (p = [] ∨ ∃ v, s.Child x v ∧ IsAccessPath (some v) p)

theorem Child.admits
    {s : Slice D}
    {x : Entry}
    {v : Json D}
    (h : s.Child x v) :
    s.Admits x := by
  unfold Child at h
  split at h
  · rfl
  · rfl
  · exact h.elim

theorem child_of_get
    {s : Slice D}
    {name : String}
    {v : Json D}
    (h : s.get name = .ok (some v)) :
    s.Child (.field name) v := by
  obtain ⟨members, rfl, hfind⟩ := Deserialize.get_eq_ok.mp h
  exact AssocMap.mem_of_find hfind

theorem admits_of_get
    {s v : Slice D}
    {name : String}
    (h : s.get name = .ok v)
    (n : String) :
    s.Admits (.field n) := by
  obtain ⟨members, rfl, _⟩ := Deserialize.get_eq_ok.mp h
  rfl

theorem leads_singleton
    {s : Slice D}
    {x : Entry}
    {v : Json D}
    (h : s.Child x v) :
    s.Leads [x] (some v) :=
  ⟨v, h, rfl⟩

/-- A path on from where a path leads to. -/
theorem Leads.isAccessPath_append
    {s t : Slice D}
    {p q : List Entry}
    (h : s.Leads p t)
    (hq : t.IsAccessPath q) :
    s.IsAccessPath (p ++ q) := by
  induction p generalizing s with
  | nil =>
      rw [show s = t from h]
      exact hq
  | cons x p ih =>
      obtain ⟨v, hv, hp⟩ := h
      exact ⟨hv.admits, .inr ⟨v, hv, ih hp⟩⟩

/-- All but the last entry of an access path lead somewhere. -/
theorem exists_leads_of_isAccessPath
    {s : Slice D}
    {p q : List Entry}
    (hq : q ≠ [])
    (h : s.IsAccessPath (p ++ q)) :
    ∃ t, s.Leads p t ∧ t.IsAccessPath q := by
  induction p generalizing s with
  | nil =>
      exact ⟨s, rfl, h⟩
  | cons x p ih =>
      obtain ⟨_, hnil | ⟨v, hv, h⟩⟩ := h
      · exact absurd (List.append_eq_nil_iff.mp hnil).2 hq
      · obtain ⟨t, hleads, ht⟩ := ih h
        exact ⟨t, ⟨v, hv, hleads⟩, ht⟩

theorem Leads.append
    {s t u : Slice D}
    {p q : List Entry}
    (hp : s.Leads p t)
    (hq : t.Leads q u) :
    s.Leads (p ++ q) u := by
  induction p generalizing s with
  | nil =>
      rw [show s = t from hp]
      exact hq
  | cons x p ih =>
      obtain ⟨v, hv, hp⟩ := hp
      exact ⟨v, hv, ih hp⟩

/-- Nothing but the None slice is reached from the None slice. -/
theorem Leads.eq_none
    {t : Slice D}
    {p : List Entry}
    (h : Leads none p t) :
    t = none := by
  cases p with
  | nil => exact h.symm
  | cons x p =>
      obtain ⟨v, hv, _⟩ := h
      exact hv.elim

/-- No entry can be applied to the None slice. -/
theorem isAccessPath_none
    {p : List Entry} :
    IsAccessPath (none : Slice D) p ↔ p = [] := by
  cases p with
  | nil => simp [IsAccessPath]
  | cons x p => cases x <;> simp [IsAccessPath, Admits, isObject, isArray]

end Slice

namespace Deserialize

/-! ## The path of an error -/

/-- Field names and indices are entries, annotations and hints are not. -/
def AccessType.entry : AccessType → Option Entry
  | .fieldName field => some (.field field)
  | .index i => some (.index i)
  | .keyValue _ _ => none
  | .hint _ => none

namespace DeserializeError

/-- The entries of the backtrace in the order `as_string` prints them. -/
def path (e : DeserializeError) : List Entry :=
  e.backtrace.reverse.filterMap AccessType.entry

@[simp] theorem path_ofMessage (message : String) : (ofMessage message).path = [] :=
  rfl

@[simp] theorem path_wrap
    (e : DeserializeError)
    (msg : String) :
    (e.wrap msg).path = e.path := by
  simp [path, wrap, List.filterMap_cons, AccessType.entry]

@[simp] theorem path_annotate
    (e : DeserializeError)
    (key value : String) :
    (e.annotate key value).path = e.path := by
  simp [path, annotate, List.filterMap_cons, AccessType.entry]

@[simp] theorem path_traceField
    (e : DeserializeError)
    (field : String) :
    (e.traceField field).path = .field field :: e.path := by
  simp [path, traceField, AccessType.entry]

@[simp] theorem path_traceIndex
    (e : DeserializeError)
    (i : Nat) :
    (e.traceIndex i).path = .index i :: e.path := by
  simp [path, traceIndex, AccessType.entry]

end DeserializeError

end Deserialize
end AgencyNode
