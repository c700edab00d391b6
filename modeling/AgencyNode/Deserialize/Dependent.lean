import AgencyNode.Deserialize.Deserializer

/-!
# Dispatch on a field

`field_value_dependent` selects a deserializer by the value of one field,
`field_name_dependent` by the first of its names that is a field.  A variant is
a nested sum, and the deserializers come as a list of pairs.
-/

namespace AgencyNode
namespace Deserialize

open Lib

variable {D : Type}

/-! ## field-value-dependent.h -/

/-- A list of `value_deserializer_pair`s. -/
inductive ValueDeserializerPairs (D : Type) : Type → Type 1 where
  | nil : ValueDeserializerPairs D Empty
  | cons
      {α β : Type}
      (value : Value)
      (d : Deserializer D α)
      (vds : ValueDeserializerPairs D β) : ValueDeserializerPairs D (α ⊕ β)

/-- The hints for the deserializer that belongs to a value. -/
def valueHints (name : String) (value : Value) (v : Slice D) : HintList D :=
  [.hasFieldWithValue name value v, .isObject, .hasField name v]

section ValueDependent

variable [Double D]

/-- The deserializer that a value has selected gets true hints. -/
theorem hold_valueHints
    {name : String}
    {value : Value}
    {members : List (String × Json D)}
    (h : value.compare (AssocMap.find members name) = .ok true) :
    (valueHints name value (AssocMap.find members name)).Hold members := by
  intro n v hhint
  simp only [HintList.hintHasFieldWithValue, valueHints, List.any_cons,
    List.any_nil, Bool.or_false, Bool.and_eq_true, beq_iff_eq] at hhint
  obtain ⟨rfl, rfl⟩ := hhint
  exact h

/-- `field_value_dependent_executor`. -/
def fieldValueDependentExecutor
    (name : String) :
    {τ : Type} → ValueDeserializerPairs D τ → Slice D → Slice D → Result τ
  | _, .nil, s, v =>
      if s.isNone then
        reject ("field `" ++ name ++ "` not found")
      else do
        let json ← v.toJson
        throw
          ((DeserializeError.ofMessage
            ("unrecognized value `" ++ json ++ "`")).traceField name)
  | _, .cons value d vds, s, v => do
      if ← value.compare v then
        let a ←
          wrapError
            (fun e =>
              (e.wrap ("with value `" ++ value.toString ++ "`")).annotate name
                value.toString)
            (d (valueHints name value v) s)
        return .inl a
      else
        let b ← fieldValueDependentExecutor name vds s v
        return .inr b

/-- `field_value_dependent`. -/
def fieldValueDependent
    {τ : Type}
    (name : String)
    (vds : ValueDeserializerPairs D τ) : Deserializer D τ :=
  fun _ s => do
    let valueSlice ← s.get name
    wrapError
      (fun e => e.wrap ("when parsing dependently on `" ++ name ++ "`"))
      (fieldValueDependentExecutor name vds s valueSlice)

namespace ValueDeserializerPairs

/-- The first value that compares equal selects the deserializer. -/
def Matches
    (name : String)
    (s v : Slice D) :
    {τ : Type} → ValueDeserializerPairs D τ → τ → Prop
  | _, .cons value d _, .inl a =>
      value.compare v = .ok true ∧ (d (valueHints name value v) s).Accepts a
  | _, .cons value _ vds, .inr b =>
      value.compare v = .ok false ∧ vds.Matches name s v b

/-- A field nothing is known for has to be there, for the error to name it. -/
def Safe
    (name : String)
    (s v : Slice D) :
    {τ : Type} → ValueDeserializerPairs D τ → Prop
  | _, .nil => v.isNone = false
  | _, .cons value d vds =>
      (value.compare v = .ok true →
          (d (valueHints name value v) s).Returns) ∧
        (value.compare v = .ok false → vds.Safe name s v)

end ValueDeserializerPairs

theorem accepts_fieldValueDependentExecutor
    {τ : Type}
    {name : String}
    {vds : ValueDeserializerPairs D τ}
    {s v : Slice D}
    {a : τ} :
    (fieldValueDependentExecutor name vds s v).Accepts a ↔
      vds.Matches name s v a := by
  induction vds with
  | nil =>
      exact a.elim
  | cons value d vds ih =>
      obtain ⟨b, hb⟩ := value.compare_total v
      cases b with
      | true =>
          cases a <;>
            simp [fieldValueDependentExecutor, hb,
              ValueDeserializerPairs.Matches]
      | false =>
          cases a <;>
            simp [fieldValueDependentExecutor, hb, ih,
              ValueDeserializerPairs.Matches]

theorem returns_fieldValueDependentExecutor
    {τ : Type}
    {name : String}
    {vds : ValueDeserializerPairs D τ}
    {s v : Slice D}
    (hs : s.isNone = false) :
    (fieldValueDependentExecutor name vds s v).Returns ↔
      vds.Safe name s v := by
  induction vds with
  | nil =>
      cases v with
      | none =>
          have hv : Slice.isNone (none : Slice D) = true := rfl
          simp [fieldValueDependentExecutor, hs, hv, Slice.toJson,
            ValueDeserializerPairs.Safe]
      | some j =>
          have hv : Slice.isNone (some j) = false := rfl
          simp [fieldValueDependentExecutor, hs, hv, Slice.toJson,
            ValueDeserializerPairs.Safe]
  | cons value d vds ih =>
      obtain ⟨b, hb⟩ := value.compare_total v
      cases b <;>
        simp [fieldValueDependentExecutor, hb, ih, ValueDeserializerPairs.Safe]

/-- Only an object has a field to depend on. -/
theorem accepts_fieldValueDependent
    {τ : Type}
    {name : String}
    {vds : ValueDeserializerPairs D τ}
    {hints : HintList D}
    {s : Slice D}
    {a : τ} :
    (fieldValueDependent name vds hints s).Accepts a ↔
      ∃ v, s.get name = .ok v ∧ vds.Matches name s v a := by
  simp [fieldValueDependent, accepts_fieldValueDependentExecutor]

theorem returns_fieldValueDependent
    {τ : Type}
    {name : String}
    {vds : ValueDeserializerPairs D τ}
    {hints : HintList D}
    {s : Slice D} :
    (fieldValueDependent name vds hints s).Returns ↔
      ∃ v, s.get name = .ok v ∧ vds.Safe name s v := by
  simp only [fieldValueDependent, Outcome.returns_bind, Outcome.returns_lift,
    Outcome.accepts_lift, returns_wrapError]
  constructor
  · rintro ⟨⟨v, hv⟩, h⟩
    obtain ⟨members, rfl, _⟩ := get_eq_ok.mp hv
    exact ⟨v, hv, (returns_fieldValueDependentExecutor rfl).mp (h v hv)⟩
  · rintro ⟨v, hv, h⟩
    refine ⟨⟨v, hv⟩, ?_⟩
    intro v' hv'
    obtain rfl : v = v' := Except.ok.inj (hv.symm.trans hv')
    obtain ⟨members, rfl, _⟩ := get_eq_ok.mp hv
    exact (returns_fieldValueDependentExecutor rfl).mpr h

end ValueDependent

/-! ## field-name-dependent.h -/

/-- A list of `field_name_deserializer_pair`s. -/
inductive FieldNameDeserializerPairs (D : Type) : Type → Type 1 where
  | nil : FieldNameDeserializerPairs D Empty
  | cons
      {α β : Type}
      (name : String)
      (d : Deserializer D α)
      (nds : FieldNameDeserializerPairs D β) :
      FieldNameDeserializerPairs D (α ⊕ β)

/-- The hints for the deserializer that belongs to a name. -/
def nameHints (name : String) (keySlice : Slice D) : HintList D :=
  [.hasField name keySlice]

theorem hold_nameHints
    [Double D]
    {name : String}
    {keySlice : Slice D}
    {members : List (String × Json D)} :
    (nameHints name keySlice).Hold members := by
  intro n v hhint
  simp [HintList.hintHasFieldWithValue, nameHints] at hhint

/-- `field_name_dependent_executor`. -/
def fieldNameDependentExecutor :
    {τ : Type} → FieldNameDeserializerPairs D τ → Slice D → Result τ
  | _, .nil, _ => reject "format not recognized"
  | _, .cons name d nds, s => do
      let keySlice ← s.get name
      if !keySlice.isNone then
        let a ←
          wrapError
            (fun e =>
              (e.wrap
                ("during dependent parse (found field `" ++ name ++
                  "`)")).traceField name)
            (d (nameHints name keySlice) s)
        return .inl a
      else
        let b ← fieldNameDependentExecutor nds s
        return .inr b

/-- `field_name_dependent`. -/
def fieldNameDependent
    {τ : Type}
    (nds : FieldNameDeserializerPairs D τ) : Deserializer D τ :=
  fun _ s => fieldNameDependentExecutor nds s

namespace FieldNameDeserializerPairs

/-- The first name that is a field selects the deserializer. -/
def Matches
    (s : Slice D) :
    {τ : Type} → FieldNameDeserializerPairs D τ → τ → Prop
  | _, .cons name d _, .inl a =>
      ∃ v, s.get name = .ok (some v) ∧
        (d (nameHints name (some v)) s).Accepts a
  | _, .cons name _ nds, .inr b =>
      s.get name = .ok none ∧ nds.Matches s b

/-- The names are looked up in an object, up to the first that is a field. -/
def Safe
    (s : Slice D) :
    {τ : Type} → FieldNameDeserializerPairs D τ → Prop
  | _, .nil => True
  | _, .cons name d nds =>
      (∃ v, s.get name = .ok (some v) ∧
          (d (nameHints name (some v)) s).Returns) ∨
        (s.get name = .ok none ∧ nds.Safe s)

end FieldNameDeserializerPairs

theorem accepts_fieldNameDependent
    {τ : Type}
    {nds : FieldNameDeserializerPairs D τ}
    {hints : HintList D}
    {s : Slice D}
    {a : τ} :
    (fieldNameDependent nds hints s).Accepts a ↔ nds.Matches s a := by
  unfold fieldNameDependent
  induction nds with
  | nil =>
      exact a.elim
  | cons name d nds ih =>
      cases hget : s.get name with
      | error e =>
          cases a <;>
            simp [fieldNameDependentExecutor, hget,
              FieldNameDeserializerPairs.Matches]
      | ok v =>
          cases v <;> cases a <;>
            simp [fieldNameDependentExecutor, hget, ih, Slice.isNone,
              FieldNameDeserializerPairs.Matches]

theorem returns_fieldNameDependent
    {τ : Type}
    {nds : FieldNameDeserializerPairs D τ}
    {hints : HintList D}
    {s : Slice D} :
    (fieldNameDependent nds hints s).Returns ↔ nds.Safe s := by
  unfold fieldNameDependent
  induction nds with
  | nil =>
      simp [fieldNameDependentExecutor, FieldNameDeserializerPairs.Safe]
  | cons name d nds ih =>
      cases hget : s.get name with
      | error e =>
          simp [fieldNameDependentExecutor, hget,
            FieldNameDeserializerPairs.Safe]
      | ok v =>
          cases v <;>
            simp [fieldNameDependentExecutor, hget, ih, Slice.isNone,
              FieldNameDeserializerPairs.Safe]

end Deserialize
end AgencyNode
