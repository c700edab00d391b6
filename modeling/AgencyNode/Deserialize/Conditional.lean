import AgencyNode.Deserialize.Deserializer

/-!
# Attributes, conditions and validators

`attribute_deserializer` reads one field, `conditional` selects a deserializer by
a test on the slice, and `validate` checks the value another deserializer has
constructed.
-/

namespace AgencyNode
namespace Deserialize

open Lib

variable {D : Type}

/-! ## True hints -/

/-- What a hint says of a slice. -/
def Hint.TrueOf [Double D] (s : Slice D) : Hint D → Prop
  | .hasField name state => state.isNone = false ∧ s.get name = .ok state
  | .hasFieldWithValue name value _ =>
      ∃ v, s.get name = .ok v ∧ value.compare v = .ok true
  | .isObject => s.isObject = true

namespace HintList

/-- Every hint of the list, with its state, is true of the slice. -/
def TrueOf [Double D] (hints : HintList D) (s : Slice D) : Prop :=
  ∀ hint ∈ hints, hint.TrueOf s

/--
`hint_has_key`, and then `hint_list_state`: the state of the first hint for the
field.
-/
def fieldState (hints : HintList D) (name : String) : Option (Slice D) :=
  hints.findSome? fun hint =>
    match hint with
    | .hasField n state => if n = name then some state else none
    | _ => none

section Truth

variable [Double D] {hints : HintList D} {s : Slice D}

theorem trueOf_nil (s : Slice D) : TrueOf ([] : HintList D) s := by
  intro hint hmem
  cases hmem

theorem TrueOf.isObject
    (h : hints.TrueOf s)
    (hobject : hints.hintIsObject = true) :
    s.isObject = true := by
  obtain ⟨hint, hmem, hhint⟩ := List.any_eq_true.mp hobject
  cases hint with
  | isObject => exact h _ hmem
  | hasField name state => cases hhint
  | hasFieldWithValue name value state => cases hhint

theorem TrueOf.fieldState
    (h : hints.TrueOf s)
    {name : String}
    {state : Slice D}
    (hstate : hints.fieldState name = some state) :
    s.get name = .ok state := by
  obtain ⟨hint, hmem, hhint⟩ := List.exists_of_findSome?_eq_some hstate
  cases hint with
  | isObject => cases hhint
  | hasField n state' =>
      by_cases hname : n = name
      · simp only [hname, if_true, Option.some.injEq] at hhint
        rw [← hname, ← hhint]
        exact (h _ hmem).2
      · simp [hname] at hhint
  | hasFieldWithValue name value state => cases hhint

theorem TrueOf.hasFieldWithValue
    (h : hints.TrueOf s)
    {name : String}
    {value : Value}
    (hvalue : hints.hintHasFieldWithValue name value = true) :
    ∃ v, s.get name = .ok v ∧ value.compare v = .ok true := by
  obtain ⟨hint, hmem, hhint⟩ := List.any_eq_true.mp hvalue
  cases hint with
  | isObject => cases hhint
  | hasField n state => cases hhint
  | hasFieldWithValue n value' state =>
      simp only [Bool.and_eq_true, beq_iff_eq] at hhint
      rw [← hhint.1, ← hhint.2]
      exact h _ hmem

end Truth

end HintList

/-! ## attribute.h -/

/-- `value_slice`: what the hint for the field carries, or the field itself. -/
def attributeSlice
    (name : String)
    (hints : HintList D)
    (s : Slice D) : Exec (Slice D) :=
  match hints.fieldState name with
  | some state => .ok state
  | none => s.get name

/-- `attribute_deserializer`. -/
def attributeDeserializer
    {α : Type}
    (name : String)
    (d : Deserializer D α) : Deserializer D α :=
  fun hints s =>
    if hints.hintIsObject || s.isObject then do
      let valueSlice ← attributeSlice name hints s
      wrapError
        (fun e =>
          (e.wrap ("when reading attribute " ++ name)).traceField name)
        (d [] valueSlice)
    else
      reject "object expected"

theorem rejects_attributeDeserializer
    {α : Type}
    {name : String}
    {d : Deserializer D α}
    {hints : HintList D}
    {s : Slice D}
    {e : DeserializeError} :
    (attributeDeserializer name d hints s).Rejects e ↔
      ((hints.hintIsObject || s.isObject) = false ∧
        .ofMessage "object expected" = e) ∨
      (hints.hintIsObject || s.isObject) = true ∧
        ∃ valueSlice e', attributeSlice name hints s = .ok valueSlice ∧
          (d [] valueSlice).Rejects e' ∧
            (e'.wrap ("when reading attribute " ++ name)).traceField name = e := by
  cases hobject : hints.hintIsObject || s.isObject <;>
    simp [attributeDeserializer, hobject]

/-! ## conditional.h -/

/-- A condition; what it forwards as hints is what its test has found out. -/
structure Condition (D : Type) [Double D] where
  test : Slice D → Bool
  forwardHints : HintList D
  sound : ∀ s, test s = true → forwardHints.withDefaultState.TrueOf s

/-- `is_object_condition`. -/
def isObjectCondition [Double D] : Condition D where
  test := Slice.isObject
  forwardHints := [.isObject]
  sound := by
    intro s hs hint hmem
    obtain rfl := List.mem_singleton.mp hmem
    exact hs

/--
A list of `condition_deserializer_pair`s, which a `conditional_default` may
end.
-/
inductive ConditionDeserializerPairs (D : Type) [Double D] : Type → Type 1 where
  | nil : ConditionDeserializerPairs D Empty
  | cons
      {α β : Type}
      (condition : Condition D)
      (d : Deserializer D α)
      (cds : ConditionDeserializerPairs D β) :
      ConditionDeserializerPairs D (α ⊕ β)
  | conditionalDefault
      {α : Type}
      (d : Deserializer D α) : ConditionDeserializerPairs D (α ⊕ Empty)

section Conditional

variable [Double D]

/-- `conditional_executor`. -/
def conditionalExecutor :
    {τ : Type} → ConditionDeserializerPairs D τ → Slice D → Result τ
  | _, .nil, s => do
      let json ← s.toJson
      reject ("unrecognized value `" ++ json ++ "`")
  | _, .cons condition d cds, s =>
      -- Without `forward_hints` the call of `deserialize_with` is ill-formed.
      if condition.test s then do
        let a ← d condition.forwardHints.withDefaultState s
        return .inl a
      else do
        let b ← conditionalExecutor cds s
        return .inr b
  | _, .conditionalDefault d, s => do
      let a ← d [] s
      return .inl a

/-- `conditional_deserializer`. -/
def conditionalDeserializer
    {τ : Type}
    (cds : ConditionDeserializerPairs D τ) : Deserializer D τ :=
  fun _ s =>
    wrapError
      (fun e => e.wrap "when parsing conditionally")
      (conditionalExecutor cds s)

theorem rejects_conditionalDeserializer
    {τ : Type}
    {cds : ConditionDeserializerPairs D τ}
    {hints : HintList D}
    {s : Slice D}
    {e : DeserializeError} :
    (conditionalDeserializer cds hints s).Rejects e ↔
      ∃ e', (conditionalExecutor cds s).Rejects e' ∧
        e'.wrap "when parsing conditionally" = e :=
  rejects_wrapError

end Conditional

/-! ## validate.h, unpack-proxy.h -/

/-- `validate`. -/
def validate
    {α : Type}
    (d : Deserializer D α)
    (validator : α → Exec (Option DeserializeError)) : Deserializer D α :=
  fun hints s => do
    let value ← d hints s
    let validatorResult ← validator value
    match validatorResult with
    | some e => throw e
    | none => return value

/-- The deserializer rejects the slice, or the validator the value. -/
theorem rejects_validate
    {α : Type}
    {d : Deserializer D α}
    {validator : α → Exec (Option DeserializeError)}
    {hints : HintList D}
    {s : Slice D}
    {e : DeserializeError} :
    (validate d validator hints s).Rejects e ↔
      (d hints s).Rejects e ∨
        ∃ a, (d hints s).Accepts a ∧ validator a = .ok (some e) := by
  simp only [validate, Outcome.rejects_bind, Outcome.not_rejects_lift, false_or,
    Outcome.accepts_lift]
  refine or_congr Iff.rfl (exists_congr fun a => and_congr Iff.rfl ?_)
  constructor
  · rintro ⟨r, hr, h⟩
    cases r with
    | none => simp at h
    | some e' =>
        rw [Outcome.rejects_throw] at h
        rw [hr, h]
  · intro h
    exact ⟨some e, h, Outcome.rejects_throw.mpr rfl⟩

/-- `unpack_proxy`; the pointer it makes stands for the value. -/
def unpackProxy
    {α : Type}
    (d : Deserializer D α) : Deserializer D α :=
  fun hints s => d hints s

/-! ## deserialize-with.h -/

/-- `deserialize_with` for a factory that may return an error. -/
def deserializeWith
    {α β : Type}
    (plan : Deserializer D β)
    (factory : β → Result α) : Deserializer D α :=
  fun hints s => do
    let planResult ← plan hints s
    factory planResult

@[simp] theorem rejects_deserializeWith
    {α β : Type}
    {plan : Deserializer D β}
    {factory : β → Result α}
    {hints : HintList D}
    {s : Slice D}
    {e : DeserializeError} :
    (deserializeWith plan factory hints s).Rejects e ↔
      (plan hints s).Rejects e ∨
        ∃ b, (plan hints s).Accepts b ∧ (factory b).Rejects e :=
  Outcome.rejects_bind

end Deserialize
end AgencyNode
