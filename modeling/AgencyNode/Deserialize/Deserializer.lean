import AgencyNode.Slice
import AgencyNode.Lib.Outcome

/-!
# deserialize

The parts of the deserializer library every plan is built on: its errors, the
values a field may be compared with, hints, value readers, and the prototype of
a deserializer itself.

A deserializer is the function `deserialize<D, H>` is instantiated to.  The
types `D` and `H` exist at compile time only; of the hint list there remains
what the executors ask it for.
-/

namespace AgencyNode
namespace Deserialize

open Lib

/-! ## errors.h -/

/-- `error::access_type`. -/
inductive AccessType where
  | fieldName (field : String)
  | index (index : Nat)
  /-- `key_value_annotation`. -/
  | keyValue (key value : String)
  | hint (msg : String)
deriving DecidableEq, Repr

/-- `deserialize_error`. -/
structure DeserializeError where
  backtrace : List AccessType
  message : String
deriving DecidableEq, Repr

namespace DeserializeError

/-- The constructor `error(message)`. -/
def ofMessage (message : String) : DeserializeError :=
  ⟨[], message⟩

/-- `trace` of a field name. -/
def traceField (e : DeserializeError) (field : String) : DeserializeError :=
  { e with backtrace := e.backtrace ++ [.fieldName field] }

/-- `trace` of an index. -/
def traceIndex (e : DeserializeError) (index : Nat) : DeserializeError :=
  { e with backtrace := e.backtrace ++ [.index index] }

/-- `annotate`. -/
def annotate (e : DeserializeError) (key value : String) : DeserializeError :=
  { e with backtrace := e.backtrace ++ [.keyValue key value] }

/-- `wrap`. -/
def wrap (e : DeserializeError) (msg : String) : DeserializeError :=
  { e with backtrace := e.backtrace ++ [.hint msg] }

end DeserializeError

/-- `result<T, deserialize_error>`, computed by code that may also throw. -/
abbrev Result (α : Type) := Outcome Fault DeserializeError α

/-- Return a `deserialize_error` with a message and no backtrace. -/
def reject {α : Type} (message : String) : Result α :=
  throw (.ofMessage message)

/-- `result::wrap`. -/
def wrapError
    {α : Type}
    (f : DeserializeError → DeserializeError)
    (r : Result α) : Result α :=
  ExceptT.adapt f r

section Readings

variable {α : Type}

@[simp] theorem not_accepts_reject
    (message : String)
    (a : α) :
    ¬ (reject message : Result α).Accepts a :=
  Outcome.not_accepts_throw _ a

@[simp] theorem rejects_reject
    {message : String}
    {e : DeserializeError} :
    (reject message : Result α).Rejects e ↔ .ofMessage message = e :=
  Outcome.rejects_throw

@[simp] theorem returns_reject
    (message : String) :
    (reject message : Result α).Returns :=
  Outcome.returns_throw _

@[simp] theorem accepts_wrapError
    {f : DeserializeError → DeserializeError}
    {r : Result α}
    {a : α} :
    (wrapError f r).Accepts a ↔ r.Accepts a :=
  Outcome.accepts_adapt

@[simp] theorem rejects_wrapError
    {f : DeserializeError → DeserializeError}
    {r : Result α}
    {e : DeserializeError} :
    (wrapError f r).Rejects e ↔ ∃ e', r.Rejects e' ∧ f e' = e :=
  Outcome.rejects_adapt

@[simp] theorem returns_wrapError
    {f : DeserializeError → DeserializeError}
    {r : Result α} :
    (wrapError f r).Returns ↔ r.Returns :=
  Outcome.returns_adapt

end Readings

variable {D : Type}

/-! ## values.h -/

/-- The values a field may be compared with. -/
inductive Value where
  /-- `numeric_value<double, V>`. -/
  | numericValue (v : Int)
  /-- `string_value<V>`. -/
  | stringValue (v : String)
deriving DecidableEq, Repr

namespace Value

/-- `to_string`. -/
def toString : Value → String
  | .numericValue v => v.repr
  | .stringValue v => v

/-- `value_comparator::compare`. -/
def compare [Double D] (v : Value) (s : Slice D) : Exec Bool :=
  match v with
  | .numericValue v =>
      if s.isNumber then do
        let number ← s.getNumber
        return Double.eq number (Double.ofInt v)
      else
        .ok false
  | .stringValue v =>
      if s.isString then
        s.isEqualString v
      else
        .ok false

theorem compare_stringValue
    [Double D]
    (v : String)
    (s : Slice D) :
    (stringValue v).compare s = .ok true ↔ s = some (.string v) := by
  rcases s with _ | j
  · simp [compare, Slice.isString]
  · cases j with
    | string value =>
        simp [compare, Slice.isString, Slice.isEqualString]
    | _ =>
        simp [compare, Slice.isString]

theorem compare_stringValue_false
    [Double D]
    (v : String)
    (s : Slice D) :
    (stringValue v).compare s = .ok false ↔ s ≠ some (.string v) := by
  rcases s with _ | j
  · simp [compare, Slice.isString]
  · cases j with
    | string value =>
        simp [compare, Slice.isString, Slice.isEqualString]
    | _ =>
        simp [compare, Slice.isString]

/-- A comparison never throws: it looks at the type first. -/
theorem compare_total
    [Double D]
    (v : Value)
    (s : Slice D) :
    ∃ b, v.compare s = .ok b := by
  cases v with
  | numericValue v =>
      rcases s with _ | j
      · exact ⟨_, rfl⟩
      · cases j with
        | number value =>
            exact ⟨Double.eq value (Double.ofInt v), rfl⟩
        | _ =>
            exact ⟨false, rfl⟩
  | stringValue v =>
      rcases s with _ | j
      · exact ⟨_, rfl⟩
      · cases j with
        | string value =>
            exact ⟨value == v, rfl⟩
        | _ =>
            exact ⟨false, rfl⟩

end Value

/-! ## hints.h -/

/-- A hint with its state. -/
inductive Hint (D : Type) where
  | hasField (name : String) (state : Slice D)
  | hasFieldWithValue (name : String) (value : Value) (state : Slice D)
  | isObject

/-- `hint_list` with a value of its `state_type`. -/
abbrev HintList (D : Type) := List (Hint D)

namespace HintList

/-- `hint_is_object`. -/
def hintIsObject (hints : HintList D) : Bool :=
  hints.any fun hint =>
    match hint with
    | .isObject => true
    | _ => false

/-- `hint_list_contains_v<has_field_with_value<N, V>, H>`. -/
def hintHasFieldWithValue
    (hints : HintList D)
    (name : String)
    (value : Value) : Bool :=
  hints.any fun hint =>
    match hint with
    | .hasFieldWithValue n v _ => n == name && v == value
    | _ => false

/-- The hints that make an executor skip a comparison are true. -/
def Hold
    [Double D]
    (hints : HintList D)
    (members : List (String × Json D)) : Prop :=
  ∀ name expected, hints.hintHasFieldWithValue name expected = true →
    expected.compare (AssocMap.find members name) = .ok true

/-- The same hint list with the state `{}`. -/
def withDefaultState (hints : HintList D) : HintList D :=
  hints.map fun hint =>
    match hint with
    | .hasField name _ => .hasField name none
    | .hasFieldWithValue name value _ => .hasFieldWithValue name value none
    | .isObject => .isObject

end HintList

/-! ## Accessors of slices inside their domain -/

section Accessors

theorem get_eq_ok
    {s : Slice D}
    {name : String}
    {v : Slice D} :
    s.get name = .ok v ↔
      ∃ members, s = some (.object members) ∧
        AssocMap.find members name = v := by
  rcases s with _ | j
  · simp [Slice.get, Slice.invalidValueType]
  · cases j with
    | object members =>
        simp [Slice.get]
    | _ =>
        simp [Slice.get, Slice.invalidValueType]

theorem isObject_iff
    {s : Slice D} :
    s.isObject = true ↔ ∃ members, s = some (.object members) := by
  rcases s with _ | j
  · simp [Slice.isObject]
  · cases j <;> simp [Slice.isObject]

theorem isArray_iff
    {s : Slice D} :
    s.isArray = true ↔ ∃ elements, s = some (.array elements) := by
  rcases s with _ | j
  · simp [Slice.isArray]
  · cases j <;> simp [Slice.isArray]

theorem isNone_eq_false_iff
    {s : Slice D} :
    s.isNone = false ↔ ∃ j, s = some j := by
  cases s <;> simp [Slice.isNone]

end Accessors

/-! ## value-reader.h -/

/-- `value_reader<double>::read`. -/
def readDouble (s : Slice D) : Result D :=
  if s.isNumber then
    s.getNumber
  else
    reject "value is not a double"

/-- `value_reader<std::string>::read` and `value_reader<std::string_view>::read`. -/
def readString (s : Slice D) : Result String :=
  if s.isString then
    s.copyString
  else
    reject "value is not a string"

/-- `value_reader<bool>::read`. -/
def readBool (s : Slice D) : Result Bool :=
  if s.isBool then
    s.getBool
  else
    reject "value is not a bool"

section Readers

@[simp] theorem accepts_readDouble
    {s : Slice D}
    {v : D} :
    (readDouble s).Accepts v ↔ s = some (.number v) := by
  rcases s with _ | j
  · simp [readDouble, Slice.isNumber]
  · cases j <;>
      simp [readDouble, Slice.isNumber, Slice.getNumber]

@[simp] theorem accepts_readString
    {s : Slice D}
    {v : String} :
    (readString s).Accepts v ↔ s = some (.string v) := by
  rcases s with _ | j
  · simp [readString, Slice.isString]
  · cases j <;>
      simp [readString, Slice.isString, Slice.copyString]

@[simp] theorem accepts_readBool
    {s : Slice D}
    {v : Bool} :
    (readBool s).Accepts v ↔ s = some (.bool v) := by
  rcases s with _ | j
  · simp [readBool, Slice.isBool]
  · cases j <;>
      simp [readBool, Slice.isBool, Slice.getBool]

@[simp] theorem returns_readDouble
    (s : Slice D) :
    (readDouble s).Returns := by
  rcases s with _ | j
  · simp [readDouble, Slice.isNumber]
  · cases j <;>
      simp [readDouble, Slice.isNumber, Slice.getNumber]

@[simp] theorem returns_readString
    (s : Slice D) :
    (readString s).Returns := by
  rcases s with _ | j
  · simp [readString, Slice.isString]
  · cases j <;>
      simp [readString, Slice.isString, Slice.copyString]

@[simp] theorem returns_readBool
    (s : Slice D) :
    (readBool s).Returns := by
  rcases s with _ | j
  · simp [readBool, Slice.isBool]
  · cases j <;>
      simp [readBool, Slice.isBool, Slice.getBool]

end Readers

/-! ## deserialize-with.h -/

/-- The prototype of every deserializer: `deserialize<D, H>`. -/
abbrev Deserializer (D α : Type) := HintList D → Slice D → Result α

/-- `deserialize_with`: unpack the plan, then call the factory. -/
def fromFactory
    {α β : Type}
    (plan : Deserializer D β)
    (factory : β → Exec α) : Deserializer D α :=
  fun hints s => do
    let planResult ← plan hints s
    factory planResult

@[simp] theorem accepts_fromFactory
    {α β : Type}
    {plan : Deserializer D β}
    {factory : β → Exec α}
    {hints : HintList D}
    {s : Slice D}
    {a : α} :
    (fromFactory plan factory hints s).Accepts a ↔
      ∃ b, (plan hints s).Accepts b ∧ factory b = .ok a := by
  simp [fromFactory]

@[simp] theorem returns_fromFactory
    {α β : Type}
    {plan : Deserializer D β}
    {factory : β → Exec α}
    {hints : HintList D}
    {s : Slice D} :
    (fromFactory plan factory hints s).Returns ↔
      (plan hints s).Returns ∧
        ∀ b, (plan hints s).Accepts b → ∃ a, factory b = .ok a := by
  simp [fromFactory]

/-- `value_deserializer`. -/
def valueDeserializer
    {α : Type}
    (read : Slice D → Result α) : Deserializer D α :=
  fun _ s => read s

end Deserialize
end AgencyNode
