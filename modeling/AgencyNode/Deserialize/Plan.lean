import AgencyNode.Deserialize.Conditional
import AgencyNode.Deserialize.Containers
import AgencyNode.Deserialize.Dependent
import AgencyNode.Deserialize.ParameterList

/-!
# Composed deserializers

The deserializers that can be composed of the plans of the library.  A
deserializer may refer to itself, through an `unpack_proxy` only: its template
argument is the name of a deserializer.  How often proxies may be nested in one
call is bounded by the size of the stack.
-/

namespace AgencyNode
namespace Deserialize

open Lib

mutual

/--
A deserializer as an expression; `τ n` is the type the deserializer with the name
`n` constructs.
-/
inductive Plan (D : Type) [Double D] {Name : Type} (τ : Name → Type) :
    Type → Type 1 where
  /-- `value_deserializer`. -/
  | value {α : Type} (read : Slice D → Result α) : Plan D τ α
  /-- `map_deserializer`. -/
  | map {α : Type} (d : Plan D τ α) : Plan D τ (List (String × α))
  /-- `array_deserializer`. -/
  | array {α : Type} (d : Plan D τ α) : Plan D τ (List α)
  /-- `fixed_order_deserializer`. -/
  | fixedOrder {α : Type} (ds : FixedOrderPlan D τ α) : Plan D τ α
  /-- `attribute_deserializer`. -/
  | attributeValue {α : Type} (name : String) (d : Plan D τ α) : Plan D τ α
  /-- `parameter_list`. -/
  | parameterList {α : Type} (ps : ParameterListPlan D τ α) : Plan D τ α
  /-- `conditional_deserializer`. -/
  | conditional {α : Type} (cds : ConditionalPlan D τ α) : Plan D τ α
  /-- `field_value_dependent_deserializer`. -/
  | fieldValueDependent
      {α : Type}
      (name : String)
      (vds : ValueDependentPlan D τ α) : Plan D τ α
  /-- `field_name_dependent`. -/
  | fieldNameDependent {α : Type} (nds : NameDependentPlan D τ α) : Plan D τ α
  /-- `validate`. -/
  | validate
      {α : Type}
      (d : Plan D τ α)
      (validator : α → Exec (Option DeserializeError)) : Plan D τ α
  /-- `unpack_proxy`. -/
  | unpackProxy (n : Name) : Plan D τ (τ n)
  /-- A deserializer with another factory. -/
  | withFactory
      {α β : Type}
      (d : Plan D τ β)
      (factory : β → Result α) : Plan D τ α

/-- The deserializers of a `fixed_order_deserializer`. -/
inductive FixedOrderPlan (D : Type) [Double D] {Name : Type} (τ : Name → Type) :
    Type → Type 1 where
  | nil : FixedOrderPlan D τ Unit
  | cons
      {α β : Type}
      (d : Plan D τ α)
      (ds : FixedOrderPlan D τ β) : FixedOrderPlan D τ (α × β)

/-- The parameters of a `parameter_list`. -/
inductive ParameterListPlan (D : Type) [Double D] {Name : Type}
    (τ : Name → Type) : Type → Type 1 where
  | nil : ParameterListPlan D τ Unit
  /-- A parameter that is read by a `value_reader`, or is a slice. -/
  | value
      {α β : Type}
      (p : Parameter D α)
      (ps : ParameterListPlan D τ β) : ParameterListPlan D τ (α × β)
  /-- `factory_deserialized_parameter`, required. -/
  | deserialized
      {α β : Type}
      (name : String)
      (d : Plan D τ α)
      (ps : ParameterListPlan D τ β) : ParameterListPlan D τ (α × β)
  /-- `factory_deserialized_parameter`, not required. -/
  | deserializedOptional
      {α β : Type}
      (name : String)
      (d : Plan D τ α)
      (ps : ParameterListPlan D τ β) : ParameterListPlan D τ (Option α × β)
  /-- `expected_value`. -/
  | expectedValue
      {β : Type}
      (name : String)
      (expected : Value)
      (ps : ParameterListPlan D τ β) : ParameterListPlan D τ β

/-- The alternatives of a `conditional`. -/
inductive ConditionalPlan (D : Type) [Double D] {Name : Type} (τ : Name → Type) :
    Type → Type 1 where
  | nil : ConditionalPlan D τ Empty
  | cons
      {α β : Type}
      (condition : Condition D)
      (d : Plan D τ α)
      (cds : ConditionalPlan D τ β) : ConditionalPlan D τ (α ⊕ β)
  | conditionalDefault {α : Type} (d : Plan D τ α) : ConditionalPlan D τ (α ⊕ Empty)

/-- The alternatives of a `field_value_dependent`. -/
inductive ValueDependentPlan (D : Type) [Double D] {Name : Type}
    (τ : Name → Type) : Type → Type 1 where
  | nil : ValueDependentPlan D τ Empty
  | cons
      {α β : Type}
      (value : Value)
      (d : Plan D τ α)
      (vds : ValueDependentPlan D τ β) : ValueDependentPlan D τ (α ⊕ β)

/-- The alternatives of a `field_name_dependent`. -/
inductive NameDependentPlan (D : Type) [Double D] {Name : Type}
    (τ : Name → Type) : Type → Type 1 where
  | nil : NameDependentPlan D τ Empty
  | cons
      {α β : Type}
      (name : String)
      (d : Plan D τ α)
      (nds : NameDependentPlan D τ β) : NameDependentPlan D τ (α ⊕ β)

end

/-- `deserialize_plan_executor`. -/
structure PlanExecutor (D α : Type) : Type 1 where
  unpack : Deserializer D α

section Execution

variable {D : Type} [Double D] {Name : Type} {τ : Name → Type}

section Executors

variable (proxy : ∀ n, Deserializer D (τ n))

mutual

/-- The executor of a plan; `proxy` is what its proxies call. -/
def Plan.executor : {α : Type} → Plan D τ α → PlanExecutor D α
  | _, .value read => ⟨valueDeserializer read⟩
  | _, .map d => ⟨mapDeserializer d.executor.unpack⟩
  | _, .array d => ⟨arrayDeserializer d.executor.unpack⟩
  | _, .fixedOrder ds => ⟨fixedOrderDeserializer ds.executors⟩
  | _, .attributeValue name d => ⟨attributeDeserializer name d.executor.unpack⟩
  | _, .parameterList ps => ⟨Deserialize.parameterList ps.executors⟩
  | _, .conditional cds => ⟨conditionalDeserializer cds.executors⟩
  | _, .fieldValueDependent name vds =>
      ⟨Deserialize.fieldValueDependent name vds.executors⟩
  | _, .fieldNameDependent nds => ⟨Deserialize.fieldNameDependent nds.executors⟩
  | _, .validate d validator => ⟨Deserialize.validate d.executor.unpack validator⟩
  | _, .unpackProxy n => ⟨Deserialize.unpackProxy (proxy n)⟩
  | _, .withFactory d factory =>
      ⟨deserializeWith d.executor.unpack factory⟩

def FixedOrderPlan.executors :
    {α : Type} → FixedOrderPlan D τ α → FixedOrder D α
  | _, .nil => .nil
  | _, .cons d ds => .cons d.executor.unpack ds.executors

def ParameterListPlan.executors :
    {α : Type} → ParameterListPlan D τ α → ParameterList D α
  | _, .nil => .nil
  | _, .value p ps => .value p ps.executors
  | _, .deserialized name d ps =>
      .value (factoryDeserializedParameter name d.executor.unpack) ps.executors
  | _, .deserializedOptional name d ps =>
      .value (factoryDeserializedParameterOptional name d.executor.unpack)
        ps.executors
  | _, .expectedValue name expected ps =>
      .expectedValue name expected ps.executors

def ConditionalPlan.executors :
    {α : Type} → ConditionalPlan D τ α → ConditionDeserializerPairs D α
  | _, .nil => .nil
  | _, .cons condition d cds => .cons condition d.executor.unpack cds.executors
  | _, .conditionalDefault d => .conditionalDefault d.executor.unpack

def ValueDependentPlan.executors :
    {α : Type} → ValueDependentPlan D τ α → ValueDeserializerPairs D α
  | _, .nil => .nil
  | _, .cons value d vds => .cons value d.executor.unpack vds.executors

def NameDependentPlan.executors :
    {α : Type} → NameDependentPlan D τ α → FieldNameDeserializerPairs D α
  | _, .nil => .nil
  | _, .cons name d nds => .cons name d.executor.unpack nds.executors

end

end Executors

variable (env : ∀ n, Plan D τ (τ n))

/--
The deserializer with the name `n`, on a stack that has room for `depth` nested
proxies.
-/
def deserializeProxy : Nat → ∀ n, Deserializer D (τ n)
  | 0, _ => fun _ _ => liftM (.error .nonTermination : Exec _)
  | depth + 1, n => ((env n).executor (deserializeProxy depth)).unpack

/-- `deserialize<D, H>`. -/
def Plan.deserialize
    {α : Type}
    (plan : Plan D τ α)
    (depth : Nat) : Deserializer D α :=
  (plan.executor (deserializeProxy env depth)).unpack

end Execution

end Deserialize
end AgencyNode
