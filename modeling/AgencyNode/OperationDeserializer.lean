import AgencyNode.NodeConditions
import AgencyNode.NodeOperations
import AgencyNode.Deserialize.Containers
import AgencyNode.Deserialize.Dependent
import AgencyNode.Deserialize.ParameterList

/-!
# operation-deserializer.h

The deserializers for the transactions clients send, composed from the plans of
the deserializer library.
-/

namespace AgencyNode

open Lib Deserialize

variable {D : Type} [Double D]

/-! ## Operations -/

def parameterNameDelta : String := "delta"
def parameterNameNew : String := "new"
def parameterNameOp : String := "op"
def parameterNameTtl : String := "ttl"

def parameterOpNameSet : String := "set"
def parameterOpNameIncrement : String := "increment"

/-- `operation_delta_parameter`: optional, with the default value `double{}`. -/
def operationDeltaParameter : Parameter D D :=
  factorySimpleParameter parameterNameDelta readDouble false Double.zero

/-- `operation_ttl_parameter`. -/
def operationTtlParameter : Parameter D D :=
  factorySimpleParameter parameterNameTtl readDouble false Double.zero

/-- `operation_new_parameter`. -/
def operationNewParameter : Parameter D (Slice D) :=
  factorySliceParameter parameterNameNew true

/-- `increment_operation_factory::plan`. -/
def incrementOperationPlan : ParameterList D (D × Unit) :=
  .expectedValue parameterNameOp (.stringValue parameterOpNameIncrement)
    (.value operationDeltaParameter .nil)

/-- `increment_operation_factory`. -/
def incrementOperationFactory : D × Unit → Exec (Transformation D)
  | (delta, _) => .ok (incrementOperator delta)

/-- `set_operation_factory::plan`. -/
def setOperationPlan : ParameterList D (Slice D × D × Unit) :=
  .expectedValue parameterNameOp (.stringValue parameterOpNameSet)
    (.value operationNewParameter (.value operationTtlParameter .nil))

/-- `set_operation_factory`, which does not use the time to live. -/
def setOperationFactory : Slice D × D × Unit → Exec (Transformation D)
  | (value, _, _) => do
      let node ← Node.fromSlice value
      return setOperator node

/-- `agency_operation_factory::plan`. -/
def agencyOperationPlan :
    Deserializer D (Transformation D ⊕ (Transformation D ⊕ Empty)) :=
  fieldValueDependent parameterNameOp
    (.cons (.stringValue parameterOpNameIncrement)
      (fromFactory (parameterList incrementOperationPlan)
        incrementOperationFactory)
      (.cons (.stringValue parameterOpNameSet)
        (fromFactory (parameterList setOperationPlan) setOperationFactory)
        .nil))

/-- `agency_operation_factory`. -/
def agencyOperationFactory :
    Transformation D ⊕ (Transformation D ⊕ Empty) → Exec (Transformation D)
  | .inl v => .ok v
  | .inr (.inl v) => .ok v

/-- `agency_operation_deserialzer`. -/
def agencyOperationDeserialzer : Deserializer D (Transformation D) :=
  fromFactory agencyOperationPlan agencyOperationFactory

/-! ## Preconditions -/

def parameterNameOld : String := "old"
def parameterNameOldNot : String := "oldNot"
def parameterNameOldEmpty : String := "oldEmpty"

/-- `node::fold_operator<bool>`. -/
abbrev Condition (D : Type) := NodePtr D → Exec Bool

variable [StdHash]

/-- `precondition_old_parameter`. -/
def preconditionOldParameter : Parameter D (Slice D) :=
  factorySliceParameter parameterNameOld true

/-- `precondition_old_not_parameter`. -/
def preconditionOldNotParameter : Parameter D (Slice D) :=
  factorySliceParameter parameterNameOldNot true

/-- `precondition_old_empty_parameter`; there is no default value to use. -/
def preconditionOldEmptyParameter : Parameter D Bool :=
  factorySimpleParameter parameterNameOldEmpty readBool true false

/-- `slice_condition_factory`. -/
def sliceConditionFactory
    (constructedType : NodePtr D → Condition D) :
    Slice D × Unit → Exec (Condition D)
  | (s, _) => do
      let node ← Node.fromSlice s
      return constructedType node

/-- `equal_condition_factory`. -/
def equalConditionFactory : Slice D × Unit → Exec (Condition D) :=
  sliceConditionFactory equalCondition

/-- `not_equal_condition_factory`. -/
def notEqualConditionFactory : Slice D × Unit → Exec (Condition D) :=
  sliceConditionFactory notEqualCondition

/-- `old_empty_condition_factory`. -/
def oldEmptyConditionFactory : Bool × Unit → Exec (Condition D)
  | (inverted, _) => .ok (isEmptyCondition inverted)

/-- `agency_precondition_factory::plan`. -/
def agencyPreconditionPlan :
    Deserializer D (Condition D ⊕ (Condition D ⊕ (Condition D ⊕ Empty))) :=
  fieldNameDependent
    (.cons parameterNameOld
      (fromFactory (parameterList (.value preconditionOldParameter .nil))
        equalConditionFactory)
      (.cons parameterNameOldNot
        (fromFactory (parameterList (.value preconditionOldNotParameter .nil))
          notEqualConditionFactory)
        (.cons parameterNameOldEmpty
          (fromFactory
            (parameterList (.value preconditionOldEmptyParameter .nil))
            oldEmptyConditionFactory)
          .nil)))

/-- `agency_precondition_factory`. -/
def agencyPreconditionFactory :
    Condition D ⊕ (Condition D ⊕ (Condition D ⊕ Empty)) → Exec (Condition D)
  | .inl v => .ok v
  | .inr (.inl v) => .ok v
  | .inr (.inr (.inl v)) => .ok v

/-- `agency_precondition_deserialzer`. -/
def agencyPreconditionDeserialzer : Deserializer D (Condition D) :=
  fromFactory agencyPreconditionPlan agencyPreconditionFactory

/-! ## Transactions -/

/-- `agency_transaction`. -/
structure AgencyTransaction (D : Type) where
  operations : List (String × Transformation D)
  preconditions : List (String × Condition D)
  clientId : String

/-- `operation_deserializer`. -/
def operationDeserializer : Deserializer D (List (String × Transformation D)) :=
  mapDeserializer agencyOperationDeserialzer

/-- `precondition_deserializer`. -/
def preconditionDeserializer : Deserializer D (List (String × Condition D)) :=
  mapDeserializer agencyPreconditionDeserialzer

/-- `constructor_factory<agency_transaction>`. -/
def agencyTransactionFactory :
    List (String × Transformation D) × List (String × Condition D) ×
      String × Unit → Exec (AgencyTransaction D)
  | (operations, preconditions, clientId, _) =>
      .ok ⟨operations, preconditions, clientId⟩

/-- The deserializers for the three elements of a transaction. -/
def agencyTransactionElements :
    FixedOrder D
      (List (String × Transformation D) × List (String × Condition D) ×
        String × Unit) :=
  .cons operationDeserializer
    (.cons preconditionDeserializer
      (.cons (valueDeserializer readString) .nil))

/-- `agency_transaction_deserializer`. -/
def agencyTransactionDeserializer : Deserializer D (AgencyTransaction D) :=
  fromFactory (fixedOrderDeserializer agencyTransactionElements)
    agencyTransactionFactory

/-- `agency_envelope_deserializer`. -/
def agencyEnvelopeDeserializer : Deserializer D (List (AgencyTransaction D)) :=
  arrayDeserializer agencyTransactionDeserializer

end AgencyNode
