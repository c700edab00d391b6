import AgencyNode.Node

/-!
# node-conditions.h

The conditions a precondition may carry.  `conditionHelper` calls the base
condition for existing nodes only, if the base condition is restricted to a
node type for nodes of that type only, and inverts the result if the base
condition carries the trait `condition_invert`.
-/

namespace AgencyNode

variable {D : Type}

/-- The call operator of a base condition. -/
inductive ConditionBody (D : Type) where
  | all (test : NodePtr D → Exec Bool)
  /--
  `value_condition_only_for<T>`: `none` on the nodes of another type than `T`.
  -/
  | onlyFor (test : Node D → Option (Exec Bool))

/-- A base condition with its traits. -/
structure ConditionBase (D : Type) where
  /-- `condition_default_value<B>`, if the condition specifies a default. -/
  defaultValue : Option Bool
  /-- `condition_invert`. -/
  invert : Bool
  body : ConditionBody D

namespace ConditionBase

/-- `condition_helper::return_default`. -/
def returnDefault (F : ConditionBase D) : Bool :=
  match F.defaultValue with
  | some b => b
  | none => false

/-- `condition_helper::invert_if_required`. -/
def invertIfRequired (F : ConditionBase D) (v : Bool) : Bool :=
  if F.invert then !v else v

/-- `condition_helper::visit_node`. -/
def visitNode (F : ConditionBase D) (node : Node D) : Exec Bool :=
  match F.body with
  | .all test => test (some node)
  | .onlyFor test =>
      match test node with
      | some v => v
      | none => .ok F.returnDefault

/-- `insert_condition_invert_trait`. -/
def insertInvertTrait (F : ConditionBase D) : ConditionBase D :=
  { F with invert := true }

end ConditionBase

/-- `condition_helper`. -/
def conditionHelper (F : ConditionBase D) (node : NodePtr D) : Exec Bool :=
  match node with
  | some n => do
      let v ← F.visitNode n
      return F.invertIfRequired v
  | none => .ok F.returnDefault

/-- `not_condition_adapter`. -/
def notConditionAdapter (F : ConditionBase D) : NodePtr D → Exec Bool :=
  conditionHelper F.insertInvertTrait

section Conditions

variable [StdHash] [Double D]

/-- `value_equals_condition`. -/
def valueEqualsCondition (node : NodePtr D) : ConditionBase D where
  defaultValue := some false
  invert := false
  body := .all fun other => Node.ptrEq node other

/-- `value_in_condition`. -/
def valueInCondition (node : NodePtr D) : ConditionBase D where
  defaultValue := some false
  invert := false
  body := .onlyFor fun n =>
    match n with
    | .array array => some (NodeArray.contains array node)
    | _ => none

/-- `in_condition`. -/
def inCondition (node : NodePtr D) : NodePtr D → Exec Bool :=
  conditionHelper (valueInCondition node)

/-- `not_in_condition`. -/
def notInCondition (node : NodePtr D) : NodePtr D → Exec Bool :=
  notConditionAdapter (valueInCondition node)

/-- `equal_condition`. -/
def equalCondition (node : NodePtr D) : NodePtr D → Exec Bool :=
  conditionHelper (valueEqualsCondition node)

/-- `not_equal_condition`. -/
def notEqualCondition (node : NodePtr D) : NodePtr D → Exec Bool :=
  notConditionAdapter (valueEqualsCondition node)

end Conditions

/-- `is_empty_condition`. -/
def isEmptyCondition (inverted : Bool) (node : NodePtr D) : Exec Bool :=
  .ok (node.isNone != inverted)

end AgencyNode
