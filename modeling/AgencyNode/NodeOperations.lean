import AgencyNode.Node

/-!
# node-operations.h

The operators a `transform_action` may carry.  A value operator is turned into
a transformation by `valueOperatorAdapter`, whose behaviour depends on two
traits of the operator: whether it wants a null node to be created where there
is no node, and whether it is restricted to arrays.
-/

namespace AgencyNode

variable {D : Type}

/-- What a value operator computes on the nodes it is called for. -/
inductive ValueOperatorBody (D : Type) where
  | all (apply : Node D → Exec (Node D))
  /-- `value_operator_only_for<node_array>`. -/
  | onlyForArray (apply : NodeArray D → Exec (NodeArray D))

/-- A value operator with its traits. -/
structure ValueOperator (D : Type) where
  /-- `value_operator_no_create_node`. -/
  noCreateNode : Bool
  body : ValueOperatorBody D

/-- `value_operator_adapter::fix_node`. -/
def ValueOperator.fixNode
    (F : ValueOperator D)
    (node : NodePtr D) : NodePtr D :=
  if F.noCreateNode then node else Node.nodeOrNull node

/-- `value_operator_adapter::visit_node`. -/
def ValueOperator.visitNode
    (F : ValueOperator D)
    (node : Node D) : Exec (NodePtr D) :=
  match F.body with
  | .all apply => do
      let v ← apply node
      return some v
  | .onlyForArray apply =>
      match node with
      | .array v => do
          let v ← apply v
          return some (.array v)
      | node => .ok (some node)

/-- `value_operator_adapter`. -/
def valueOperatorAdapter (F : ValueOperator D) : Transformation D :=
  fun node =>
    match F.fixNode node with
    | some actualNode => F.visitNode actualNode
    | none => .ok none

/-- `increment_value_operator`. -/
def incrementValueOperator [Double D] (delta : D) : ValueOperator D where
  noCreateNode := false
  body := .all fun node =>
    match node with
    | .double v => .ok (.double (Double.add v delta))
    | _ => .ok (.double delta)

/-- `push_value_operator`. -/
def pushValueOperator (node : NodePtr D) : ValueOperator D where
  noCreateNode := false
  body := .all fun n =>
    match n with
    | .array array => .ok (.array (NodeArray.push array node))
    | _ => .ok (.array [node])

/-- `prepend_value_operator`. -/
def prependValueOperator (node : NodePtr D) : ValueOperator D where
  noCreateNode := false
  body := .all fun n =>
    match n with
    | .array array => .ok (.array (NodeArray.prepend array node))
    | _ => .ok (.array [node])

/-- `pop_value_operator`. -/
def popValueOperator : ValueOperator D where
  noCreateNode := true
  body := .onlyForArray fun array => .ok (NodeArray.pop array)

/-- `shift_value_operator`. -/
def shiftValueOperator : ValueOperator D where
  noCreateNode := true
  body := .onlyForArray fun array => .ok (NodeArray.shift array)

/-- `erase_value_operator`. -/
def eraseValueOperator
    [StdHash]
    [Double D]
    (node : NodePtr D) : ValueOperator D where
  noCreateNode := true
  body := .onlyForArray fun array => NodeArray.erase node array

/-- `prepend_operator`. -/
def prependOperator (node : NodePtr D) : Transformation D :=
  valueOperatorAdapter (prependValueOperator node)

/-- `push_operator`. -/
def pushOperator (node : NodePtr D) : Transformation D :=
  valueOperatorAdapter (pushValueOperator node)

/-- `pop_operator`. -/
def popOperator : Transformation D :=
  valueOperatorAdapter popValueOperator

/-- `shift_operator`. -/
def shiftOperator : Transformation D :=
  valueOperatorAdapter shiftValueOperator

/-- `increment_operator{delta}`. -/
def incrementOperator [Double D] (delta : D) : Transformation D :=
  valueOperatorAdapter (incrementValueOperator delta)

/-- The default constructed `increment_operator{}`, whose `delta` is `1.0`. -/
def incrementOperatorDefault [Double D] : Transformation D :=
  incrementOperator Double.one

/-- `erase_operator`. -/
def eraseOperator
    [StdHash]
    [Double D]
    (node : NodePtr D) : Transformation D :=
  valueOperatorAdapter (eraseValueOperator node)

/-- `remove_operator`. -/
def removeOperator : Transformation D :=
  fun _ => .ok none

/-- `set_operator`. -/
def setOperator (node : NodePtr D) : Transformation D :=
  fun _ => .ok node

end AgencyNode
