import AgencyNode.Node

/-!
# store.h

`store_base` run by a single client: every call finds the mutexes free, so
they do not occur here.  A call returns the store it leaves behind together
with its result.
-/

namespace AgencyNode

variable {D : Type}

/-- `store_base`. -/
structure StoreBase (D : Type) where
  root : NodePtr D

namespace StoreBase

/-- `store_base::set_internal`. -/
def setInternal (newRoot : NodePtr D) : StoreBase D × NodePtr D :=
  (⟨newRoot⟩, newRoot)

/-- The preconditions of a call, joined by `std::logical_and`. -/
def foldAnd
    (root : NodePtr D)
    (conditions : List (FoldAction D Bool)) : Exec Bool := do
  let root ← root.deref
  root.fold conditions (fun a b => a && b) true

/-- `root->transform(operations)`. -/
def transformRoot
    (root : NodePtr D)
    (operations : List (TransformAction D)) : Exec (NodePtr D) := do
  let root ← root.deref
  root.transform operations

/-- `store_base::transact`. -/
def transact
    (store : StoreBase D)
    (preconditions : List (FoldAction D Bool))
    (operations : List (TransformAction D)) :
    Exec (StoreBase D × NodePtr D) := do
  let preconditionsOk ← foldAnd store.root preconditions
  if preconditionsOk then
    let newRoot ← transformRoot store.root operations
    return setInternal newRoot
  else
    return (store, none)

/-- `store_base::read`. -/
def read (store : StoreBase D) : NodePtr D :=
  store.root

/-- `store_base::check`. -/
def check
    (store : StoreBase D)
    (conditions : List (FoldAction D Bool)) : Exec Bool :=
  foldAnd store.read conditions

/-- `store_base::write`. -/
def write
    (store : StoreBase D)
    (operations : List (TransformAction D)) :
    Exec (StoreBase D × NodePtr D) := do
  let newRoot ← transformRoot store.root operations
  return setInternal newRoot

/-- `store_base::set`. -/
def set (newRoot : NodePtr D) : StoreBase D × NodePtr D :=
  setInternal newRoot

end StoreBase

end AgencyNode
