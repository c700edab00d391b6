import AgencyNode.Completeness
import AgencyNode.Lib.GuardedRun
import AgencyNode.NodeOperations
import AgencyNode.Store

/-!
# The store stays complete

Runs of `write` and `transact` with the operators of the program, starting from
a root built by `from_slice`.  As long as every action that yields `nullptr`
addresses a member of an object that exists, the root is never `nullptr` and
never contains one.  Otherwise it may, as the last theorem shows.
-/

namespace AgencyNode

open Lib

variable {D : Type}

/-- The operators of `node-operations.h` with their arguments. -/
inductive Operation (D : Type) where
  | set (node : NodePtr D)
  | remove
  | increment (delta : D)
  | push (node : NodePtr D)
  | prepend (node : NodePtr D)
  | pop
  | shift
  | erase (node : NodePtr D)

namespace Operation

/-- The node an operation carries, if it carries one, has no `nullptr`. -/
def ArgumentComplete : Operation D → Prop
  | .set node => Node.CompletePtr node
  | .push node => Node.CompletePtr node
  | .prepend node => Node.CompletePtr node
  | .erase node => Node.CompletePtr node
  | _ => True

/-- The operation yields `nullptr` for what it finds at its path. -/
def Deletes : Operation D → NodePtr D → Prop
  | .remove, _ => True
  | .pop, node => node = none
  | .shift, node => node = none
  | .erase _, node => node = none
  | _, _ => False

variable [StdHash] [Double D]

/-- The operator of an operation. -/
def operator : Operation D → Transformation D
  | .set node => setOperator node
  | .remove => removeOperator
  | .increment delta => incrementOperator delta
  | .push node => pushOperator node
  | .prepend node => prependOperator node
  | .pop => popOperator
  | .shift => shiftOperator
  | .erase node => eraseOperator node

/-- The action that applies an operation at a path. -/
def toAction (a : Path × Operation D) : TransformAction D :=
  (a.1, a.2.operator)

end Operation

/-! ## The operators on complete nodes -/

namespace ValueOperator

/-- A value operator returns a complete node for every complete node. -/
def KeepsComplete (F : ValueOperator D) : Prop :=
  match F.body with
  | .all apply =>
      ∀ n : Node D, n.Complete → ∃ m, apply n = .ok m ∧ m.Complete
  | .onlyForArray apply =>
      ∀ value : NodeArray D, (Node.array value).Complete →
        ∃ result, apply value = .ok result ∧ (Node.array result).Complete

theorem KeepsComplete.visitNode
    {F : ValueOperator D}
    (h : F.KeepsComplete)
    {n : Node D}
    (hn : n.Complete) :
    ∃ m, F.visitNode n = .ok (some m) ∧ m.Complete := by
  obtain ⟨noCreateNode, body⟩ := F
  cases body with
  | all apply =>
      obtain ⟨m, hm, hcomplete⟩ := h n hn
      exact ⟨m, by simp [ValueOperator.visitNode, hm], hcomplete⟩
  | onlyForArray apply =>
      cases n with
      | array value =>
          obtain ⟨result, hresult, hcomplete⟩ := h value hn
          exact ⟨.array result, by simp [ValueOperator.visitNode, hresult],
            hcomplete⟩
      | _ =>
          exact ⟨_, rfl, hn⟩

/-- The adapter yields `nullptr` only where no node is to be created. -/
theorem KeepsComplete.adapter
    {F : ValueOperator D}
    (h : F.KeepsComplete)
    {node : NodePtr D}
    (hnode : ∀ n, node = some n → n.Complete) :
    ∃ v, valueOperatorAdapter F node = .ok v ∧
      (∀ m, v = some m → m.Complete) ∧
      (v = none → F.noCreateNode = true ∧ node = none) := by
  cases node with
  | some n =>
      obtain ⟨m, hm, hcomplete⟩ := h.visitNode (hnode n rfl)
      refine ⟨some m, ?_, ?_, by simp⟩
      · cases hcreate : F.noCreateNode <;>
          simp [valueOperatorAdapter, ValueOperator.fixNode, hcreate,
            Node.nodeOrNull, hm]
      · rintro _ ⟨⟩
        exact hcomplete
  | none =>
      cases hcreate : F.noCreateNode with
      | true =>
          exact ⟨none, by simp [valueOperatorAdapter, ValueOperator.fixNode, hcreate],
            by simp, by simp⟩
      | false =>
          obtain ⟨m, hm, hcomplete⟩ := h.visitNode (n := .null) trivial
          refine ⟨some m, ?_, ?_, by simp⟩
          · simp [valueOperatorAdapter, ValueOperator.fixNode, hcreate,
              Node.nodeOrNull, hm]
          · rintro _ ⟨⟩
            exact hcomplete

end ValueOperator

theorem keepsComplete_increment
    [Double D]
    (delta : D) :
    (incrementValueOperator delta).KeepsComplete := by
  intro n _
  cases n <;> exact ⟨_, rfl, trivial⟩

theorem keepsComplete_push
    {node : NodePtr D}
    (hnode : Node.CompletePtr node) :
    (pushValueOperator node).KeepsComplete := by
  intro n hn
  cases n with
  | array value =>
      refine ⟨_, rfl, ?_⟩
      rw [Node.complete_array_iff] at hn ⊢
      intro v hv
      rcases List.mem_append.mp hv with hv | hv
      · exact hn v hv
      · rw [List.mem_singleton.mp hv]
        exact hnode
  | _ =>
      exact ⟨_, rfl, by simpa using hnode⟩

theorem keepsComplete_prepend
    {node : NodePtr D}
    (hnode : Node.CompletePtr node) :
    (prependValueOperator node).KeepsComplete := by
  intro n hn
  cases n with
  | array value =>
      refine ⟨_, rfl, ?_⟩
      rw [Node.complete_array_iff] at hn ⊢
      intro v hv
      rcases List.mem_cons.mp hv with rfl | hv
      · exact hnode
      · exact hn v hv
  | _ =>
      exact ⟨_, rfl, by simpa using hnode⟩

theorem keepsComplete_pop :
    (popValueOperator : ValueOperator D).KeepsComplete := by
  intro value hvalue
  refine ⟨_, rfl, ?_⟩
  rw [Node.complete_array_iff] at hvalue ⊢
  intro v hv
  refine hvalue v ?_
  unfold NodeArray.pop at hv
  split at hv
  · exact hv
  · exact List.mem_of_mem_take hv

theorem keepsComplete_shift :
    (shiftValueOperator : ValueOperator D).KeepsComplete := by
  intro value hvalue
  refine ⟨_, rfl, ?_⟩
  rw [Node.complete_array_iff] at hvalue ⊢
  intro v hv
  refine hvalue v ?_
  unfold NodeArray.shift at hv
  split at hv
  · exact hv
  · exact List.mem_of_mem_drop hv

theorem foldAnd_safe
    {n : Node D}
    {preconditions : List (FoldAction D Bool)}
    (hn : n.Complete)
    (hsafe : ∀ c ∈ preconditions, ∀ node : NodePtr D,
      (∀ m, node = some m → m.Complete) →
        c.2 node ≠ .error .nullptrDereference) :
    StoreBase.foldAnd (some n) preconditions ≠ .error .nullptrDereference := by
  change n.fold preconditions _ true ≠ _
  unfold Node.fold
  generalize true = init
  induction preconditions generalizing init with
  | nil =>
      rintro ⟨⟩
  | cons c preconditions ih =>
      rw [List.foldlM_cons]
      have hc := hsafe c List.mem_cons_self (n.get c.1) (fun m hm => hn.get hm)
      cases hresult : c.2 (n.get c.1) with
      | error e =>
          rw [hresult] at hc
          rintro ⟨⟩
          exact hc rfl
      | ok b =>
          exact ih (fun d hd => hsafe d (List.mem_cons_of_mem _ hd)) _

section Operators

variable [StdHash] [Double D]

theorem keepsComplete_erase
    {node : NodePtr D}
    (hnode : Node.CompletePtr node) :
    (eraseValueOperator node).KeepsComplete := by
  intro value hvalue
  rw [Node.complete_array_iff] at hvalue
  obtain ⟨result, hresult, hmem⟩ := NodeArray.erase_ok fun c hc =>
    Node.CompletePtr.eq node c hnode (hvalue c hc)
  refine ⟨result, hresult, ?_⟩
  rw [Node.complete_array_iff]
  exact fun v hv => hvalue v (hmem hv)

/-- What an operator returns for a complete node or for none. -/
theorem Operation.operator_ok
    {op : Operation D}
    (node : NodePtr D)
    (hop : op.ArgumentComplete)
    (hnode : ∀ n, node = some n → n.Complete) :
    ∃ v, op.operator node = .ok v ∧ (∀ m, v = some m → m.Complete) ∧
      (v = none → op.Deletes node) := by
  have hadapter : ∀ F : ValueOperator D, F.KeepsComplete →
      (F.noCreateNode = true → node = none → op.Deletes node) →
      ∃ v, valueOperatorAdapter F node = .ok v ∧
        (∀ m, v = some m → m.Complete) ∧ (v = none → op.Deletes node) := by
    intro F hF hdeletes
    obtain ⟨v, hv, hcomplete, hnone⟩ := hF.adapter hnode
    exact ⟨v, hv, hcomplete, fun h => hdeletes (hnone h).1 (hnone h).2⟩
  cases op with
  | set carried =>
      obtain ⟨m, rfl, hm⟩ := Node.CompletePtr.exists_node hop
      refine ⟨some m, rfl, ?_, by simp⟩
      rintro _ ⟨⟩
      exact hm
  | remove =>
      exact ⟨none, rfl, by simp, fun _ => trivial⟩
  | increment delta =>
      exact hadapter _ (keepsComplete_increment delta)
        (fun h => absurd h Bool.false_ne_true)
  | push carried =>
      exact hadapter _ (keepsComplete_push hop)
        (fun h => absurd h Bool.false_ne_true)
  | prepend carried =>
      exact hadapter _ (keepsComplete_prepend hop)
        (fun h => absurd h Bool.false_ne_true)
  | pop =>
      exact hadapter _ keepsComplete_pop (fun _ h => h)
  | shift =>
      exact hadapter _ keepsComplete_shift (fun _ h => h)
  | erase carried =>
      exact hadapter _ (keepsComplete_erase hop) (fun _ h => h)

/-! ## Calls -/

/-- A call that modifies the store. -/
inductive Call (D : Type) where
  | write (operations : List (Path × Operation D))
  | transact
      (preconditions : List (FoldAction D Bool))
      (operations : List (Path × Operation D))

/-- One round of the loop of `node::transform` with an operation. -/
def operationStep
    (n : Node D)
    (cur : NodePtr D)
    (a : Path × Operation D) : Exec (NodePtr D) :=
  n.transformStep cur (Operation.toAction a)

/--
The condition on one action: a `nullptr` it yields is written to a member of an
object that exists.  The operator reads the tree `n` from before the call, the
result is written into `cur`.
-/
def ActionMeets (n : Node D) (cur : NodePtr D) (a : Path × Operation D) : Prop :=
  a.2.ArgumentComplete ∧
    (a.2.Deletes (n.get a.1) → ∃ c, cur = some c ∧ c.ParentIsObject a.1)

/-- Every action of a call meets the condition in the tree it is applied to. -/
def OperationsMeet (n : Node D) (operations : List (Path × Operation D)) : Prop :=
  Guarded (operationStep n) (ActionMeets n) (some n) operations

namespace Call

/-- Run a call. -/
def execute (store : StoreBase D) : Call D → Exec (StoreBase D)
  | .write operations => do
      let result ← store.write (operations.map Operation.toAction)
      return result.1
  | .transact preconditions operations => do
      let result ← store.transact preconditions (operations.map Operation.toAction)
      return result.1

/-- The condition on one call; it concerns the operations that are applied. -/
def Meets (store : StoreBase D) : Call D → Prop
  | .write operations =>
      ∀ n, store.root = some n → OperationsMeet n operations
  | .transact preconditions operations =>
      ∀ n, store.root = some n →
        StoreBase.foldAnd store.root preconditions = .ok true →
          OperationsMeet n operations

/-- The preconditions do not dereference `nullptr` on complete nodes. -/
def PreconditionsSafe : Call D → Prop
  | .write _ => True
  | .transact preconditions _ =>
      ∀ c ∈ preconditions, ∀ node : NodePtr D,
        (∀ n, node = some n → n.Complete) →
          c.2 node ≠ .error .nullptrDereference

end Call

/-- Run the calls one after the other. -/
def run (store : StoreBase D) (calls : List (Call D)) : Exec (StoreBase D) :=
  calls.foldlM Call.execute store

/--
For canonical paths the condition on a call can be read off the tree before the
call: no action of the call takes the parent of another one away.
-/
theorem operationsMeet_of_canonical
    {n : Node D}
    {operations : List (Path × Operation D)}
    (hcanonical : ∀ a ∈ operations, CanonicalPath a.1)
    (hpairwise : operations.Pairwise
      (fun a b => Container.Incomparable a.1 b.1))
    (hmeets : ∀ a ∈ operations, a.2.ArgumentComplete ∧
      (a.2.Deletes (n.get a.1) → n.ParentIsObject a.1)) :
    OperationsMeet n operations := by
  have hrun : ∀ cur : Node D,
      (∀ a ∈ operations, a.2.ArgumentComplete ∧
        (a.2.Deletes (n.get a.1) → cur.ParentIsObject a.1)) →
      Guarded (operationStep n) (ActionMeets n) (some cur) operations := by
    clear hmeets
    induction operations with
    | nil =>
        intro cur _
        exact guarded_nil _
    | cons a operations ih =>
        intro cur hcur
        obtain ⟨ha, hpairwise⟩ := List.pairwise_cons.mp hpairwise
        obtain ⟨hargument, hparent⟩ := hcur a List.mem_cons_self
        have hcanonicalTail : ∀ b ∈ operations, CanonicalPath b.1 :=
          fun b hb => hcanonical b (List.mem_cons_of_mem _ hb)
        refine guarded_cons ⟨hargument, fun h => ⟨cur, rfl, hparent h⟩⟩ ?_
        intro s hs
        have hs : (a.2.operator (n.get a.1) >>= cur.set a.1) = .ok s := hs
        obtain ⟨v, _, hset⟩ := Exec.bind_eq_ok.mp hs
        cases operations with
        | nil =>
            exact guarded_nil _
        | cons b operations =>
            have hacanonical := hcanonical a List.mem_cons_self
            obtain ⟨m, hm, _⟩ := cur.set_eq_some a.1 v
              (hacanonical.inBounds.indexUse _) (ha b List.mem_cons_self).ne_nil
            rw [hm] at hset
            cases hset
            refine ih hcanonicalTail hpairwise m ?_
            intro d hd
            obtain ⟨hargument', hparent'⟩ := hcur d (List.mem_cons_of_mem _ hd)
            exact ⟨hargument', fun h => (hparent' h).set (hcanonicalTail d hd)
              hacanonical (ha d hd) hm⟩
  exact hrun n hmeets

theorem transformRoot_some
    (n : Node D)
    (operations : List (Path × Operation D)) :
    StoreBase.transformRoot (some n) (operations.map Operation.toAction) =
      operations.foldlM (operationStep n) (some n) := by
  change n.transform _ = _
  rw [Node.transform, List.foldlM_map]
  rfl

/-- **One action** that meets the condition keeps the tree complete. -/
theorem operationStep_complete
    {n : Node D}
    {cur : NodePtr D}
    {a : Path × Operation D}
    (hn : n.Complete)
    (hcur : Node.CompletePtr cur)
    (hmeets : ActionMeets n cur a) :
    (∀ r, operationStep n cur a = .ok r → Node.CompletePtr r) ∧
      ∀ e, operationStep n cur a = .error e → e = .nonTermination := by
  obtain ⟨c, rfl, hc⟩ := hcur.exists_node
  obtain ⟨v, hv, hcomplete, hdeletes⟩ :=
    Operation.operator_ok (n.get a.1) hmeets.1 (fun m hm => hn.get hm)
  have hstep : operationStep n (some c) a = c.set a.1 v := by
    change (a.2.operator (n.get a.1) >>= fun value => c.set a.1 value) = _
    rw [hv]
    rfl
  rw [hstep]
  refine ⟨?_, fun e he => Node.set_error he⟩
  intro r hr
  refine hc.set hcomplete ?_ hr
  intro hnone
  obtain ⟨c', hc', hparent⟩ := hmeets.2 (hdeletes hnone)
  cases hc'
  exact hparent

/-- One `transform` whose actions meet the condition keeps the tree complete. -/
theorem transformRoot_complete
    {n : Node D}
    {operations : List (Path × Operation D)}
    (hn : n.Complete)
    (hmeets : OperationsMeet n operations) :
    (∀ r, StoreBase.transformRoot (some n)
        (operations.map Operation.toAction) = .ok r → Node.CompletePtr r) ∧
      ∀ e, StoreBase.transformRoot (some n)
        (operations.map Operation.toAction) = .error e → e = .nonTermination := by
  rw [transformRoot_some]
  refine hmeets.invariant Node.CompletePtr (fun e => e = .nonTermination) ?_ ?_ hn
  · intro cur a r hcur ha hr
    exact (operationStep_complete hn hcur ha).1 r hr
  · intro cur a e hcur ha he
    exact (operationStep_complete hn hcur ha).2 e he

/-- **One call** that meets the condition keeps the store complete. -/
theorem execute_complete
    {store : StoreBase D}
    {call : Call D}
    (hstore : Node.CompletePtr store.root)
    (hmeets : call.Meets store) :
    (∀ store', call.execute store = .ok store' →
        Node.CompletePtr store'.root) ∧
      (call.PreconditionsSafe →
        call.execute store ≠ .error .nullptrDereference) := by
  obtain ⟨root⟩ := store
  obtain ⟨n, rfl, hn⟩ := hstore.exists_node
  cases call with
  | write operations =>
      obtain ⟨hok, herror⟩ := transformRoot_complete hn (hmeets n rfl)
      simp only [Call.execute, StoreBase.write]
      cases htransform : StoreBase.transformRoot (some n)
          (operations.map Operation.toAction) with
      | error e =>
          rw [herror e htransform]
          exact ⟨by rintro _ ⟨⟩, by rintro _ ⟨⟩⟩
      | ok r =>
          refine ⟨?_, by rintro _ ⟨⟩⟩
          rintro _ ⟨⟩
          exact hok r htransform
  | transact preconditions operations =>
      simp only [Call.execute, StoreBase.transact]
      cases hfold : StoreBase.foldAnd (some n) preconditions with
      | error e =>
          refine ⟨by rintro _ ⟨⟩, ?_⟩
          rintro hsafe ⟨⟩
          exact foldAnd_safe hn hsafe hfold
      | ok b =>
          cases b with
          | false =>
              refine ⟨?_, by rintro _ ⟨⟩⟩
              rintro _ ⟨⟩
              exact hn
          | true =>
              obtain ⟨hok, herror⟩ :=
                transformRoot_complete hn (hmeets n rfl hfold)
              simp only [Exec.ok_bind, if_true]
              cases htransform : StoreBase.transformRoot (some n)
                  (operations.map Operation.toAction) with
              | error e =>
                  rw [herror e htransform]
                  exact ⟨by rintro _ ⟨⟩, by rintro _ ⟨⟩⟩
              | ok r =>
                  refine ⟨?_, by rintro _ ⟨⟩⟩
                  rintro _ ⟨⟩
                  exact hok r htransform

/--
**The store stays complete** along every run of calls that meet the condition,
so that the root can be converted and compared after each of them, and printed
unless a number in it has no JSON text.
-/
theorem run_complete
    (s : Slice D)
    (root : NodePtr D)
    (calls : List (Call D))
    (hroot : Node.fromSlice s = .ok root)
    (hcalls : Guarded Call.execute Call.Meets ⟨root⟩ calls) :
    (∀ store, run ⟨root⟩ calls = .ok store →
      ∃ n, store.root = some n ∧ n.Complete ∧
        (∃ json, n.intoBuilder = .ok json) ∧
        (∀ e, n.print = .error e → e = .exception .noJsonEquivalent) ∧
        ∀ m : Node D, m.Complete →
          (∃ b, n.eq m = .ok b) ∧ ∃ b, m.eq n = .ok b) ∧
    ((∀ call ∈ calls, call.PreconditionsSafe) →
      run ⟨root⟩ calls ≠ .error .nullptrDereference) := by
  have hcomplete : Node.CompletePtr root := by
    cases s with
    | none =>
        cases hroot
    | some json =>
        cases hroot
        exact Node.complete_ofJson json
  refine ⟨?_, ?_⟩
  · intro store hstore
    obtain ⟨hinv, _⟩ := hcalls.invariant
      (fun store : StoreBase D => Node.CompletePtr store.root)
      (fun _ => True)
      (fun store call store' hs hm hrun =>
        (execute_complete hs hm).1 store' hrun)
      (fun _ _ _ _ _ _ => trivial) hcomplete
    obtain ⟨n, hn, hcomplete'⟩ := (hinv store hstore).exists_node
    exact ⟨n, hn, hcomplete', hcomplete'.intoBuilder, fun _ => hcomplete'.print,
      fun m hm => ⟨Node.Complete.eq n m hcomplete' hm,
        Node.Complete.eq m n hm hcomplete'⟩⟩
  · intro hsafe hfault
    have hguarded : Guarded Call.execute
        (fun store call => call.Meets store ∧ call.PreconditionsSafe)
        ⟨root⟩ calls :=
      hcalls.mono (fun _ call hmem hmeets => ⟨hmeets, hsafe call hmem⟩)
    obtain ⟨_, herror⟩ := hguarded.invariant
      (fun store : StoreBase D => Node.CompletePtr store.root)
      (fun e => e ≠ .nullptrDereference)
      (fun store call store' hs hm hrun =>
        (execute_complete hs hm.1).1 store' hrun)
      (fun store call e hs hm he heq =>
        (execute_complete hs hm.1).2 hm.2 (heq ▸ he)) hcomplete
    exact herror _ hfault rfl

end Operators

/-- A member is written and removed again. -/
theorem run_complete_member :
    letI := constantHash
    let root : NodePtr Int := some (.object [])
    let calls : List (Call Int) :=
      [.write [(["a"], .set (some (.bool true)))], .write [(["a"], .remove)]]
    ∃ store n, run ⟨root⟩ calls = .ok store ∧ store.root = some n ∧
      n.Complete := by
  intro root calls
  let := constantHash
  have hguarded : Guarded Call.execute Call.Meets ⟨root⟩ calls := by
    refine guarded_cons ?_ ?_
    · rintro n ⟨⟩
      exact guarded_cons ⟨trivial, fun h => h.elim⟩ (fun _ _ => guarded_nil _)
    · rintro store ⟨⟩
      refine guarded_cons ?_ (fun _ _ => guarded_nil _)
      rintro n ⟨⟩
      refine guarded_cons ⟨trivial, fun _ => ⟨_, rfl, [], "a", _, rfl, rfl⟩⟩ ?_
      exact fun _ _ => guarded_nil _
  obtain ⟨n, hn, hcomplete, _⟩ :=
    (run_complete (some (.object [])) root calls rfl hguarded).1 _ rfl
  exact ⟨_, n, rfl, hn, hcomplete⟩

/-- Removing a member of an object that does not exist stores `nullptr`. -/
theorem run_incomplete :
    letI := constantHash
    let root : NodePtr Int := some (.object [])
    let calls : List (Call Int) := [.write [(["a", "b"], .remove)]]
    Node.fromSlice (some (.object [])) = .ok root ∧
      ∃ store n, run ⟨root⟩ calls = .ok store ∧ store.root = some n ∧
        ¬ n.Complete ∧ n.intoBuilder = .error .nullptrDereference := by
  let := constantHash
  refine ⟨rfl, _, _, rfl, rfl, ?_, rfl⟩
  rintro ⟨⟨hmember, _⟩, _⟩
  exact hmember

end AgencyNode
