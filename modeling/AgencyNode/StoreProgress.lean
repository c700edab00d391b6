import AgencyNode.Lib.RegisterProgress
import AgencyNode.StoreCompleteness
import AgencyNode.StoreConcurrency
import AgencyNode.TransactionGrammar

/-!
# The store serves all its clients

`store_base` takes its two mutexes in one order and gives them back, so that
its clients cannot block each other for ever: if every call, made alone, returns
on every root the store can have, then all calls of any number of clients
return, whatever the interleaving.
-/

namespace AgencyNode

open Lib

variable {D : Type}

/-- Made alone, the call returns on every good root and leaves a good one. -/
def CallReturns (good : NodePtr D → Prop) : ModifyCall D ⊕ ReadCall D → Prop
  | .inl (.transact preconditions operations) =>
      ∀ root, good root → ∃ b, StoreBase.foldAnd root preconditions = .ok b ∧
        (b = true → ∃ root', StoreBase.transformRoot root operations = .ok root' ∧
          good root')
  | .inl (.write operations) =>
      ∀ root, good root →
        ∃ root', StoreBase.transformRoot root operations = .ok root' ∧ good root'
  | .inl (.set newRoot) => good newRoot
  | .inr .read => True
  | .inr (.check conditions) =>
      ∀ root, good root → ∃ b, StoreBase.foldAnd root conditions = .ok b

theorem returns_storeRegister
    (good : NodePtr D → Prop) :
    Register.Returns (storeRegister D) (CallReturns good) good where
  guard := by
    intro call hcall root hroot
    cases call with
    | transact preconditions operations =>
        obtain ⟨b, hb, _⟩ := hcall root hroot
        exact ⟨b, Exec.toOption_eq_some.mpr hb⟩
    | write operations => exact ⟨true, rfl⟩
    | set newRoot => exact ⟨true, rfl⟩
  update := by
    intro call hcall root hroot hguard
    cases call with
    | transact preconditions operations =>
        obtain ⟨b, hb, hoperations⟩ := hcall root hroot
        have hb' := Exec.toOption_eq_some.mp hguard
        rw [hb] at hb'
        cases hb'
        obtain ⟨root', hroot', hgood⟩ := hoperations rfl
        exact ⟨root', Exec.toOption_eq_some.mpr hroot', hgood⟩
    | write operations =>
        obtain ⟨root', hroot', hgood⟩ := hcall root hroot
        exact ⟨root', Exec.toOption_eq_some.mpr hroot', hgood⟩
    | set newRoot => exact ⟨newRoot, rfl, hcall⟩
  answer := by
    intro call hcall root hroot
    cases call with
    | read => exact ⟨_, rfl⟩
    | check conditions =>
        obtain ⟨b, hb⟩ := hcall root hroot
        refine ⟨.verdict b, ?_⟩
        simp [storeRegister, hb, Except.toOption]

/-! ## Calls that return -/

section Calls

variable [StdHash] [Double D]

/-- A precondition a client may state returns for a complete node and for none. -/
theorem PreconditionObject.deserialized_returns
    (o : PreconditionObject D)
    {node : NodePtr D}
    (hnode : ∀ n, node = some n → n.Complete) :
    ∃ b, o.deserialized node = .ok b := by
  have hequal : ∀ (v : Json D) (n : Node D), n.Complete →
      ∃ b, Node.ptrEq (some (Node.ofJson v)) (some n) = .ok b := by
    intro v n hn
    exact Node.CompletePtr.eq _ _ (Node.complete_ofJson v) hn
  cases node with
  | none =>
      cases o <;> exact ⟨_, rfl⟩
  | some n =>
      have hn := hnode n rfl
      cases o with
      | old v =>
          obtain ⟨b, hb⟩ := hequal v n hn
          refine ⟨b, ?_⟩
          simp [deserialized, equalCondition, conditionHelper, valueEqualsCondition,
            ConditionBase.visitNode, ConditionBase.invertIfRequired, hb]
      | oldNot v =>
          obtain ⟨b, hb⟩ := hequal v n hn
          refine ⟨!b, ?_⟩
          simp [deserialized, notEqualCondition, notConditionAdapter,
            conditionHelper, valueEqualsCondition, ConditionBase.insertInvertTrait,
            ConditionBase.visitNode, ConditionBase.invertIfRequired, hb]
      | oldEmpty inverted =>
          exact ⟨_, rfl⟩

omit [StdHash] [Double D] in
theorem foldAnd_returns
    {n : Node D}
    {conditions : List (FoldAction D Bool)}
    (hn : n.Complete)
    (hconditions : ∀ c ∈ conditions, ∀ node : NodePtr D,
      (∀ m, node = some m → m.Complete) → ∃ b, c.2 node = .ok b) :
    ∃ b, StoreBase.foldAnd (some n) conditions = .ok b := by
  change ∃ b, n.fold conditions _ true = .ok b
  unfold Node.fold
  generalize true = init
  induction conditions generalizing init with
  | nil =>
      exact ⟨init, rfl⟩
  | cons c conditions ih =>
      obtain ⟨b, hb⟩ :=
        hconditions c List.mem_cons_self (n.get c.1) (fun m hm => hn.get hm)
      rw [List.foldlM_cons, hb, Exec.ok_bind]
      exact ih (fun d hd => hconditions d (List.mem_cons_of_mem _ hd)) _

/-- The operation carries a complete node, if any, and never yields `nullptr`. -/
def Operation.Creates (op : Operation D) : Prop :=
  op.ArgumentComplete ∧ ∀ node, ¬ op.Deletes node

/-- An action that does not delete returns at every path in bounds. -/
theorem operationStep_returns
    {n c : Node D}
    {a : Path × Operation D}
    (hn : n.Complete)
    (hc : c.Complete)
    (hp : PathInBounds a.1)
    (ha : a.2.Creates) :
    ∃ m : Node D, operationStep n (some c) a = .ok (some m) ∧ m.Complete := by
  obtain ⟨v, hv, hcomplete, hdeletes⟩ :=
    Operation.operator_ok (n.get a.1) ha.1 (fun m hm => hn.get hm)
  have hstep : operationStep n (some c) a = c.set a.1 v := by
    change (a.2.operator (n.get a.1) >>= fun value => c.set a.1 value) = _
    rw [hv]
    rfl
  have hparent : v = none → c.ParentIsObject a.1 :=
    fun h => absurd (hdeletes h) (ha.2 _)
  obtain ⟨w, rfl⟩ : ∃ w, v = some w :=
    Option.ne_none_iff_exists'.mp fun h => ha.2 _ (hdeletes h)
  obtain ⟨m, hm⟩ : ∃ m, c.set a.1 (some w) = .ok (some m) := by
    cases hpath : a.1 with
    | nil =>
        exact ⟨w, by cases c <;> rfl⟩
    | cons key path =>
        obtain ⟨m, hm, _⟩ := c.set_eq_some (key :: path) (some w)
          ((hpath ▸ hp).indexUse _) (List.cons_ne_nil _ _)
        exact ⟨m, hm⟩
  refine ⟨m, hstep.trans hm, ?_⟩
  exact hc.set hcomplete hparent hm

theorem transformRoot_returns
    {n : Node D}
    {operations : List (Path × Operation D)}
    (hn : n.Complete)
    (hoperations : ∀ a ∈ operations, PathInBounds a.1 ∧ a.2.Creates) :
    ∃ r, StoreBase.transformRoot (some n)
        (operations.map Operation.toAction) = .ok r ∧ Node.CompletePtr r := by
  rw [transformRoot_some]
  have hrun : ∀ c : Node D, c.Complete → ∃ r,
      operations.foldlM (operationStep n) (some c) = .ok r ∧ Node.CompletePtr r := by
    induction operations with
    | nil =>
        intro c hc
        exact ⟨some c, rfl, hc⟩
    | cons a operations ih =>
        intro c hc
        obtain ⟨hp, ha⟩ := hoperations a List.mem_cons_self
        obtain ⟨m, hm, hcomplete⟩ := operationStep_returns hn hc hp ha
        rw [List.foldlM_cons, hm, Exec.ok_bind]
        exact ih (fun b hb => hoperations b (List.mem_cons_of_mem _ hb)) m hcomplete
  exact hrun n hn

/-- The operation of `node-operations.h` a client asks for. -/
def OperationObject.toOperation : OperationObject D → Operation D
  | .increment delta => .increment (delta.getD Double.zero)
  | .set new _ => .set (some (Node.ofJson new))

theorem OperationObject.operator_toOperation
    (o : OperationObject D) :
    o.toOperation.operator = o.deserialized := by
  cases o <;> rfl

omit [StdHash] in
theorem OperationObject.creates
    (o : OperationObject D) :
    o.toOperation.Creates := by
  cases o with
  | increment delta =>
      exact ⟨trivial, fun _ h => h⟩
  | set new ttl =>
      exact ⟨Node.complete_ofJson new, fun _ h => h⟩

/--
A transaction that clients may ask for returns on every complete root and
leaves a complete one, as long as its paths are in bounds.
-/
theorem callReturns_transact
    {preconditions : List (Path × PreconditionObject D)}
    {operations : List (Path × OperationObject D)}
    (hpaths : ∀ a ∈ operations, PathInBounds a.1) :
    CallReturns Node.CompletePtr
      (.inl (.transact (preconditions.map fun c => (c.1, c.2.deserialized))
        (operations.map fun a => (a.1, a.2.deserialized)))) := by
  intro root hroot
  obtain ⟨n, rfl, hn⟩ := Node.CompletePtr.exists_node hroot
  obtain ⟨b, hb⟩ : ∃ b, StoreBase.foldAnd (some n)
      (preconditions.map fun c => (c.1, c.2.deserialized)) = .ok b := by
    refine foldAnd_returns hn ?_
    intro c hc
    obtain ⟨d, _, rfl⟩ := List.mem_map.mp hc
    exact fun _ hnode => d.2.deserialized_returns hnode
  refine ⟨b, hb, fun _ => ?_⟩
  have hactions : operations.map (fun a => (a.1, a.2.deserialized)) =
      (operations.map fun a => (a.1, a.2.toOperation)).map Operation.toAction := by
    rw [List.map_map]
    refine List.map_congr_left fun a _ => ?_
    simp [Operation.toAction, OperationObject.operator_toOperation]
  rw [hactions]
  refine transformRoot_returns hn ?_
  intro a ha
  obtain ⟨o, ho, rfl⟩ := List.mem_map.mp ha
  exact ⟨hpaths o ho, o.2.creates⟩

end Calls

/-! ## The calls, one after the other -/

/-- A call made by the only client of the store. -/
def StoreBase.serve
    (store : StoreBase D) :
    ModifyCall D ⊕ ReadCall D → Exec (StoreBase D × Answer D)
  | .inl call => do
      let result ← call.execute store
      return (result.1, .node result.2)
  | .inr .read => return (store, .node store.read)
  | .inr (.check conditions) => do
      let b ← store.check conditions
      return (store, .verdict b)

/-- The calls made one after the other; the results are paired with the clients. -/
def StoreBase.serveAll
    {C : Type}
    (store : StoreBase D)
    (log : List (C × (ModifyCall D ⊕ ReadCall D))) :
    Exec (StoreBase D × List (C × Answer D)) :=
  log.foldlM (fun served entry => do
    let result ← served.1.serve entry.2
    return (result.1, served.2 ++ [(entry.1, result.2)])) (store, [])

/-- What a call returns that has taken effect. -/
def recordAnswer :
    Register.Record (NodePtr D) (ModifyCall D) (ReadCall D) → Option (Answer D)
  | .modified _ result => some (.node result.join)
  | .copied call root => (storeRegister D).answer call root

theorem serve_of_answer
    {call : ReadCall D}
    {root : NodePtr D}
    {answer : Answer D}
    (h : (storeRegister D).answer call root = some answer) :
    StoreBase.serve ⟨root⟩ (.inr call) = .ok (⟨root⟩, answer) := by
  cases call with
  | read =>
      cases h
      rfl
  | check conditions =>
      cases hfold : StoreBase.foldAnd root conditions with
      | error e => simp [storeRegister, hfold, Except.toOption] at h
      | ok b =>
          simp [storeRegister, hfold, Except.toOption] at h
          rw [← h]
          simp [StoreBase.serve, StoreBase.check, StoreBase.read, hfold]

section Serial

variable {C : Type}

theorem serveAll_snoc
    {store store' store'' : StoreBase D}
    {log : List (C × (ModifyCall D ⊕ ReadCall D))}
    {results : List (C × Answer D)}
    {c : C}
    {call : ModifyCall D ⊕ ReadCall D}
    {answer : Answer D}
    (h : store.serveAll log = .ok (store', results))
    (hcall : store'.serve call = .ok (store'', answer)) :
    store.serveAll (log ++ [(c, call)]) = .ok (store'', results ++ [(c, answer)]) := by
  unfold StoreBase.serveAll at h ⊢
  rw [List.foldlM_append, h]
  simp [hcall]

/-- The steps of the calls, taken without interruption, are the calls. -/
theorem serveAll_of_linear
    {root value : NodePtr D}
    {records : List (C × Register.Record (NodePtr D) (ModifyCall D) (ReadCall D))}
    (h : Register.Linear (storeRegister D) root records value)
    (hanswers : ∀ e ∈ records, ∃ a, recordAnswer e.2 = some a) :
    ∃ results,
      StoreBase.serveAll ⟨root⟩ (records.map (Prod.map id Register.Record.call)) =
        .ok (⟨value⟩, results) ∧
      results.map (Prod.map id some) = records.map (Prod.map id recordAnswer) := by
  induction h with
  | nil => exact ⟨[], rfl, rfl⟩
  | @modified records value value' c call result _ hexecute ih =>
      obtain ⟨results, hserve, hresults⟩ :=
        ih fun e he => hanswers e (List.mem_append_left _ he)
      refine ⟨results ++ [(c, .node result.join)], ?_, ?_⟩
      · rw [List.map_append]
        apply serveAll_snoc hserve
        simp [StoreBase.serve, Register.Record.call, execute_of_register hexecute]
      · rw [List.map_append, List.map_append, hresults]
        rfl
  | @copied records value c call _ ih =>
      obtain ⟨results, hserve, hresults⟩ :=
        ih fun e he => hanswers e (List.mem_append_left _ he)
      obtain ⟨a, ha⟩ := hanswers _ (List.mem_append_right _ List.mem_cons_self)
      refine ⟨results ++ [(c, a)], ?_, ?_⟩
      · rw [List.map_append]
        apply serveAll_snoc hserve
        exact serve_of_answer ha
      · rw [List.map_append, List.map_append, hresults]
        simp [ha]

end Serial

section Clients

variable {C : Type} [DecidableEq C]

/-- What the calls of a client have returned, in their order. -/
def resultsOf
    (c : C) :
    List (C × Register.Event (NodePtr D) (ModifyCall D) (ReadCall D) (Answer D)) →
      List (Answer D) :=
  List.filterMap fun e =>
    match e.2 with
    | .returned _ result => if e.1 = c then some (.node result.join) else none
    | .answered _ _ answer => if e.1 = c then some answer else none
    | _ => none

theorem map_recordAnswer_returnsOf
    {s : StoreState C D}
    (h : Register.AnswersCorrectly (storeRegister D) s)
    (c : C) :
    (Register.returnsOf c s.history).map recordAnswer =
      (resultsOf c s.history).map some := by
  unfold Register.returnsOf resultsOf
  rw [List.map_filterMap, List.map_filterMap]
  apply List.filterMap_congr
  rintro ⟨d, e⟩ he
  cases e with
  | returned call result =>
      by_cases hd : d = c <;> simp [hd, recordAnswer]
  | answered call root answer =>
      have hanswer := h d call root answer he
      by_cases hd : d = c <;> simp [hd, recordAnswer, hanswer]
  | _ => rfl

/-- What has happened to the store when all its clients are done. -/
structure StoreCompleted
    (root₀ : NodePtr D)
    (program : C → List (ModifyCall D ⊕ ReadCall D))
    (s : StoreState C D) : Prop where
  done : ∀ c, s.Done c
  /--
  Made one after the other, the calls lead to this root; each client's are made in
  the order of its program, and each has returned what it returns there.
  -/
  serial : ∃ log results, StoreBase.serveAll ⟨root₀⟩ log = .ok (⟨s.value⟩, results) ∧
    ∀ c, Register.callsOf c log = program c ∧
      Register.callsOf c results = resultsOf c s.history

theorem storeCompleted_of_completed
    {root₀ : NodePtr D}
    {program : C → List (ModifyCall D ⊕ ReadCall D)}
    {s : StoreState C D}
    (h : Register.Completed (storeRegister D) root₀ program s) :
    StoreCompleted root₀ program s := by
  obtain ⟨records, hlinear, hrecords⟩ := h.linear
  have hreturns : ∀ c, (Register.callsOf c records).map recordAnswer =
      (resultsOf c s.history).map some := by
    intro c
    rw [(hrecords c).2]
    exact map_recordAnswer_returnsOf h.correct c
  have hanswers : ∀ e ∈ records, ∃ a, recordAnswer e.2 = some a := by
    rintro ⟨c, record⟩ he
    have hmem : recordAnswer record ∈ (resultsOf c s.history).map some := by
      rw [← hreturns c]
      exact List.mem_map_of_mem (Register.mem_callsOf.mpr he)
    obtain ⟨a, _, ha⟩ := List.mem_map.mp hmem
    exact ⟨a, ha.symm⟩
  obtain ⟨results, hserve, hresults⟩ := serveAll_of_linear hlinear hanswers
  refine ⟨h.done, ⟨_, results, hserve, fun c => ⟨?_, ?_⟩⟩⟩
  · rw [Register.callsOf_map]
    exact (hrecords c).1
  · apply List.map_injective_iff.mpr (Option.some_injective (Answer D))
    rw [← hreturns c, ← Register.callsOf_map, ← Register.callsOf_map, hresults]

/--
**The store serves all its clients.**  If every call, made alone, returns on
every good root and leaves a good one, then a run of finitely many clients takes
at most seven steps for a modifying call and four for a reading one, and it can
be continued until all calls have returned.
-/
theorem store_completes
    [Fintype C]
    (good : NodePtr D → Prop)
    (root₀ : NodePtr D)
    (program : C → List (ModifyCall D ⊕ ReadCall D))
    (n : Nat)
    (s : StoreState C D)
    (hroot : good root₀)
    (hcalls : ∀ c, ∀ call ∈ program c, CallReturns good call)
    (hrun : Register.Run (storeRegister D) n (Register.initial root₀ program) s) :
    n ≤ ∑ c, Register.programCost (program c) ∧
      ((∃ c s', Register.Step (storeRegister D) c s s') ∨
        StoreCompleted root₀ program s) := by
  obtain ⟨hbounded, hcompletes⟩ :=
    hrun.completes (returns_storeRegister good) hroot hcalls
  exact ⟨hbounded, hcompletes.imp_right storeCompleted_of_completed⟩

/-- One client counts, unless the counter exists, while another one reads. -/
def countAndRead [StdHash] : Bool → List (ModifyCall Int ⊕ ReadCall Int)
  | true =>
      [.inl (.transact
        ([(["a"], .oldEmpty false)].map fun c =>
          (c.1, PreconditionObject.deserialized c.2))
        ([(["a"], .increment (some 2))].map fun a =>
          (a.1, OperationObject.deserialized a.2)))]
  | false => [.inr .read]

omit [DecidableEq C] in
/-- The longest run of the two clients takes eleven steps, and both are done. -/
theorem store_completes_countAndRead :
    letI := constantHash
    let root : NodePtr Int := some (.object [])
    ∃ s : StoreState Bool Int,
      Register.Run (storeRegister Int) 11 (Register.initial root countAndRead) s ∧
      11 ≤ ∑ c, Register.programCost (countAndRead c) ∧
      ((∃ c s', Register.Step (storeRegister Int) c s s') ∨
        StoreCompleted root countAndRead s) := by
  let := constantHash
  intro root
  have hrun : ∃ s : StoreState Bool Int,
      Register.Run (storeRegister Int) 11
        (Register.initial root countAndRead) s := by
    refine ⟨_, Register.Run.refl
      |>.tail (c := true) (.acquireModify rfl rfl rfl)
      |>.tail (c := true) (.accept rfl rfl)
      |>.tail (c := false) (.acquireShared rfl rfl rfl)
      |>.tail (c := true) (.compute rfl rfl)
      |>.tail (c := false) (.copy rfl)
      |>.tail (c := false) (.releaseShared rfl)
      |>.tail (c := true) (.acquireExclusive rfl rfl ?_)
      |>.tail (c := true) (.publish rfl)
      |>.tail (c := true) (.releaseExclusive rfl)
      |>.tail (c := true) (.releaseModify rfl)
      |>.tail (c := false) (.respond rfl rfl)⟩
    rintro d ⟨hne, hd | hd⟩
    · exact hne hd
    · exact hd
  obtain ⟨s, hs⟩ := hrun
  refine ⟨s, hs, ?_⟩
  refine store_completes Node.CompletePtr root countAndRead 11 s trivial ?_ hs
  intro c call hcall
  cases c with
  | true =>
      cases List.mem_singleton.mp hcall
      exact callReturns_transact (by decide)
  | false =>
      cases List.mem_singleton.mp hcall
      exact trivial

end Clients

end AgencyNode
