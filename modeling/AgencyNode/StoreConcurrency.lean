import AgencyNode.Lib.LockedRegister
import AgencyNode.Store

/-!
# store.h, run by many clients

`store_base` is a register behind two locks: `root_modify_mutex` serialises the
calls that modify the root, `root_mutex` protects the root itself.  Any number
of clients make any calls, and their steps are interleaved in any way.

The calls then behave as if they were made one after the other, in the order
in which they acquired `root_modify_mutex`, by a single client of `StoreBase`.
-/

namespace AgencyNode

open Lib

variable {D : Type}

/-- The calls that modify the store. -/
inductive ModifyCall (D : Type) where
  | transact
      (preconditions : List (FoldAction D Bool))
      (operations : List (TransformAction D))
  | write (operations : List (TransformAction D))
  | set (newRoot : NodePtr D)

/-- The calls that read the store. -/
inductive ReadCall (D : Type) where
  | read
  | check (conditions : List (FoldAction D Bool))

/-- What a reading call returns. -/
inductive Answer (D : Type) where
  | node (node : NodePtr D)
  | verdict (b : Bool)

/-- The steps of `store_base` between its mutex operations. -/
def storeRegister (D : Type) :
    Register (NodePtr D) (ModifyCall D) (ReadCall D) (Answer D) where
  guard
    | .transact preconditions _, root =>
        (StoreBase.foldAnd root preconditions).toOption
    | .write _, _ => some true
    | .set _, _ => some true
  update
    | .transact _ operations, root =>
        (StoreBase.transformRoot root operations).toOption
    | .write operations, root =>
        (StoreBase.transformRoot root operations).toOption
    | .set newRoot, _ => some newRoot
  answer
    | .read, root => some (.node root)
    | .check conditions, root =>
        (StoreBase.foldAnd root conditions).toOption.map .verdict

namespace ModifyCall

/-- The call made by the only client of the store. -/
def execute (store : StoreBase D) : ModifyCall D → Exec (StoreBase D × NodePtr D)
  | .transact preconditions operations => store.transact preconditions operations
  | .write operations => store.write operations
  | .set newRoot => .ok (StoreBase.set newRoot)

/-- The call never makes the root `nullptr`. -/
def KeepsRoot : ModifyCall D → Prop
  | .transact _ operations =>
      ∀ n : Node D, StoreBase.transformRoot (some n) operations ≠ .ok none
  | .write operations =>
      ∀ n : Node D, StoreBase.transformRoot (some n) operations ≠ .ok none
  | .set newRoot => newRoot ≠ none

end ModifyCall

/-- The calls made one after the other; the results are paired with the clients. -/
def executeAll
    {C : Type}
    (store : StoreBase D)
    (log : List (C × ModifyCall D)) :
    Exec (StoreBase D × List (C × NodePtr D)) :=
  match log with
  | [] => .ok (store, [])
  | entry :: log => do
      let result ← entry.2.execute store
      let rest ← executeAll result.1 log
      return (rest.1, (entry.1, result.2) :: rest.2)

section Serial

variable {C : Type}

theorem executeAll_append
    (store : StoreBase D)
    (log log' : List (C × ModifyCall D)) :
    executeAll store (log ++ log') = do
      let first ← executeAll store log
      let second ← executeAll first.1 log'
      return (second.1, first.2 ++ second.2) := by
  induction log generalizing store with
  | nil =>
      simp only [List.nil_append, executeAll, Exec.ok_bind]
      cases executeAll store log' <;> rfl
  | cons entry log ih =>
      simp only [List.cons_append, executeAll]
      cases entry.2.execute store with
      | error e =>
          rfl
      | ok result =>
          simp only [Exec.ok_bind, ih]
          cases executeAll result.1 log with
          | error e =>
              rfl
          | ok first =>
              simp only [Exec.ok_bind, Exec.pure_eq_ok]
              cases executeAll first.1 log' <;> rfl

theorem executeAll_snoc
    {store store' store'' : StoreBase D}
    {log : List (C × ModifyCall D)}
    {results : List (C × NodePtr D)}
    {c : C}
    {call : ModifyCall D}
    {node : NodePtr D}
    (h : executeAll store log = .ok (store', results))
    (hcall : call.execute store' = .ok (store'', node)) :
    executeAll store (log ++ [(c, call)]) =
      .ok (store'', results ++ [(c, node)]) := by
  rw [executeAll_append, h]
  simp [executeAll, hcall]

/-- The steps of a call, taken without interruption, are the call. -/
theorem execute_of_register
    {call : ModifyCall D}
    {root root' : NodePtr D}
    {result : Option (NodePtr D)}
    (h : (storeRegister D).execute call root = some (root', result)) :
    call.execute ⟨root⟩ = .ok (⟨root'⟩, result.join) := by
  cases call with
  | transact preconditions operations =>
      simp only [Register.execute, storeRegister] at h
      cases hfold : StoreBase.foldAnd root preconditions with
      | error e =>
          simp [hfold, Except.toOption] at h
      | ok b =>
          cases b with
          | false =>
              simp [hfold, Except.toOption] at h
              obtain ⟨rfl, rfl⟩ := h
              simp [ModifyCall.execute, StoreBase.transact, hfold]
          | true =>
              cases htransform : StoreBase.transformRoot root operations with
              | error e =>
                  simp [hfold, htransform, Except.toOption] at h
              | ok newRoot =>
                  simp [hfold, htransform, Except.toOption] at h
                  obtain ⟨rfl, rfl⟩ := h
                  simp [ModifyCall.execute, StoreBase.transact, hfold,
                    htransform, StoreBase.setInternal]
  | write operations =>
      simp only [Register.execute, storeRegister] at h
      cases htransform : StoreBase.transformRoot root operations with
      | error e =>
          simp [htransform, Except.toOption] at h
      | ok newRoot =>
          simp [htransform, Except.toOption] at h
          obtain ⟨rfl, rfl⟩ := h
          simp [ModifyCall.execute, StoreBase.write, htransform,
            StoreBase.setInternal]
  | set newRoot =>
      simp [Register.execute, storeRegister] at h
      obtain ⟨rfl, rfl⟩ := h
      rfl

/-- The nodes the modifying calls have returned, with the clients. -/
def returnedNodes
    (history : List (C × Register.Event (NodePtr D) (ModifyCall D) (ReadCall D)
      (Answer D))) : List (C × NodePtr D) :=
  (Register.returnedOf history).map (fun e => (e.1, e.2.join))

/-- A serial history of the register is a serial execution of the store. -/
theorem executeAll_of_serial
    {root value : NodePtr D}
    {log : List (C × ModifyCall D)}
    {events : List (C × Register.Event (NodePtr D) (ModifyCall D) (ReadCall D)
      (Answer D))}
    (h : Register.Serial (storeRegister D) root log events value) :
    executeAll ⟨root⟩ log = .ok (⟨value⟩, returnedNodes events) ∧
      ((∀ v ∈ Register.publishedOf events, v ≠ none) →
        Register.publishedOf events =
          ((returnedNodes events).map Prod.snd).filter Option.isSome) := by
  induction h with
  | nil =>
      exact ⟨rfl, fun _ => rfl⟩
  | @call log events value value' c call result _ hexecute ih =>
      obtain ⟨hall, hpublished⟩ := ih
      have hresults : returnedNodes (events ++ [(c, .acquired call),
          (c, Register.decision call result), (c, .returned call result)]) =
          returnedNodes events ++ [(c, result.join)] := by
        unfold returnedNodes
        rw [Register.returnedOf_append, List.map_append]
        cases result <;> rfl
      refine ⟨?_, ?_⟩
      · rw [hresults]
        exact executeAll_snoc hall (execute_of_register hexecute)
      · intro hgood
        rw [Register.publishedOf_append] at hgood ⊢
        rw [hresults, hpublished (fun v hv => hgood v (List.mem_append_left _ hv))]
        cases result with
        | none =>
            simp [Register.publishedOf, Register.decision]
        | some v =>
            obtain ⟨n, rfl⟩ := Option.ne_none_iff_exists'.mp
              (hgood v (by simp [Register.publishedOf, Register.decision]))
            simp [Register.publishedOf, Register.decision]

/-- A call that keeps the root does so in the register. -/
theorem ModifyCall.KeepsRoot.update
    {call : ModifyCall D}
    (hcall : call.KeepsRoot)
    {root root' : NodePtr D}
    (hroot : root ≠ none)
    (h : (storeRegister D).update call root = some root') :
    root' ≠ none := by
  obtain ⟨n, rfl⟩ := Option.ne_none_iff_exists'.mp hroot
  cases call with
  | transact preconditions operations =>
      rintro rfl
      exact hcall n (Exec.toOption_eq_some.mp h)
  | write operations =>
      rintro rfl
      exact hcall n (Exec.toOption_eq_some.mp h)
  | set newRoot =>
      cases h
      exact hcall

/-- A call that keeps the root does so. -/
theorem ModifyCall.KeepsRoot.execute
    {call : ModifyCall D}
    (hcall : call.KeepsRoot)
    {root : NodePtr D}
    (hroot : root ≠ none)
    {store : StoreBase D}
    {node : NodePtr D}
    (h : call.execute ⟨root⟩ = .ok (store, node)) :
    store.root ≠ none := by
  obtain ⟨n, rfl⟩ := Option.ne_none_iff_exists'.mp hroot
  cases call with
  | transact preconditions operations =>
      obtain ⟨b, _, h⟩ := Exec.bind_eq_ok.mp h
      cases b with
      | false =>
          cases h
          exact hroot
      | true =>
          obtain ⟨newRoot, htransform, h⟩ := Exec.bind_eq_ok.mp h
          cases h
          rintro rfl
          exact hcall n htransform
  | write operations =>
      obtain ⟨newRoot, htransform, h⟩ := Exec.bind_eq_ok.mp h
      cases h
      rintro rfl
      exact hcall n htransform
  | set newRoot =>
      cases h
      exact hcall

theorem executeAll_root
    {root : NodePtr D}
    {log : List (C × ModifyCall D)}
    (hlog : ∀ e ∈ log, e.2.KeepsRoot)
    (hroot : root ≠ none)
    {store : StoreBase D}
    {results : List (C × NodePtr D)}
    (h : executeAll ⟨root⟩ log = .ok (store, results)) :
    store.root ≠ none := by
  induction log generalizing root results with
  | nil =>
      cases h
      exact hroot
  | cons e log ih =>
      obtain ⟨⟨⟨root'⟩, node⟩, hcall, h⟩ := Exec.bind_eq_ok.mp h
      obtain ⟨⟨store', rest⟩, hrest, h⟩ := Exec.bind_eq_ok.mp h
      cases h
      exact ih (fun f hf => hlog f (List.mem_cons_of_mem _ hf))
        ((hlog e List.mem_cons_self).execute hroot hcall) hrest

/--
The effect of a `transact` after the calls `before`: either its preconditions
hold on the root and it publishes and returns what its operations make of that
very root, or they do not, and it returns `nullptr` and changes nothing.
-/
def TransactsAtomically
    (root₀ : NodePtr D)
    (before : List (C × ModifyCall D))
    (c : C)
    (preconditions : List (FoldAction D Bool))
    (operations : List (TransformAction D)) : Prop :=
  ∃ root results, executeAll ⟨root₀⟩ before = .ok (⟨root⟩, results) ∧
    ((StoreBase.foldAnd root preconditions = .ok true ∧
        ∃ newRoot, newRoot ≠ none ∧
          StoreBase.transformRoot root operations = .ok newRoot ∧
          executeAll ⟨root₀⟩
              (before ++ [(c, .transact preconditions operations)]) =
            .ok (⟨newRoot⟩, results ++ [(c, newRoot)])) ∨
      (StoreBase.foldAnd root preconditions = .ok false ∧
        executeAll ⟨root₀⟩
            (before ++ [(c, .transact preconditions operations)]) =
          .ok (⟨root⟩, results ++ [(c, none)])))

theorem transactsAtomically
    {root₀ : NodePtr D}
    {before after : List (C × ModifyCall D)}
    {c : C}
    {preconditions : List (FoldAction D Bool)}
    {operations : List (TransformAction D)}
    {store : StoreBase D}
    {results : List (C × NodePtr D)}
    (hroot : root₀ ≠ none)
    (hkeeps : ∀ e ∈ before ++ (c, .transact preconditions operations) :: after,
      e.2.KeepsRoot)
    (h : executeAll ⟨root₀⟩
      (before ++ (c, .transact preconditions operations) :: after) =
        .ok (store, results)) :
    TransactsAtomically root₀ before c preconditions operations := by
  rw [executeAll_append] at h
  obtain ⟨⟨⟨root⟩, first⟩, hbefore, h⟩ := Exec.bind_eq_ok.mp h
  obtain ⟨second, hsecond, _⟩ := Exec.bind_eq_ok.mp h
  obtain ⟨⟨store', node⟩, hcall, _⟩ := Exec.bind_eq_ok.mp hsecond
  have hkeep : (ModifyCall.transact preconditions operations).KeepsRoot :=
    hkeeps (c, _) (List.mem_append_right _ List.mem_cons_self)
  have hbeforeRoot : root ≠ none :=
    executeAll_root (fun e he => hkeeps e (List.mem_append_left _ he)) hroot hbefore
  have hafterRoot := hkeep.execute hbeforeRoot hcall
  have hsnoc := executeAll_snoc (c := c) hbefore hcall
  refine ⟨root, first, hbefore, ?_⟩
  obtain ⟨b, hfold, hcall⟩ := Exec.bind_eq_ok.mp hcall
  cases b with
  | false =>
      cases hcall
      exact Or.inr ⟨hfold, hsnoc⟩
  | true =>
      obtain ⟨newRoot, htransform, hcall⟩ := Exec.bind_eq_ok.mp hcall
      cases hcall
      exact Or.inl ⟨hfold, _, hafterRoot, htransform, hsnoc⟩

/-- A state of the store and its clients. -/
abbrev StoreState (C D : Type) :=
  Register.State C (NodePtr D) (ModifyCall D) (ReadCall D) (Answer D)

/-- What the clients have seen of the store in a state of a run. -/
structure StoreSerialized
    [DecidableEq C]
    (root₀ : NodePtr D)
    (s : StoreState C D) : Prop where
  /--
  The calls that have decided behave as if executed one after the other in the
  order of acquisition; at most one more has acquired the mutex.
  -/
  serial : ∃ done pending results,
    Register.acquiredOf s.history = done ++ pending ∧ pending.length ≤ 1 ∧
    executeAll ⟨root₀⟩ done = .ok (⟨s.value⟩, results) ∧
    Register.publishedOf s.history =
      (results.map Prod.snd).filter Option.isSome ∧
    returnedNodes s.history <+: results ∧
    results.length ≤ (returnedNodes s.history).length + 1 ∧
    (s.modifier = none → pending = [] ∧ returnedNodes s.history = results) ∧
    ∀ before c preconditions operations after,
      done = before ++ (c, .transact preconditions operations) :: after →
        TransactsAtomically root₀ before c preconditions operations
  /-- The root is never `nullptr`. -/
  root : s.value ≠ none
  /-- A copy is of the root that had been published last when it was made. -/
  copies : ∀ before c call root after,
    s.history = before ++ (c, .observed call root) :: after →
      root ≠ none ∧
      (root₀ :: Register.publishedOf s.history)[
        (Register.publishedOf before).length]? = some root
  /-- A client answers from its own copies, in order. -/
  ownCopy : ∀ c,
    Register.answeredOf c s.history <+: Register.observedOf c s.history
  readAnswer : ∀ c root answer,
    (c, .answered .read root answer) ∈ s.history → answer = .node root
  checkAnswer : ∀ c conditions root answer,
    (c, .answered (.check conditions) root answer) ∈ s.history →
      ∃ b, StoreBase.check ⟨root⟩ conditions = .ok b ∧ answer = .verdict b
  /-- Nobody copies the root while it is being written. -/
  exclusive : ∀ c, Register.Writing (s.phase c) →
    ∀ d, ¬ Register.Reading (s.phase d) ∧ (Register.Writing (s.phase d) → d = c)

/--
**The store is serializable**: for any number of clients, any calls and any
interleaving of their steps.
-/
theorem store_serializable
    [DecidableEq C]
    (root₀ : NodePtr D)
    (program : C → List (ModifyCall D ⊕ ReadCall D))
    (s : StoreState C D)
    (hroot : root₀ ≠ none)
    (hcalls : ∀ c call, .inl call ∈ program c → call.KeepsRoot)
    (hs : Register.Steps (storeRegister D)
      (Register.initial root₀ program) s) :
    StoreSerialized root₀ s := by
  have hgood : ∀ call : ModifyCall D, call.KeepsRoot → ∀ root root',
      root ≠ none → (storeRegister D).update call root = some root' →
        root' ≠ none := by
    intro call hcall root root' hne hupdate
    exact hcall.update hne hupdate
  have hserialized := Register.serialized_of_steps hs
  have hstays := Register.staysGood_of_steps hgood hroot hcalls hs
  refine ⟨?_, hstays.value, ?_, ?_, ?_, ?_, ?_⟩
  · obtain ⟨done, pending, events, hdecided, hfree⟩ := hserialized.serial.decided
    obtain ⟨hall, hpublished⟩ := executeAll_of_serial hdecided.serial
    have hkeeps : ∀ e ∈ done, e.2.KeepsRoot := by
      intro e he
      refine hstays.acquired e ?_
      rw [hdecided.acquired]
      exact List.mem_append_left _ he
    refine ⟨done, pending, returnedNodes events, hdecided.acquired,
      hdecided.pending_le, hall, ?_, hdecided.returned.map _, ?_, ?_, ?_⟩
    · rw [hdecided.published]
      refine hpublished (fun v hv => hstays.published v ?_)
      rw [hdecided.published]
      exact hv
    · simpa [returnedNodes] using hdecided.unreturned_le
    · intro h
      obtain ⟨hpending, hreturned⟩ := hfree h
      exact ⟨hpending, by rw [returnedNodes, hreturned, returnedNodes]⟩
    · intro before c preconditions operations after hdone
      rw [hdone] at hall hkeeps
      exact transactsAtomically hroot hkeeps hall
  · intro before c call root after hsplit
    have hcopy := hserialized.copies before c call root after hsplit
    refine ⟨?_, hcopy⟩
    have hmem := List.mem_of_getElem? hcopy
    rcases List.mem_cons.mp hmem with rfl | hmem
    · exact hroot
    · exact hstays.published root hmem
  · intro c
    exact ⟨_, hserialized.ownCopy c⟩
  · intro c root answer hmem
    have := hserialized.correct c .read root answer hmem
    cases this
    rfl
  · intro c conditions root answer hmem
    have hanswer := hserialized.correct c (.check conditions) root answer hmem
    obtain ⟨b, hfold, hb⟩ := Option.map_eq_some_iff.mp hanswer
    exact ⟨b, Exec.toOption_eq_some.mp hfold, hb.symm⟩
  · intro c hc d
    have hmutex := hserialized.valueMutex
    have hwriter := (hmutex.writer c).mp hc
    refine ⟨?_, ?_⟩
    · rw [hmutex.readers]
      exact hmutex.exclusive c hwriter d
    · rw [hmutex.writer, hwriter]
      intro h
      exact (Option.some.inj h).symm

/-- One client sets the root while another one reads it. -/
def setAndRead : Bool → List (ModifyCall Int ⊕ ReadCall Int)
  | true => [.inl (.set (some (.bool true)))]
  | false => [.inr .read]

/-- The reader copies the old root after the writer has started. -/
theorem store_serializable_setAndRead :
    ∃ s : StoreState Bool Int,
      Register.publishedOf s.history = [some (.bool true)] ∧
      Register.answeredOf false s.history = [(.read, some .null)] ∧
      StoreSerialized (some .null) s := by
  have hrun : ∃ s : StoreState Bool Int,
      Register.Steps (storeRegister Int) (Register.initial (some .null) setAndRead) s ∧
      Register.publishedOf s.history = [some (.bool true)] ∧
      Register.answeredOf false s.history = [(.read, some .null)] := by
    refine ⟨_, Relation.ReflTransGen.refl
      |>.tail ⟨true, .acquireModify rfl rfl rfl⟩
      |>.tail ⟨true, .accept rfl rfl⟩
      |>.tail ⟨false, .acquireShared rfl rfl rfl⟩
      |>.tail ⟨true, .compute rfl rfl⟩
      |>.tail ⟨false, .copy rfl⟩
      |>.tail ⟨false, .releaseShared rfl⟩
      |>.tail ⟨true, .acquireExclusive rfl rfl ?_⟩
      |>.tail ⟨true, .publish rfl⟩
      |>.tail ⟨true, .releaseExclusive rfl⟩
      |>.tail ⟨true, .releaseModify rfl⟩
      |>.tail ⟨false, .respond rfl rfl⟩, rfl, rfl⟩
    rintro d ⟨hne, hd | hd⟩
    · exact hne hd
    · exact hd
  obtain ⟨s, hs, hpublished, hanswered⟩ := hrun
  refine ⟨s, hpublished, hanswered, ?_⟩
  refine store_serializable (some .null) setAndRead s (by simp) ?_ hs
  intro c call hcall
  cases c with
  | true =>
      simp only [setAndRead, List.mem_singleton, Sum.inl.injEq] at hcall
      subst hcall
      exact Option.some_ne_none _
  | false =>
      simp [setAndRead] at hcall

end Serial

end AgencyNode
