import AgencyNode.ListOperators
import AgencyNode.Lib.RegisterOrder
import AgencyNode.NodeConditions
import AgencyNode.StoreConcurrency

/-!
# Races in the store

Two kinds of clients that compete.  Clients that edit lists at separate paths
lose no update and repeat none, and a copy of the root holds what has been
published before it.  Of transactions that make the preconditions of each other
fail, such as those that claim a path, one takes effect at most.
-/

namespace AgencyNode

open Lib

variable {D : Type} {C : Type} [DecidableEq C]

/-! ## Edits of lists -/

section Lists

variable [StdHash] [Double D]

/-- An operator of a list at a path. -/
abbrev ListEdit (D : Type) := Path × ListOperator D

/-- The call that makes the edit. -/
def ListEdit.call (e : ListEdit D) : ModifyCall D :=
  .write [(e.1, e.2.transformation)]

/-- Separate places of a tree, at each of which there is a node. -/
structure Places (n : Node D) (place : Path → Prop) : Prop where
  canonical : ∀ p, place p → CanonicalPath p
  ne_nil : ∀ p, place p → p ≠ []
  present : ∀ p, place p → n.get p ≠ none
  separate : ∀ p q, place p → place q → p ≠ q → Container.Incomparable p q

/-- The edits of a log at one path. -/
def editsAt (p : Path) (log : List (C × ListEdit D)) : List (ListOperator D) :=
  log.filterMap fun e => if e.2.1 = p then some e.2.2 else none

omit [StdHash] [Double D] [DecidableEq C] in
theorem editsAt_append
    (p : Path)
    (log log' : List (C × ListEdit D)) :
    editsAt p (log ++ log') = editsAt p log ++ editsAt p log' := by
  exact List.filterMap_append ..

/-- At every place the tree holds what the edits of the log have made of it. -/
def Edited
    (n : Node D)
    (place : Path → Prop)
    (log : List (C × ListEdit D))
    (m : Node D) : Prop :=
  ∀ p, place p → m.get p ≠ none ∧
    ListOperator.Run (editsAt p log) (n.get p) (m.get p)

/-- An operator leaves a node where it has found one. -/
theorem ListOperator.Step.ne_none
    {op : ListOperator D}
    {c d : NodePtr D}
    (h : ListOperator.Step op c d)
    (hc : c ≠ none) :
    d ≠ none := by
  cases h <;> first | exact hc | exact Option.some_ne_none _

theorem ListOperator.Run.snoc
    {ops : List (ListOperator D)}
    {op : ListOperator D}
    {c d e : NodePtr D}
    (h : ListOperator.Run ops c d)
    (hstep : ListOperator.Step op d e) :
    ListOperator.Run (ops ++ [op]) c e := by
  induction h with
  | nil c =>
      exact .cons hstep (.nil _)
  | cons hfirst _ ih =>
      exact .cons hfirst (ih hstep)

omit [DecidableEq C] in
/-- One edit is one step at its own place and none at the others. -/
theorem Edited.step
    {n m : Node D}
    {place : Path → Prop}
    {log : List (C × ListEdit D)}
    {r : NodePtr D}
    (hplaces : Places n place)
    (h : Edited n place log m)
    (c : C)
    {e : ListEdit D}
    (he : place e.1)
    (hr : StoreBase.transformRoot (some m) [(e.1, e.2.transformation)] = .ok r) :
    ∃ m', r = some m' ∧ Edited n place (log ++ [(c, e)]) m' := by
  obtain ⟨p, op⟩ := e
  have hr : m.transform [(p, op.transformation)] = .ok r := hr
  have hne := hplaces.ne_nil p he
  have hcanonical := hplaces.canonical p he
  have huse : IndexUseInBounds (some m) p := hcanonical.inBounds.indexUse _
  obtain ⟨m', rfl, huse'⟩ := ListOperator.exists_of_transform hne huse hr
  have hstep : ListOperator.Step op (m.get p) (m'.get p) :=
    (ListOperator.transform_iff_step hne huse op _).mp ⟨m', hr, huse', rfl⟩
  refine ⟨m', rfl, ?_⟩
  intro q hq
  obtain ⟨hpresent, hrun⟩ := h q hq
  rw [editsAt_append]
  by_cases hpq : p = q
  · subst hpq
    refine ⟨hstep.ne_none hpresent, ?_⟩
    simpa [editsAt] using hrun.snoc hstep
  · have hframe : m'.get q = m.get q := by
      rw [ListOperator.transform_single] at hr
      obtain ⟨v, _, hset⟩ := Exec.bind_eq_ok.mp hr
      obtain ⟨m'', hm, hmset⟩ := m.set_eq_some p v huse hne
      rw [hm, Except.ok.injEq, Option.some.injEq] at hset
      subst hset
      have hqcanonical := hplaces.canonical q hq
      have hbounds := hqcanonical.inBounds
      rw [m.get_eq q (hbounds.indexUse _)] at hpresent ⊢
      rw [m''.get_eq q (hbounds.indexUse _), hmset]
      -- The write pads places where there is no node only.
      refine ((nodeRep D).get_set_incomparable (some m) p q v hcanonical.canonical
        hqcanonical.canonical (hplaces.separate p q he hq hpq)).2 ?_
      exact fun hfilled => hpresent ((nodeRep D).get_of_filled hfilled)
    rw [hframe]
    refine ⟨hpresent, ?_⟩
    simpa [editsAt, hpq] using hrun

omit [DecidableEq C] in
/-- Serial edits publish one version each and leave the edited tree. -/
theorem edited_of_serial
    {n : Node D}
    {place : Path → Prop}
    (hplaces : Places n place)
    {log : List (C × ModifyCall D)}
    {events : List (C × Register.Event (NodePtr D) (ModifyCall D) (ReadCall D)
      (Answer D))}
    {root : NodePtr D}
    (h : Register.Serial (storeRegister D) (some n) log events root)
    {edits : List (C × ListEdit D)}
    (hlog : log = edits.map (Prod.map id ListEdit.call))
    (hedits : ∀ e ∈ edits, place e.2.1) :
    (∃ m, root = some m ∧ Edited n place edits m) ∧
      (Register.publishedOf events).length = edits.length := by
  induction h generalizing edits with
  | nil =>
      have hnil : edits = [] := List.map_eq_nil_iff.mp hlog.symm
      subst hnil
      exact ⟨⟨n, rfl, fun p hp => ⟨hplaces.present p hp, .nil _⟩⟩, rfl⟩
  | @call log events root root' c call result _ hexecute ih =>
      rcases List.eq_nil_or_concat' edits with rfl | ⟨edits, e, rfl⟩
      · simp at hlog
      · rw [List.map_append] at hlog
        obtain ⟨hbefore, hcall⟩ := List.append_inj' hlog rfl
        obtain ⟨⟨m, rfl, hedited⟩, hlength⟩ :=
          ih hbefore fun f hf => hedits f (List.mem_append_left _ hf)
        cases hcall
        have he : place e.2.1 := hedits e (List.mem_append_right _ List.mem_cons_self)
        rcases Register.execute_cases hexecute with ⟨hguard, _, _⟩ | ⟨_, hupdate, rfl⟩
        · cases hguard
        · obtain ⟨m', rfl, hedited'⟩ :=
            hedited.step hplaces e.1 he (Exec.toOption_eq_some.mp hupdate)
          refine ⟨⟨m', rfl, hedited'⟩, ?_⟩
          rw [Register.publishedOf_call, List.length_append, List.length_append, hlength]
          rfl

/--
What the edits of all clients have done in a state of a run: the log holds the
edits that have taken effect.
-/
structure EditsServed
    (n : Node D)
    (place : Path → Prop)
    (program : C → List (ListEdit D ⊕ ReadCall D))
    (s : StoreState C D)
    (log : List (C × ListEdit D)) : Prop where
  /-- The root holds the edits of the log, every one of them once. -/
  current : ∃ m, s.value = some m ∧ Edited n place log m
  /-- The edits of a client take effect in the order of its program. -/
  order : ∀ c, Register.callsOf c log <+: Register.modifyingCalls (program c)
  /-- Once a client is done, all its edits have taken effect. -/
  done : ∀ c, s.Done c →
    Register.callsOf c log = Register.modifyingCalls (program c)
  /-- A copy holds the edits that have been published before it, and no others. -/
  copies : ∀ before c call root after,
    s.history = before ++ (c, .observed call root) :: after →
      ∃ m log', root = some m ∧ log' <+: log ∧
        log'.length = (Register.publishedOf before).length ∧ Edited n place log' m

/--
**No edit is lost and none is repeated**, however the clients are interleaved:
at every place the edits of all clients have been applied in one order, which
is the program order for those of each client.
-/
theorem edits_served
    (n : Node D)
    (place : Path → Prop)
    (program : C → List (ListEdit D ⊕ ReadCall D))
    (s : StoreState C D)
    (hplaces : Places n place)
    (hprogram : ∀ c e, .inl e ∈ program c → place e.1)
    (hs : Register.Steps (storeRegister D)
      (Register.initial (some n) (Register.describedProgram ListEdit.call program)) s) :
    ∃ log, EditsServed n place program s log := by
  obtain ⟨calls, events, hexecuted, _⟩ := Register.executed_of_steps hs
  obtain ⟨log, hlog, horder, hdone⟩ := hexecuted.described
  have hedits : ∀ e ∈ log, place e.2.1 := by
    rintro ⟨c, e⟩ he
    have hmem := (horder c).subset (Register.mem_callsOf.mpr he)
    exact hprogram c e (Register.mem_modifyingCalls.mp hmem)
  refine ⟨log, (edited_of_serial hplaces hexecuted.serial hlog hedits).1, horder,
    hdone, ?_⟩
  intro before c call root after hsplit
  have hcopy := (Register.serialized_of_steps hs).copies before c call root after hsplit
  rw [hexecuted.published] at hcopy
  obtain ⟨calls', events', ⟨rest, hrest⟩, hserial, hlength⟩ :=
    hexecuted.serial.version hcopy
  have htake : calls' = (log.take calls'.length).map (Prod.map id ListEdit.call) := by
    rw [List.map_take, ← hlog, ← hrest, List.take_left]
  have hlog' : log.take calls'.length <+: log := List.take_prefix _ _
  obtain ⟨⟨m, rfl, hedited⟩, hpublished⟩ :=
    edited_of_serial hplaces hserial htake fun e he => hedits e (hlog'.subset he)
  exact ⟨m, _, rfl, hlog', by rw [← hpublished, hlength], hedited⟩

end Lists

/-- Two clients append to the list, and one of them reads it as well. -/
def appendTwice : Bool → List (ListEdit Int ⊕ ReadCall Int)
  | true => [.inl (["l"], .push .null)]
  | false => [.inr .read, .inl (["l"], .push (.bool true))]

omit [DecidableEq C] in
/-- The copy is made between the edits and holds the first of them. -/
theorem edits_served_appendTwice :
    letI := constantHash
    let n : Node Int := .object [("l", some (.array []))]
    ∃ s : StoreState Bool Int,
      Register.observedOf false s.history =
        [(.read, some (.object [("l", some (.array [some .null]))]))] ∧
      s.value = some (.object [("l", some (.array [some .null, some (.bool true)]))]) ∧
      ∃ log, EditsServed n (fun p => p = ["l"]) appendTwice s log := by
  let := constantHash
  intro n
  have hrun : ∃ s : StoreState Bool Int,
      Register.Steps (storeRegister Int)
        (Register.initial (some n) (Register.describedProgram ListEdit.call appendTwice)) s ∧
      Register.observedOf false s.history =
        [(.read, some (.object [("l", some (.array [some .null]))]))] ∧
      s.value =
        some (.object [("l", some (.array [some .null, some (.bool true)]))]) := by
    refine ⟨_, Relation.ReflTransGen.refl
      |>.tail ⟨true, .acquireModify rfl rfl rfl⟩
      |>.tail ⟨true, .accept rfl rfl⟩
      |>.tail ⟨true, .compute rfl rfl⟩
      |>.tail ⟨true, .acquireExclusive rfl rfl fun _ h => h⟩
      |>.tail ⟨true, .publish rfl⟩
      |>.tail ⟨true, .releaseExclusive rfl⟩
      |>.tail ⟨false, .acquireShared rfl rfl rfl⟩
      |>.tail ⟨false, .copy rfl⟩
      |>.tail ⟨true, .releaseModify rfl⟩
      |>.tail ⟨false, .releaseShared rfl⟩
      |>.tail ⟨false, .respond rfl rfl⟩
      |>.tail ⟨false, .acquireModify rfl rfl rfl⟩
      |>.tail ⟨false, .accept rfl rfl⟩
      |>.tail ⟨false, .compute rfl rfl⟩
      |>.tail ⟨false, .acquireExclusive rfl rfl ?_⟩
      |>.tail ⟨false, .publish rfl⟩, rfl, rfl⟩
    rintro d ⟨hne, hd | hd⟩
    · exact hne hd
    · exact hd
  obtain ⟨s, hs, hobserved, hvalue⟩ := hrun
  refine ⟨s, hobserved, hvalue, ?_⟩
  refine edits_served n _ appendTwice s ⟨?_, ?_, ?_, ?_⟩ ?_ hs
  · rintro _ rfl
    decide
  · rintro _ rfl
    exact List.cons_ne_nil _ _
  · rintro _ rfl
    exact Option.some_ne_none _
  · rintro _ _ rfl rfl hne
    exact absurd rfl hne
  · intro c e he
    cases c with
    | true =>
        cases List.mem_singleton.mp he
        rfl
    | false =>
        simp only [appendTwice, List.mem_cons, reduceCtorEq, Sum.inl.injEq,
          List.not_mem_nil, or_false, false_or] at he
        subst he
        rfl

/-! ## Competing claims -/

/-- The arguments of a `transact`. -/
structure Claim (D : Type) where
  preconditions : List (FoldAction D Bool)
  operations : List (TransformAction D)

/-- The call that makes the claim. -/
def Claim.call (a : Claim D) : ModifyCall D :=
  .transact a.preconditions a.operations

/-- When the claim has taken effect, the preconditions of the other one fail. -/
def Claim.Excludes (a b : Claim D) : Prop :=
  ∀ root root', StoreBase.foldAnd root a.preconditions = .ok true →
    StoreBase.transformRoot root a.operations = .ok root' →
      StoreBase.foldAnd root' b.preconditions = .ok false

omit [DecidableEq C] in
theorem foldAnd_single
    (n : Node D)
    (p : Path)
    (condition : NodePtr D → Exec Bool) :
    StoreBase.foldAnd (some n) [(p, condition)] = condition (n.get p) := by
  change n.fold [(p, condition)] _ true = _
  simp only [Node.fold, List.foldlM_cons, List.foldlM_nil]
  cases condition (n.get p) <;> rfl

omit [DecidableEq C] in
/-- Writing a node for which the condition fails excludes claims that demand it. -/
theorem Claim.excludes_of_set
    {p : Path}
    {x : Node D}
    {condition condition' : NodePtr D → Exec Bool}
    {operations : List (TransformAction D)}
    (hp : PathInBounds p)
    (hcondition : condition' (some x) = .ok false) :
    Claim.Excludes
      ⟨[(p, condition)], [(p, setOperator (some x))]⟩
      ⟨[(p, condition')], operations⟩ := by
  intro root root' _ hroot
  cases root with
  | none => cases hroot
  | some n =>
      have hset : n.set p (some x) = .ok root' := by
        have hroot : n.transform [(p, setOperator (some x))] = .ok root' := hroot
        rw [ListOperator.transform_single] at hroot
        exact hroot
      cases p with
      | nil =>
          have hx : root' = some x := by
            cases n <;> cases hset <;> rfl
          subst hx
          rw [foldAnd_single]
          exact hcondition
      | cons key path =>
          obtain ⟨m, hm, hget, _⟩ := ListOperator.exists_set
            (List.cons_ne_nil key path) (hp.indexUse (some n)) (some x)
          rw [hm, Except.ok.injEq] at hset
          subst hset
          rw [foldAnd_single, hget]
          exact hcondition

/-- The outcome of the claims of all clients in a state of a run. -/
inductive ClaimOutcome
    (root₀ : NodePtr D)
    (program : C → List (Claim D ⊕ ReadCall D))
    (s : StoreState C D) : Prop
  /-- No claim has taken effect, as none that has been made was justified. -/
  | unclaimed
      (hroot : s.value = root₀)
      (hfails : ∀ c, s.Done c → ∀ a, .inl a ∈ program c →
        StoreBase.foldAnd root₀ a.preconditions = .ok false)
      (hpublished : Register.publishedOf s.history = [])
      (hreturned : ∀ e ∈ returnedNodes s.history, e.2 = none)
      (hcopies : ∀ c, ∀ e ∈ Register.observedOf c s.history, e.2 = root₀)
  /-- One claim has, and it is the only one that may have returned a node. -/
  | claimed {c : C} {a : Claim D} {before after : List (C × NodePtr D)}
      (ha : .inl a ∈ program c)
      (hholds : StoreBase.foldAnd root₀ a.preconditions = .ok true)
      (hroot : StoreBase.transformRoot root₀ a.operations = .ok s.value)
      (hpublished : Register.publishedOf s.history = [s.value])
      (hreturned : returnedNodes s.history <+: before ++ (c, s.value) :: after)
      (hothers : ∀ e ∈ before ++ after, e.2 = none)
      (hcopies : ∀ d, ∀ e ∈ Register.observedOf d s.history,
        e.2 = root₀ ∨ e.2 = s.value)

/--
**At most one claim takes effect** if every claim excludes itself and all
others, however the clients are interleaved; all others are rejected, and every
client reads either the initial root or that of the one claim.
-/
theorem claims_exclude
    (root₀ : NodePtr D)
    (program : C → List (Claim D ⊕ ReadCall D))
    (s : StoreState C D)
    (hexclude : ∀ c d a b, .inl a ∈ program c → .inl b ∈ program d → a.Excludes b)
    (hs : Register.Steps (storeRegister D)
      (Register.initial root₀ (Register.describedProgram Claim.call program)) s) :
    ClaimOutcome root₀ program s := by
  obtain ⟨log, events, hexecuted, _⟩ := Register.executed_of_steps hs
  have hserialized := Register.serialized_of_steps hs
  obtain ⟨claims, rfl, horder, hdone⟩ := hexecuted.described
  -- The calls that are allowed are the claims of the clients.
  have hlog : ∀ e ∈ claims.map (Prod.map id Claim.call),
      ∃ a, e.2 = Claim.call a ∧ .inl a ∈ program e.1 := by
    intro e he
    obtain ⟨⟨c, a⟩, ha, rfl⟩ := List.mem_map.mp he
    have hmem := (horder c).subset (Register.mem_callsOf.mpr ha)
    exact ⟨a, rfl, Register.mem_modifyingCalls.mp hmem⟩
  have hexclusive : ∀ call call' : ModifyCall D,
      (∃ a c, call = Claim.call a ∧ .inl a ∈ program c) →
      (∃ a c, call' = Claim.call a ∧ .inl a ∈ program c) →
      ∀ root root', (storeRegister D).guard call root = some true →
        (storeRegister D).update call root = some root' →
          (storeRegister D).guard call' root' = some false := by
    rintro _ _ ⟨a, c, rfl, ha⟩ ⟨b, d, rfl, hb⟩ root root' hguard hupdate
    exact Exec.toOption_eq_some.mpr (hexclude c d a b ha hb root root'
      (Exec.toOption_eq_some.mp hguard) (Exec.toOption_eq_some.mp hupdate))
  have hcopies : ∀ c, ∀ e ∈ Register.observedOf c s.history,
      e.2 ∈ root₀ :: Register.publishedOf s.history := by
    intro c e he
    obtain ⟨⟨d, event⟩, hevent, heq⟩ := List.mem_filterMap.mp he
    obtain ⟨before, after, hsplit⟩ := List.append_of_mem hevent
    cases event with
    | observed call root =>
        by_cases hdc : d = c
        · simp only [hdc, if_true, Option.some.injEq] at heq
          subst heq
          exact List.mem_of_getElem? (hserialized.copies before d call root after hsplit)
        · simp [hdc] at heq
    | _ => cases heq
  have hreturned : returnedNodes s.history <+: returnedNodes events :=
    hexecuted.returned.map _
  have hallowed : ∀ e ∈ claims.map (Prod.map id Claim.call),
      ∃ a c, e.2 = Claim.call a ∧ .inl a ∈ program c := by
    intro e he
    obtain ⟨a, ha, hmem⟩ := hlog e he
    exact ⟨a, e.1, ha, hmem⟩
  cases hexecuted.serial.atMostOne hexclusive hallowed with
  | none hvalue hrejected hpublished hnone =>
      rw [← hexecuted.published] at hpublished
      refine .unclaimed hvalue ?_ hpublished ?_ ?_
      · intro c hc a ha
        have hmem : (c, a) ∈ claims := by
          rw [← Register.mem_callsOf, hdone c hc]
          exact Register.mem_modifyingCalls.mpr ha
        exact Exec.toOption_eq_some.mp (hrejected _ (List.mem_map_of_mem hmem))
      · intro e he
        have he := hreturned.subset he
        unfold returnedNodes at he
        rw [hnone] at he
        simp only [List.mem_map] at he
        obtain ⟨_, ⟨_, _, rfl⟩, rfl⟩ := he
        rfl
      · intro c e he
        have he := hcopies c e he
        rw [hpublished] at he
        exact List.mem_singleton.mp he
  | @one before after c w hsplit hguard hvalue hpublished hone =>
      rw [← hexecuted.published] at hpublished
      obtain ⟨a, rfl, ha⟩ : ∃ a, w = Claim.call a ∧ .inl a ∈ program c :=
        hlog (c, w) (by rw [hsplit]; simp)
      have hnodes : returnedNodes s.history <+:
          before.map (fun e => (e.1, none)) ++
            (c, s.value) :: after.map fun e => (e.1, none) := by
        unfold returnedNodes at hreturned ⊢
        rw [hone, List.map_append, List.map_cons, List.map_map, List.map_map]
          at hreturned
        exact hreturned
      refine .claimed ha (Exec.toOption_eq_some.mp hguard)
        (Exec.toOption_eq_some.mp hvalue) hpublished hnodes ?_ ?_
      · simp only [List.mem_append, List.mem_map]
        rintro e (⟨_, _, rfl⟩ | ⟨_, _, rfl⟩) <;> rfl
      · intro d e he
        have he := hcopies d e he
        rw [hpublished] at he
        simpa using he

/-- Each client claims the leadership, unless there is a leader. -/
def claimLeadership [StdHash] [Double D] (c : Bool) : List (Claim D ⊕ ReadCall D) :=
  [.inl ⟨[(["leader"], isEmptyCondition false)],
    [(["leader"], setOperator (some (.bool c)))]⟩]

omit [DecidableEq C] in
/-- The client that acquires the mutex first becomes the leader. -/
theorem claims_exclude_claimLeadership :
    letI := constantHash
    ∃ s : StoreState Bool Int,
      returnedNodes s.history =
        [(false, some (.object [("leader", some (.bool false))])), (true, none)] ∧
      ClaimOutcome (some (.object [])) claimLeadership s := by
  let := constantHash
  have hrun : ∃ s : StoreState Bool Int,
      Register.Steps (storeRegister Int)
        (Register.initial (some (.object []))
          (Register.describedProgram Claim.call claimLeadership)) s ∧
      returnedNodes s.history =
        [(false, some (.object [("leader", some (.bool false))])), (true, none)] := by
    exact ⟨_, Relation.ReflTransGen.refl
      |>.tail ⟨false, .acquireModify rfl rfl rfl⟩
      |>.tail ⟨false, .accept rfl rfl⟩
      |>.tail ⟨false, .compute rfl rfl⟩
      |>.tail ⟨false, .acquireExclusive rfl rfl fun _ h => h⟩
      |>.tail ⟨false, .publish rfl⟩
      |>.tail ⟨false, .releaseExclusive rfl⟩
      |>.tail ⟨false, .releaseModify rfl⟩
      |>.tail ⟨true, .acquireModify rfl rfl rfl⟩
      |>.tail ⟨true, .reject rfl rfl⟩
      |>.tail ⟨true, .releaseModify rfl⟩, rfl⟩
  obtain ⟨s, hs, hreturned⟩ := hrun
  refine ⟨s, hreturned, ?_⟩
  refine claims_exclude _ claimLeadership s ?_ hs
  intro c d a b ha hb
  cases List.mem_singleton.mp ha
  cases List.mem_singleton.mp hb
  exact Claim.excludes_of_set (by decide) rfl

end AgencyNode
