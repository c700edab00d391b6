import AgencyNode.TransactionGrammar

/-!
# Exceptions of the envelope deserializer

The executors for dispatch on a field call `Slice::get` before anything has
established that the slice is an object, and `field_value_dependent` prints the
value it has not found.  So an operation that is no object or has no field `op`,
and a precondition that is no object, raise an exception instead of an error.

The deserializer stops at the first error, hence whether such a member is met
depends on what comes before it.
-/

namespace AgencyNode

open Lib Deserialize

variable {D : Type}

/-! ## What raises no exception -/

/-- The value is an object. -/
def IsObject (j : Json D) : Prop :=
  ∃ ms, j = .object ms

/-- The value is an object with a field `op`. -/
def HasOp (j : Json D) : Prop :=
  ∃ ms v, j = .object ms ∧ AssocMap.find ms "op" = some v

/-- The value is described as an operation. -/
def IsOperation (j : Json D) : Prop :=
  ∃ o : OperationObject D, o.Describes j

/-- The value is described as a precondition. -/
def IsPrecondition (j : Json D) : Prop :=
  ∃ o : PreconditionObject D, o.Describes j

/-- The value is described as a transaction. -/
def IsTransaction (j : Json D) : Prop :=
  ∃ t : TransactionObject D, t.Describes j

/--
If the value is an object, what a scan of its members meets up to the first one
that is not `good` is `safe`.
-/
def MembersSafe (good safe : Json D → Prop) (j : Json D) : Prop :=
  ∀ ms, j = .object ms →
    Outcome.ScanSafe (fun m : String × Json D => good m.2) (fun m => safe m.2) ms

/-- The value is an object whose members are operations. -/
def IsOperations (j : Json D) : Prop :=
  ∃ ms, j = .object ms ∧ ∀ m ∈ ms, IsOperation m.2

/-- The operations have a field `op`, and the preconditions are objects. -/
def TransactionSafe (j : Json D) : Prop :=
  ∀ ops rest, j = .array (ops :: rest) →
    MembersSafe IsOperation HasOp ops ∧
      ∀ precs rest', rest = precs :: rest' → IsOperations ops →
        MembersSafe IsPrecondition IsObject precs

/-- The transactions are safe, up to the first that is not well formed. -/
def EnvelopeSafe (j : Json D) : Prop :=
  ∀ elements, j = .array elements →
    Outcome.ScanSafe IsTransaction TransactionSafe elements

/-! ## Operations -/

section Operations

variable [Double D]

theorem returns_increment
    {ms : List (String × Json D)}
    {v : Slice D} :
    (fromFactory (parameterList incrementOperationPlan)
        incrementOperationFactory
        (valueHints "op" (.stringValue "increment") v)
        (some (.object ms))).Returns := by
  rw [returns_fromFactory]
  refine ⟨returns_parameterList ⟨.inl rfl, ?_, trivial⟩, ?_⟩
  · intro j _
    exact returns_wrapError.mpr (returns_readDouble _)
  · intro b _
    exact ⟨_, rfl⟩

theorem returns_set
    {ms : List (String × Json D)}
    (hop : (Value.stringValue "set").compare (AssocMap.find ms "op") =
      .ok true) :
    (fromFactory (parameterList setOperationPlan)
        setOperationFactory
        (valueHints "op" (.stringValue "set") (AssocMap.find ms "op"))
        (some (.object ms))).Returns := by
  rw [returns_fromFactory]
  refine ⟨returns_parameterList ⟨.inl rfl, ?_, ?_, trivial⟩, ?_⟩
  · intro j _
    exact Outcome.returns_pure _
  · intro j _
    exact returns_wrapError.mpr (returns_readDouble _)
  · intro b hb
    have hmatches :=
      ((accepts_parameterList (hold_valueHints hop)
        OperationObject.nodup_names_setOperationPlan).mp hb).1
    obtain ⟨_, ⟨new, _, hnew⟩, _⟩ :=
      OperationObject.matches_setOperationPlan.mp hmatches
    obtain ⟨value, rest⟩ := b
    cases hnew
    exact ⟨_, rfl⟩

/-- **An operation raises no exception if and only if it has a field `op`.** -/
theorem returns_agencyOperationDeserialzer
    {j : Json D} :
    (agencyOperationDeserialzer [] (some j)).Returns ↔ HasOp j := by
  rw [agencyOperationDeserialzer, returns_fromFactory]
  have hfactory : ∀ v : Transformation D ⊕ (Transformation D ⊕ Empty),
      ∃ f, agencyOperationFactory v = .ok f := by
    rintro (f | f | f)
    · exact ⟨f, rfl⟩
    · exact ⟨f, rfl⟩
    · exact f.elim
  simp only [agencyOperationPlan, returns_fieldValueDependent, get_eq_ok,
    hfactory, implies_true, and_true]
  constructor
  · rintro ⟨v, ⟨ms, hms, hfind⟩, hsafe⟩
    cases hms
    cases v with
    | some v =>
        exact ⟨ms, v, rfl, hfind⟩
    | none =>
        -- No value compares equal to the None slice, and it can not be printed.
        have hnone : Slice.isNone (none : Slice D) = false :=
          (hsafe.2 rfl).2 rfl
        cases hnone
  · rintro ⟨ms, v, rfl, hfind⟩
    refine ⟨_, ⟨ms, rfl, rfl⟩, ?_, ?_⟩
    · intro hop
      exact returns_increment
    · intro _
      refine ⟨?_, ?_⟩
      · intro hop
        exact returns_set hop
      · intro _
        show Slice.isNone (AssocMap.find ms "op") = false
        rw [hfind]
        rfl

end Operations

/-! ## Preconditions -/

section Preconditions

variable [Double D]

theorem returns_sliceCondition
    {name : String}
    {constructedType : NodePtr D → Condition D}
    {ms : List (String × Json D)}
    {hints : HintList D}
    (hhints : hints.Hold ms) :
    (fromFactory (parameterList (.value (factorySliceParameter name true) .nil))
      (sliceConditionFactory constructedType) hints
      (some (.object ms))).Returns := by
  refine returns_fromFactory_single rfl ?_ ?_ hhints
  · intro j
    exact Outcome.returns_pure _
  · intro j a ha
    cases ha
    exact ⟨_, rfl⟩

theorem returns_oldEmpty
    {ms : List (String × Json D)}
    {hints : HintList D}
    (hhints : hints.Hold ms) :
    (fromFactory (parameterList (.value preconditionOldEmptyParameter .nil))
      (oldEmptyConditionFactory (D := D)) hints
      (some (.object ms))).Returns := by
  refine returns_fromFactory_single rfl ?_ ?_ hhints
  · intro j
    exact returns_wrapError.mpr (returns_readBool _)
  · intro j a _
    exact ⟨_, rfl⟩

variable [StdHash]

/-- **A precondition raises no exception if and only if it is an object.** -/
theorem returns_agencyPreconditionDeserialzer
    {j : Json D} :
    (agencyPreconditionDeserialzer [] (some j)).Returns ↔ IsObject j := by
  rw [agencyPreconditionDeserialzer, returns_fromFactory]
  have hfactory : ∀ v : Condition D ⊕ (Condition D ⊕ (Condition D ⊕ Empty)),
      ∃ f, agencyPreconditionFactory v = .ok f := by
    rintro (f | f | f | f)
    · exact ⟨f, rfl⟩
    · exact ⟨f, rfl⟩
    · exact ⟨f, rfl⟩
    · exact f.elim
  simp only [agencyPreconditionPlan, returns_fieldNameDependent, hfactory,
    implies_true, and_true]
  constructor
  · intro hsafe
    rcases hsafe with ⟨_, hget, _⟩ | ⟨hget, _⟩
    · obtain ⟨ms, hms, _⟩ := get_eq_ok.mp hget
      cases hms
      exact ⟨ms, rfl⟩
    · obtain ⟨ms, hms, _⟩ := get_eq_ok.mp hget
      cases hms
      exact ⟨ms, rfl⟩
  · rintro ⟨ms, rfl⟩
    have hget : ∀ name,
        Slice.get (some (.object ms)) name = .ok (AssocMap.find ms name) :=
      fun _ => rfl
    cases hold : AssocMap.find ms "old" with
    | some v =>
        refine .inl ⟨v, (hget _).trans (congrArg _ hold), ?_⟩
        exact returns_sliceCondition hold_nameHints
    | none =>
        refine .inr ⟨(hget _).trans (congrArg _ hold), ?_⟩
        cases holdNot : AssocMap.find ms "oldNot" with
        | some v =>
            refine .inl ⟨v, (hget _).trans (congrArg _ holdNot), ?_⟩
            exact returns_sliceCondition hold_nameHints
        | none =>
            refine .inr ⟨(hget _).trans (congrArg _ holdNot), ?_⟩
            cases holdEmpty : AssocMap.find ms "oldEmpty" with
            | some v =>
                refine .inl ⟨v, (hget _).trans (congrArg _ holdEmpty), ?_⟩
                exact returns_oldEmpty hold_nameHints
            | none =>
                exact .inr ⟨(hget _).trans (congrArg _ holdEmpty), trivial⟩

end Preconditions

/-! ## Transactions -/

/-- A map raises no exception if its scan does not. -/
theorem returns_mapDeserializer_iff
    {α : Type}
    {d : Deserializer D α}
    {j : Json D}
    {good safe : Json D → Prop}
    (hgood : ∀ ms, j = .object ms → ∀ m ∈ ms,
      ((∃ a, (d [] (some m.2)).Accepts a) ↔ good m.2))
    (hsafe : ∀ ms, j = .object ms → ∀ m ∈ ms,
      ((d [] (some m.2)).Returns ↔ safe m.2)) :
    (mapDeserializer d [] (some j)).Returns ↔ MembersSafe good safe j := by
  by_cases hobject : Slice.isObject (some j) = true
  · obtain ⟨ms, hms⟩ := isObject_iff.mp hobject
    cases hms
    rw [returns_mapDeserializer (hgood ms rfl) (hsafe ms rfl)]
    constructor
    · intro h ms' hms'
      cases hms'
      exact h
    · intro h
      exact h ms rfl
  · have hnot := eq_false_of_ne_true hobject
    refine iff_of_true (returns_mapDeserializer_of_not_object hnot) ?_
    rintro ms rfl
    exact absurd rfl hobject

section Envelope

variable [Double D]

theorem returns_operationDeserializer
    {j : Json D} :
    (operationDeserializer [] (some j)).Returns ↔
      MembersSafe IsOperation HasOp j := by
  apply returns_mapDeserializer_iff
  · rintro ms rfl m hm
    simp [OperationObject.accepts_agencyOperationDeserialzer, IsOperation]
  · rintro ms rfl m hm
    exact returns_agencyOperationDeserialzer

theorem exists_accepts_operationDeserializer
    {j : Json D} :
    (∃ es, (operationDeserializer [] (some j)).Accepts es) ↔
      IsOperations j := by
  constructor
  · rintro ⟨es, hes⟩
    obtain ⟨ms, hms⟩ := isObject_of_accepts_mapDeserializer hes
    cases hms
    obtain ⟨os, hos, _⟩ := accepts_operationDeserializer.mp hes
    exact ⟨ms, rfl, exists_describesMembers_iff.mp ⟨os, hos⟩⟩
  · rintro ⟨ms, rfl, hms⟩
    obtain ⟨os, hos⟩ := exists_describesMembers_iff.mpr hms
    exact ⟨_, accepts_operationDeserializer.mpr ⟨os, hos, rfl⟩⟩

variable [StdHash]

theorem returns_preconditionDeserializer
    {j : Json D} :
    (preconditionDeserializer [] (some j)).Returns ↔
      MembersSafe IsPrecondition IsObject j := by
  apply returns_mapDeserializer_iff
  · rintro ms rfl m hm
    simp [PreconditionObject.accepts_agencyPreconditionDeserialzer,
      IsPrecondition]
  · rintro ms rfl m hm
    exact returns_agencyPreconditionDeserialzer

/-- The three deserializers of a transaction, up to the first that rejects. -/
theorem safe_agencyTransactionElements
    {elements : List (Json D)} :
    agencyTransactionElements.Safe elements ↔
      TransactionSafe (.array elements) := by
  rcases elements with _ | ⟨ops, _ | ⟨precs, rest⟩⟩
  · refine iff_of_true trivial ?_
    intro ops rest h
    cases h
  · have hops := returns_operationDeserializer (j := ops)
    constructor
    · rintro ⟨h, _⟩ ops' rest' heq
      cases heq
      refine ⟨hops.mp h, ?_⟩
      intro precs rest'' hrest
      cases hrest
    · intro h
      exact ⟨hops.mpr (h _ _ rfl).1, fun _ => trivial⟩
  · have hops := returns_operationDeserializer (j := ops)
    have haccepts := exists_accepts_operationDeserializer (j := ops)
    have hprecs := returns_preconditionDeserializer (j := precs)
    constructor
    · rintro ⟨h, hrest⟩ ops' rest' heq
      cases heq
      refine ⟨hops.mp h, ?_⟩
      intro precs' rest'' heq' hoperations
      cases heq'
      exact hprecs.mp (hrest (haccepts.mpr hoperations)).1
    · intro h
      obtain ⟨h, hrest⟩ := h _ _ rfl
      refine ⟨hops.mpr h, ?_⟩
      intro hoperations
      refine ⟨hprecs.mpr (hrest _ _ rfl (haccepts.mp hoperations)), ?_⟩
      intro _
      cases rest with
      | nil =>
          trivial
      | cons id rest =>
          exact ⟨returns_readString _, fun _ => trivial⟩

theorem returns_agencyTransactionDeserializer
    {j : Json D} :
    (agencyTransactionDeserializer [] (some j)).Returns ↔
      TransactionSafe j := by
  rw [agencyTransactionDeserializer, returns_fromFactory]
  have hfactory : ∀ v : List (String × Transformation D) ×
      List (String × Condition D) × String × Unit,
      ∃ t, agencyTransactionFactory v = .ok t := fun _ => ⟨_, rfl⟩
  simp only [hfactory, implies_true, and_true]
  by_cases harray : Slice.isArray (some j) = true
  · obtain ⟨elements, helements⟩ := isArray_iff.mp harray
    cases helements
    rw [returns_fixedOrderDeserializer, safe_agencyTransactionElements]
  · have hnot := eq_false_of_ne_true harray
    refine iff_of_true (returns_fixedOrderDeserializer_of_not_array hnot) ?_
    rintro ops rest rfl
    exact absurd rfl harray

end Envelope

end AgencyNode
