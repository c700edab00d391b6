import AgencyNode.NodeConditions

/-!
# Negated conditions

`not_condition_adapter` adds the trait `condition_invert` to the base of a
condition.  `condition_helper` inverts whatever `visit_node` returns: the
decision of the base condition, but also the default it returns for a node of
another type.  A base that has the trait already is inverted once.
-/

namespace AgencyNode

open Lib

variable {D : Type}

namespace ConditionBase

/--
The default action is taken: there is no node, or it has not the type to which
the condition is restricted.
-/
def TakesDefault (F : ConditionBase D) (x : NodePtr D) : Prop :=
  ∀ n, x = some n → ∃ test, F.body = .onlyFor test ∧ test n = none

/-- A condition and its negation: the same default, and opposite decisions. -/
structure NegatedAt (F : ConditionBase D) (x : NodePtr D) : Prop where
  default : F.TakesDefault x →
    conditionHelper F x = .ok F.returnDefault ∧
      notConditionAdapter F x = .ok F.returnDefault
  decision : ¬ F.TakesDefault x →
    notConditionAdapter F x = (fun b => !b) <$> conditionHelper F x

theorem takesDefault_none
    (F : ConditionBase D) :
    F.TakesDefault none := by
  intro n hn
  cases hn

/-- Where the default is taken, `visit_node` returns it. -/
theorem TakesDefault.visitNode
    {F : ConditionBase D}
    {n : Node D}
    (h : F.TakesDefault (some n)) :
    F.visitNode n = .ok F.returnDefault := by
  obtain ⟨test, hbody, htest⟩ := h n rfl
  simp only [ConditionBase.visitNode, hbody, htest]

theorem visitNode_insertInvertTrait
    (F : ConditionBase D)
    (n : Node D) :
    F.insertInvertTrait.visitNode n = F.visitNode n := by
  rfl

theorem conditionHelper_some
    (F : ConditionBase D)
    (n : Node D) :
    conditionHelper F (some n) = F.invertIfRequired <$> F.visitNode n := by
  cases hvisit : F.visitNode n <;> simp [conditionHelper, hvisit]

theorem notConditionAdapter_some
    (F : ConditionBase D)
    (n : Node D) :
    notConditionAdapter F (some n) = (fun b => !b) <$> F.visitNode n := by
  unfold notConditionAdapter
  rw [conditionHelper_some, visitNode_insertInvertTrait]
  rfl

/--
**A condition is negated** where it decides and is not a negation already, and
where there is no node.
-/
theorem negatedAt_iff
    (F : ConditionBase D)
    (x : NodePtr D) :
    F.NegatedAt x ↔
      ∀ n, x = some n →
        ¬ F.TakesDefault x ∧
          (F.invert = true → ∃ e, F.visitNode n = .error e) := by
  cases x with
  | none =>
      constructor
      · intro _ n hn
        cases hn
      · intro _
        exact ⟨fun _ => ⟨rfl, rfl⟩, fun h => absurd F.takesDefault_none h⟩
  | some n =>
      constructor
      · rintro ⟨hdefault, hdecision⟩ m hm
        cases hm
        have hdecides : ¬ F.TakesDefault (some n) := by
          intro h
          obtain ⟨_, hnegation⟩ := hdefault h
          rw [notConditionAdapter_some, h.visitNode] at hnegation
          have hinverted := Except.ok.inj hnegation
          simp at hinverted
        refine ⟨hdecides, ?_⟩
        intro hinvert
        have hopposite := hdecision hdecides
        rw [notConditionAdapter_some, conditionHelper_some] at hopposite
        cases hvisit : F.visitNode n with
        | error e =>
            exact ⟨e, rfl⟩
        | ok b =>
            rw [hvisit] at hopposite
            have hinverted := Except.ok.inj hopposite
            simp [invertIfRequired, hinvert] at hinverted
      · intro h
        obtain ⟨hdecides, hinvert⟩ := h n rfl
        refine ⟨fun h => absurd h hdecides, fun _ => ?_⟩
        rw [notConditionAdapter_some, conditionHelper_some]
        cases hvisit : F.visitNode n with
        | error e =>
            rfl
        | ok b =>
            have hplain : F.invert = false := by
              rw [Bool.eq_false_iff]
              intro htrait
              obtain ⟨e, he⟩ := hinvert htrait
              rw [hvisit] at he
              cases he
            change Except.ok (!b) = Except.ok (!F.invertIfRequired b)
            simp [invertIfRequired, hplain]

end ConditionBase

/-! ## not_in_condition -/

section NotIn

variable [StdHash] [Double D]

/-- Every element is compared, and none is found equal. -/
theorem contains_eq_false_iff
    {array : NodeArray D}
    {v : NodePtr D} :
    NodeArray.contains array v = .ok false ↔
      ∀ needle, v = some needle →
        ∀ element ∈ array, Node.ptrEq (some needle) element = .ok false := by
  cases v with
  | none =>
      simp [NodeArray.contains]
  | some needle =>
      have hloop : NodeArray.anyEqual (some needle) array = .ok false ↔
          ∀ element ∈ array, Node.ptrEq (some needle) element = .ok false := by
        induction array with
        | nil =>
            simp [NodeArray.anyEqual]
        | cons element array ih =>
            rw [NodeArray.anyEqual, List.forall_mem_cons, ← ih]
            cases hequal : Node.ptrEq (some needle) element with
            | error e =>
                simp
            | ok b =>
                cases b <;> simp
      simp [NodeArray.contains, hloop]

/--
`not_in_condition` holds of the arrays in which no element is found equal to
the node.
-/
def NotInMeansAbsent (v x : NodePtr D) : Prop :=
  notInCondition v x = .ok true ↔
    ∃ array, x = some (.array array) ∧
      ∀ needle, v = some needle →
        ∀ element ∈ array, Node.ptrEq (some needle) element = .ok false

theorem notInCondition_array
    (v : NodePtr D)
    (array : NodeArray D) :
    notInCondition v (some (.array array)) =
      (fun b => !b) <$> NodeArray.contains array v :=
  ConditionBase.notConditionAdapter_some _ _

theorem notInMeansAbsent_iff
    (v x : NodePtr D) :
    NotInMeansAbsent v x ↔ ∀ n, x = some n → ∃ array, n = .array array := by
  unfold NotInMeansAbsent
  cases x with
  | none =>
      constructor
      · intro _ n hn
        cases hn
      · intro _
        constructor
        · intro h
          cases h
        · rintro ⟨array, harray, _⟩
          cases harray
  | some n =>
      cases n with
      | array array =>
          refine ⟨fun _ n hn => ⟨array, (Option.some.inj hn).symm⟩, fun _ => ?_⟩
          rw [notInCondition_array]
          have hcontains : ((fun b => !b) <$> NodeArray.contains array v) = .ok true ↔
              NodeArray.contains array v = .ok false := by
            cases NodeArray.contains array v with
            | error e =>
                constructor
                · intro h
                  cases h
                · intro h
                  cases h
            | ok b =>
                cases b <;> simp
          rw [hcontains, contains_eq_false_iff]
          constructor
          · intro h
            exact ⟨array, rfl, h⟩
          · rintro ⟨array', harray, h⟩
            cases harray
            exact h
      | _ =>
          constructor
          · intro h
            obtain ⟨array, harray, _⟩ := h.mp rfl
            cases harray
          · intro h
            obtain ⟨array, harray⟩ := h _ rfl
            cases harray

/--
**A condition is negated by its decision** where there is no node, or where it
decides and is not a negation already; `not_in_condition` is what its name says
where there is no node or an array.
-/
theorem negation_iff :
    (∀ (F : ConditionBase D) (x : NodePtr D),
      F.NegatedAt x ↔
        ∀ n, x = some n →
          ¬ F.TakesDefault x ∧
            (F.invert = true → ∃ e, F.visitNode n = .error e)) ∧
      ∀ v x : NodePtr D,
        NotInMeansAbsent v x ↔ ∀ n, x = some n → ∃ array, n = .array array :=
  ⟨ConditionBase.negatedAt_iff, notInMeansAbsent_iff⟩

end NotIn

/-- A number is not an array that lacks an element. -/
theorem negation_of_other_type :
    letI := constantHash
    ¬ (valueInCondition (some (.null : Node Int))).NegatedAt (some (.double 5)) ∧
      ¬ NotInMeansAbsent (some (.null : Node Int)) (some (.double 5)) := by
  let := constantHash
  refine ⟨?_, ?_⟩
  · intro h
    have htakes : (valueInCondition (some (.null : Node Int))).TakesDefault
        (some (.double 5)) := by
      intro n hn
      cases hn
      exact ⟨_, rfl, rfl⟩
    obtain ⟨_, hnegation⟩ := h.default htakes
    cases hnegation
  · intro h
    obtain ⟨array, harray, _⟩ := h.mp rfl
    cases harray

end AgencyNode
