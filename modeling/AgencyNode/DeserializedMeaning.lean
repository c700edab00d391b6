import AgencyNode.NodeContainer
import AgencyNode.Store
import AgencyNode.TransactionGrammar

/-!
# The meaning of deserialized operations and preconditions

What an accepted JSON object does to a tree, compared with what it says.  An
operation stands for one of the native operators, a precondition for a statement
about the node at its path.

The two agree except in two places: an increment without `delta` adds zero where
the native default is one, and the flag of `oldEmpty` arrives as the argument
`inverted`.
-/

namespace AgencyNode

open Lib Deserialize

variable {D : Type}

/-! ## Operations -/

theorem Node.transform_single
    (n : Node D)
    (p : Path)
    (f : Transformation D) :
    n.transform [(p, f)] = f (n.get p) >>= n.set p := by
  change ((f (n.get p) >>= n.set p) >>= pure) = _
  rw [bind_pure]

section Operations

variable [Double D]

/-- What an increment leaves where it finds a node or nothing. -/
def incremented (delta : D) (node : NodePtr D) : D :=
  match node with
  | some (.double v) => Double.add v delta
  | _ => delta

theorem incrementOperator_eq
    (delta : D)
    (node : NodePtr D) :
    incrementOperator delta node = .ok (some (.double (incremented delta node))) := by
  rcases node with _ | n
  · rfl
  · cases n <;> rfl

theorem incremented_zero_eq_one_iff
    (node : NodePtr D) :
    incremented Double.zero node = incremented Double.one node ↔
      ∃ v : D, node = some (.double v) ∧
        Double.add v Double.zero = Double.add v Double.one := by
  rcases node with _ | n
  · simp [incremented, Double.zero_ne_one]
  · cases n <;> simp [incremented, Double.zero_ne_one]

namespace OperationObject

/-- The operator of the API that the object stands for. -/
def native : OperationObject D → Transformation D
  | .increment (some delta) => incrementOperator delta
  | .increment none => incrementOperatorDefault
  | .set new _ => setOperator (some (Node.ofJson new))

/--
The object is no increment without `delta`, or adding zero is adding one, or the
transform does not end in any case.
-/
def AgreesWithNative (o : OperationObject D) (n : Node D) (p : Path) : Prop :=
  o = .increment none →
    (∃ v, n.get p = some (.double v) ∧
        Double.add v Double.zero = Double.add v Double.one) ∨
      ¬ IndexUseInBounds (some n) p

/-- The exact condition for one increment. -/
theorem transform_increment_eq_iff
    (n : Node D)
    (p : Path) :
    n.transform [(p, incrementOperator Double.zero)] =
        n.transform [(p, incrementOperatorDefault)] ↔
      (∃ v, n.get p = some (.double v) ∧
          Double.add v Double.zero = Double.add v Double.one) ∨
        ¬ IndexUseInBounds (some n) p := by
  rw [n.transform_single, n.transform_single, incrementOperatorDefault,
    incrementOperator_eq, incrementOperator_eq, Exec.ok_bind, Exec.ok_bind,
    n.set_eq_set_iff, ← incremented_zero_eq_one_iff]
  simp

/--
**A deserialized operation transforms a tree like the native operator**, with
the exception of an increment without `delta`.
-/
theorem transform_native_iff
    (j : Json D)
    (f : Transformation D)
    (haccepts : (agencyOperationDeserialzer [] (some j)).Accepts f) :
    (∃ o : OperationObject D, o.Describes j) ∧
      ∀ o : OperationObject D, o.Describes j → ∀ (n : Node D) (p : Path),
        (n.transform [(p, f)] = n.transform [(p, o.native)] ↔
          o.AgreesWithNative n p) := by
  obtain ⟨o', ho', _⟩ := accepts_agencyOperationDeserialzer.mp haccepts
  refine ⟨⟨o', ho'⟩, ?_⟩
  intro o ho n p
  have hf : f = o.deserialized :=
    haccepts.unique (accepts_agencyOperationDeserialzer.mpr ⟨o, ho, rfl⟩)
  subst hf
  cases o with
  | increment delta =>
      cases delta with
      | some delta =>
          exact iff_of_true rfl (fun h => by cases h)
      | none =>
          have hagrees :
              AgreesWithNative (.increment none) n p ↔ _ :=
            forall_prop_of_true rfl
          rw [hagrees]
          exact transform_increment_eq_iff n p
  | set new ttl =>
      exact iff_of_true rfl (fun h => by cases h)

end OperationObject

end Operations

/-- With a `delta`, the deserialized increment is the native one. -/
theorem transform_native_increment_delta :
    ∃ f, (agencyOperationDeserialzer (D := Int) []
        (some (.object
          [("delta", .number 2), ("op", .string "increment")]))).Accepts f ∧
      Node.transform (.object [("x", some (.double 5))]) [(["x"], f)] =
        Node.transform (.object [("x", some (.double 5))])
          [(["x"], incrementOperator 2)] := by
  have haccepts :
      (agencyOperationDeserialzer (D := Int) []
        (some (.object
          [("delta", .number 2), ("op", .string "increment")]))).Accepts
            (incrementOperator 2) := rfl
  have hdescribes :
      (OperationObject.increment (some (2 : Int))).Describes
        (.object [("delta", .number 2), ("op", .string "increment")]) :=
    ⟨_, rfl, List.Perm.swap _ _ _⟩
  refine ⟨_, haccepts, ?_⟩
  refine ((OperationObject.transform_native_iff _ _ haccepts).2 _ hdescribes
    _ _).mpr ?_
  intro h
  cases h

/-- Zero is added to `5` where the default would add one. -/
theorem transform_native_increment :
    ∃ f, (agencyOperationDeserialzer (D := Int) []
        (some (.object [("op", .string "increment")]))).Accepts f ∧
      Node.transform (.object [("x", some (.double 5))]) [(["x"], f)] ≠
        Node.transform (.object [("x", some (.double 5))])
          [(["x"], incrementOperatorDefault)] := by
  refine ⟨_, rfl, ?_⟩
  intro h
  cases h

/-! ## Preconditions -/

namespace PreconditionObject

/-- A JSON value is described by one precondition at most. -/
theorem Describes.unique
    {o o' : PreconditionObject D}
    {j : Json D}
    (h : o.Describes j)
    (h' : o'.Describes j) :
    o = o' := by
  cases o <;> cases o' <;> simp_all [Describes, member]

end PreconditionObject

/-- The value is an object with the field `oldEmpty`. -/
def IsOldEmpty (j : Json D) : Prop :=
  ∃ b, (PreconditionObject.oldEmpty b).Describes j

section Preconditions

variable [StdHash] [Double D]

namespace PreconditionObject

/-- What the object says about the node at its path. -/
def Holds : PreconditionObject D → NodePtr D → Prop
  | .old v, x => ∃ n, x = some n ∧ (Node.ofJson v).eq n = .ok true
  | .oldNot v, x => ∃ n, x = some n ∧ (Node.ofJson v).eq n = .ok false
  | .oldEmpty true, x => x = none
  | .oldEmpty false, x => x ≠ none

theorem deserialized_old_iff
    (v : Json D)
    (x : NodePtr D) :
    (old v).deserialized x = .ok true ↔ (old v).Holds x := by
  cases x with
  | none =>
      simp [deserialized, equalCondition, conditionHelper,
        ConditionBase.returnDefault, valueEqualsCondition, Holds]
  | some n =>
      simp [deserialized, equalCondition, conditionHelper,
        ConditionBase.visitNode, ConditionBase.invertIfRequired,
        valueEqualsCondition, Node.ptrEq, Holds, Exec.bind_eq_ok]

theorem deserialized_oldNot_iff
    (v : Json D)
    (x : NodePtr D) :
    (oldNot v).deserialized x = .ok true ↔ (oldNot v).Holds x := by
  cases x with
  | none =>
      simp [deserialized, notEqualCondition, notConditionAdapter,
        conditionHelper, ConditionBase.insertInvertTrait,
        ConditionBase.returnDefault, valueEqualsCondition, Holds]
  | some n =>
      simp [deserialized, notEqualCondition, notConditionAdapter,
        conditionHelper, ConditionBase.insertInvertTrait,
        ConditionBase.visitNode, ConditionBase.invertIfRequired,
        valueEqualsCondition, Node.ptrEq, Holds, Exec.bind_eq_ok]

/-- The flag is taken for an inversion. -/
theorem deserialized_oldEmpty_iff
    (b : Bool)
    (x : NodePtr D) :
    (oldEmpty b).deserialized x = .ok true ↔ ¬ (oldEmpty b).Holds x := by
  cases x <;> cases b <;> simp [deserialized, isEmptyCondition, Holds]

end PreconditionObject

/-- What a precondition object says about the node at its path. -/
def PreconditionHolds (j : Json D) (x : NodePtr D) : Prop :=
  ∃ o : PreconditionObject D, o.Describes j ∧ o.Holds x

/-- What the code tests is what the object says, or its opposite. -/
theorem condition_iff
    {j : Json D}
    {f : Condition D}
    (haccepts : (agencyPreconditionDeserialzer [] (some j)).Accepts f)
    (x : NodePtr D) :
    (¬ IsOldEmpty j → (f x = .ok true ↔ PreconditionHolds j x)) ∧
      (IsOldEmpty j → (f x = .ok true ↔ ¬ PreconditionHolds j x)) := by
  obtain ⟨o, ho, rfl⟩ :=
    PreconditionObject.accepts_agencyPreconditionDeserialzer.mp haccepts
  have hholds : PreconditionHolds j x ↔ o.Holds x := by
    constructor
    · rintro ⟨o', ho', h⟩
      exact ho'.unique ho ▸ h
    · intro h
      exact ⟨o, ho, h⟩
  rw [hholds]
  cases o with
  | old v =>
      refine ⟨fun _ => PreconditionObject.deserialized_old_iff v x, ?_⟩
      rintro ⟨b, hb⟩
      cases ho.unique hb
  | oldNot v =>
      refine ⟨fun _ => PreconditionObject.deserialized_oldNot_iff v x, ?_⟩
      rintro ⟨b, hb⟩
      cases ho.unique hb
  | oldEmpty b =>
      exact ⟨fun h => absurd ⟨b, ho⟩ h,
        fun _ => PreconditionObject.deserialized_oldEmpty_iff b x⟩

end Preconditions

/-! ## Checks and transactions -/

/-- A conjunction is true if all its conjuncts are. -/
theorem Node.fold_and_iff
    (n : Node D)
    (conditions : List (FoldAction D Bool))
    (i : Bool) :
    n.fold conditions (fun a b => a && b) i = .ok true ↔
      i = true ∧ ∀ c ∈ conditions, c.2 (n.get c.1) = .ok true := by
  unfold fold
  induction conditions generalizing i with
  | nil =>
      simp
  | cons c conditions ih =>
      rw [List.foldlM_cons, Exec.bind_eq_ok, List.forall_mem_cons]
      simp only [ih]
      constructor
      · rintro ⟨acc, hstep, rfl, hrest⟩
        obtain ⟨t, ht, hand⟩ := Exec.bind_eq_ok.mp hstep
        cases i with
        | true =>
            cases hand
            exact ⟨rfl, ht, hrest⟩
        | false =>
            cases hand
      · rintro ⟨rfl, ht, hrest⟩
        exact ⟨true, Exec.bind_eq_ok.mpr ⟨true, ht, rfl⟩, rfl, hrest⟩

theorem StoreBase.check_iff
    (n : Node D)
    (conditions : List (FoldAction D Bool)) :
    StoreBase.check ⟨some n⟩ conditions = .ok true ↔
      ∀ c ∈ conditions, c.2 (n.get c.1) = .ok true := by
  have h := n.fold_and_iff conditions true
  rw [and_iff_right rfl] at h
  exact h

/-- A transaction whose operations go through commits if its check does. -/
theorem StoreBase.transact_iff
    (n : Node D)
    (conditions : List (FoldAction D Bool))
    (operations : List (TransformAction D))
    (m : NodePtr D)
    (hm : transformRoot (some n) operations = .ok m) :
    StoreBase.transact ⟨some n⟩ conditions operations =
        .ok (StoreBase.setInternal m) ↔
      StoreBase.check ⟨some n⟩ conditions = .ok true := by
  have hcheck :
      StoreBase.check ⟨some n⟩ conditions = foldAnd (some n) conditions := rfl
  unfold transact
  rw [hcheck]
  cases foldAnd (some n) conditions with
  | error e =>
      simp
  | ok b =>
      cases b with
      | true =>
          simp [hm]
      | false =>
          have hne :
              ((⟨some n⟩, none) : StoreBase D × NodePtr D) ≠ setInternal m := by
            intro heq
            obtain ⟨hroot, rfl⟩ := Prod.mk.inj heq
            cases hroot
          simpa using hne

/--
Two lists of statements, one of which has some of the other's inverted: all of
the one are true exactly if all of the other are.
-/
theorem forall_iff_forall_of_inverted
    {ι : Type}
    {l : List ι}
    {tests holds inverted : ι → Prop}
    (hplain : ∀ c ∈ l, ¬ inverted c → (tests c ↔ holds c))
    (hinverted : ∀ c ∈ l, inverted c → (tests c ↔ ¬ holds c)) :
    ((∀ c ∈ l, tests c) ↔ ∀ c ∈ l, holds c) ↔
      (∀ c ∈ l, ¬ inverted c) ∨
        (∃ c ∈ l, ¬ inverted c ∧ ¬ holds c) ∨
        ((∃ c ∈ l, inverted c ∧ holds c) ∧ ∃ c ∈ l, inverted c ∧ ¬ holds c) := by
  constructor
  · intro hiff
    by_cases hnone : ∀ c ∈ l, ¬ inverted c
    · exact .inl hnone
    · by_cases hfails : ∃ c ∈ l, ¬ inverted c ∧ ¬ holds c
      · exact .inr (.inl hfails)
      · push Not at hnone hfails
        obtain ⟨e, he, hinv⟩ := hnone
        have hplain' : ∀ c ∈ l, ¬ inverted c → holds c := hfails
        refine .inr (.inr ⟨?_, ?_⟩)
        · by_contra hnot
          push Not at hnot
          have htests : ∀ c ∈ l, tests c := by
            intro c hc
            by_cases h : inverted c
            · exact (hinverted c hc h).mpr (hnot c hc h)
            · exact (hplain c hc h).mpr (hplain' c hc h)
          exact hnot e he hinv (hiff.mp htests e he)
        · by_contra hnot
          push Not at hnot
          have hholds : ∀ c ∈ l, holds c := by
            intro c hc
            by_cases h : inverted c
            · exact hnot c hc h
            · exact hplain' c hc h
          have htest := hiff.mpr hholds e he
          exact (hinverted e he hinv).mp htest (hholds e he)
  · rintro (hnone | ⟨c, hc, hinv, hnot⟩ | ⟨⟨c, hc, hinv, h⟩, d, hd, _, hnot⟩)
    · exact forall₂_congr fun c hc => hplain c hc (hnone c hc)
    · have htest : ¬ tests c := fun ht => hnot ((hplain c hc hinv).mp ht)
      exact iff_of_false (fun hall => htest (hall c hc))
        (fun hall => hnot (hall c hc))
    · have htest : ¬ tests c := fun ht => (hinverted c hc hinv).mp ht h
      exact iff_of_false (fun hall => htest (hall c hc))
        (fun hall => hnot (hall d hd))

section Meaning

variable [StdHash] [Double D]

/--
The preconditions of a call can not be told from their opposites: none of them
is an `oldEmpty`, or one of the others fails, or the `oldEmpty`s disagree.
-/
def InversionUnnoticed (n : Node D) (cs : List (Path × Json D)) : Prop :=
  (∀ c ∈ cs, ¬ IsOldEmpty c.2) ∨
    (∃ c ∈ cs, ¬ IsOldEmpty c.2 ∧ ¬ PreconditionHolds c.2 (n.get c.1)) ∨
    ((∃ c ∈ cs, IsOldEmpty c.2 ∧ PreconditionHolds c.2 (n.get c.1)) ∧
      ∃ c ∈ cs, IsOldEmpty c.2 ∧ ¬ PreconditionHolds c.2 (n.get c.1))

/--
**A deserialized precondition means what it says if and only if it is no
`oldEmpty`**, and a check or a transaction decides by what its preconditions say
if and only if the inverted ones among them go unnoticed.
-/
theorem preconditions_mean_iff
    (n : Node D)
    (cs : List ((Path × Json D) × Condition D))
    (haccepts : ∀ c ∈ cs,
      (agencyPreconditionDeserialzer [] (some c.1.2)).Accepts c.2) :
    (∀ c ∈ cs, ∀ x,
        ((c.2 x = .ok true ↔ PreconditionHolds c.1.2 x) ↔
          ¬ IsOldEmpty c.1.2)) ∧
      ((StoreBase.check ⟨some n⟩ (cs.map fun c => (c.1.1, c.2)) = .ok true ↔
          ∀ c ∈ cs, PreconditionHolds c.1.2 (n.get c.1.1)) ↔
        InversionUnnoticed n (cs.map Prod.fst)) ∧
      ∀ operations m,
        StoreBase.transformRoot (some n) operations = .ok m →
        ((StoreBase.transact ⟨some n⟩ (cs.map fun c => (c.1.1, c.2))
              operations = .ok (StoreBase.setInternal m) ↔
            ∀ c ∈ cs, PreconditionHolds c.1.2 (n.get c.1.1)) ↔
          InversionUnnoticed n (cs.map Prod.fst)) := by
  have hcheck :
      (StoreBase.check ⟨some n⟩ (cs.map fun c => (c.1.1, c.2)) = .ok true ↔
          ∀ c ∈ cs, PreconditionHolds c.1.2 (n.get c.1.1)) ↔
        InversionUnnoticed n (cs.map Prod.fst) := by
    have hlogic :=
      forall_iff_forall_of_inverted
        (fun c hc => (condition_iff (haccepts c hc) (n.get c.1.1)).1)
        (fun c hc => (condition_iff (haccepts c hc) (n.get c.1.1)).2)
    rw [StoreBase.check_iff, List.forall_mem_map, hlogic]
    simp only [InversionUnnoticed, List.mem_map, exists_exists_and_eq_and,
      forall_exists_index, and_imp, forall_apply_eq_imp_iff₂]
  refine ⟨?_, hcheck, ?_⟩
  · intro c hc x
    obtain ⟨hplain, hinverted⟩ := condition_iff (haccepts c hc) x
    by_cases h : IsOldEmpty c.1.2
    · have hopposite := hinverted h
      constructor
      · intro hiff
        exact absurd (hopposite.symm.trans hiff) not_iff_self
      · intro hnot
        exact absurd h hnot
    · exact iff_of_true (hplain h) h
  · intro operations m hm
    rw [StoreBase.transact_iff n _ operations m hm]
    exact hcheck

end Meaning

/-- A check without `oldEmpty` decides by what its preconditions say. -/
theorem preconditions_mean_old :
    letI := constantHash
    ∃ f, (agencyPreconditionDeserialzer (D := Int) []
        (some (.object [("old", .number 1)]))).Accepts f ∧
      (StoreBase.check ⟨some (.object [("x", some (.double 1))])⟩
          [(["x"], f)] = .ok true ↔
        PreconditionHolds (D := Int) (.object [("old", .number 1)])
          (some (.double 1))) := by
  let := constantHash
  let j : Json Int := .object [("old", .number 1)]
  let f : Condition Int := equalCondition (some (.double 1))
  have haccepts : ∀ c ∈ [((["x"], j), f)],
      (agencyPreconditionDeserialzer [] (some c.1.2)).Accepts c.2 := by
    intro c hc
    cases List.mem_singleton.mp hc
    rfl
  have hmeans :=
    preconditions_mean_iff (.object [("x", some (.double 1))])
      [((["x"], j), f)] haccepts
  refine ⟨f, rfl, ?_⟩
  have hplain : InversionUnnoticed
      (.object [("x", some (.double 1))]) [(["x"], j)] := by
    left
    rintro c hc ⟨b, hb⟩
    cases List.mem_singleton.mp hc
    simp [PreconditionObject.Describes, PreconditionObject.member, j] at hb
  have hcheck := hmeans.2.1.mpr hplain
  rw [List.forall_mem_singleton] at hcheck
  exact hcheck

/-- `oldEmpty` with `true` fails where there is nothing. -/
theorem preconditions_mean_oldEmpty :
    letI := constantHash
    ∃ f, (agencyPreconditionDeserialzer (D := Int) []
        (some (.object [("oldEmpty", .bool true)]))).Accepts f ∧
      PreconditionHolds (D := Int) (.object [("oldEmpty", .bool true)]) none ∧
      f none = .ok false ∧
      StoreBase.check ⟨some (.object [])⟩ [(["x"], f)] = .ok false := by
  let := constantHash
  exact ⟨_, rfl, ⟨.oldEmpty true, rfl, rfl⟩, rfl, rfl⟩

end AgencyNode
