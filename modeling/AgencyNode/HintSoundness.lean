import AgencyNode.Deserialize.Plan
import Mathlib.Logic.Relation

/-!
# Hints

A hint spares an executor a check or a lookup.  As long as the hints are true of
the slice, the outcome is the same without them.  Every executor but one hands
down true hints when it has got true hints: the map executor passes its own
hint list on to the members.
-/

namespace AgencyNode
namespace Deserialize

open Lib

variable {D : Type} [Double D]

/-! ## Executors that look at their hints -/

section Executors

variable {hints : HintList D} {s : Slice D}

/-- The check that `is_object` spares would have succeeded. -/
theorem HintList.TrueOf.or_isObject
    (h : hints.TrueOf s) :
    (hints.hintIsObject || s.isObject) = s.isObject := by
  cases hhint : hints.hintIsObject with
  | false => rfl
  | true => rw [h.isObject hhint]; rfl

theorem expectedValueExecutor_hints
    (h : hints.TrueOf s)
    (name : String)
    (expected : Value) :
    expectedValueExecutor name expected hints s =
      expectedValueExecutor name expected [] s := by
  have hnil : HintList.hintHasFieldWithValue ([] : HintList D) name expected =
      false := rfl
  unfold expectedValueExecutor
  rw [hnil]
  cases hhint : hints.hintHasFieldWithValue name expected with
  | false => rfl
  | true =>
      obtain ⟨v, hget, hcompare⟩ := h.hasFieldWithValue hhint
      rw [hget]
      have hlookup : (liftM (Except.ok v : Exec (Slice D)) : Result (Slice D)) =
          pure v := rfl
      simp [hlookup, hcompare]
      rfl

theorem parameterListExecutor_hints
    {τ : Type}
    (h : hints.TrueOf s)
    (ps : ParameterList D τ)
    (i k : Nat) :
    parameterListExecutor hints s ps i k = parameterListExecutor [] s ps i k := by
  induction ps generalizing i k with
  | nil =>
      rfl
  | value p ps ih =>
      simp only [parameterListExecutor, ih]
  | expectedValue name expected ps ih =>
      simp only [parameterListExecutor, ih, expectedValueExecutor_hints h]

theorem parameterList_hints
    {τ : Type}
    (h : hints.TrueOf s)
    (ps : ParameterList D τ) :
    parameterList ps hints s = parameterList ps [] s := by
  unfold parameterList
  rw [h.or_isObject, (HintList.trueOf_nil s).or_isObject,
    parameterListExecutor_hints h]

theorem attributeDeserializer_hints
    {α : Type}
    (h : hints.TrueOf s)
    (name : String)
    (d : Deserializer D α) :
    attributeDeserializer name d hints s = attributeDeserializer name d [] s := by
  have hslice : attributeSlice name hints s = attributeSlice name [] s := by
    unfold attributeSlice
    cases hstate : hints.fieldState name with
    | none => rfl
    | some state => exact (h.fieldState hstate).symm
  unfold attributeDeserializer
  rw [h.or_isObject, (HintList.trueOf_nil s).or_isObject, hslice]

end Executors

/-! ## What an executor hands down -/

section HandingDown

variable {Name : Type} {τ : Name → Type}

/-- A call of `deserialize<D, H>`. -/
structure Call (D : Type) [Double D] {Name : Type} (τ : Name → Type) where
  depth : Nat
  {α : Type}
  plan : Plan D τ α
  hints : HintList D
  slice : Slice D

variable (env : ∀ n, Plan D τ (τ n)) (depth : Nat)

/-- The deserializer constructs a value; the loop it is called in goes on. -/
def Plan.Succeeds
    {α : Type}
    (d : Plan D τ α)
    (hints : HintList D)
    (s : Slice D) : Prop :=
  ∃ a, (d.deserialize env depth hints s).Accepts a

/-- One deserializer for each element, up to the first that fails. -/
def FixedOrderPlan.HandsDown
    (c : Call D τ) :
    {α : Type} → FixedOrderPlan D τ α → List (Json D) → Prop
  | _, .nil, _ => False
  | _, .cons _ _, [] => False
  | _, .cons d ds, element :: elements =>
      c = ⟨depth, d, [], some element⟩ ∨
        (d.Succeeds env depth [] (some element) ∧ ds.HandsDown c elements)

/-- One parameter after the other, up to the first that fails. -/
def ParameterListPlan.HandsDown
    (hints : HintList D)
    (s : Slice D)
    (c : Call D τ) :
    {α : Type} → ParameterListPlan D τ α → Prop
  | _, .nil => False
  | _, .value p ps =>
      (∃ r, (p.unpack s).Accepts r) ∧ ps.HandsDown hints s c
  | _, .deserialized name d ps =>
      ∃ valueSlice, s.get name = .ok valueSlice ∧
        ((valueSlice.isNone = false ∧ c = ⟨depth, d, [], valueSlice⟩) ∨
          (valueSlice.isNone = false ∧ d.Succeeds env depth [] valueSlice ∧
            ps.HandsDown hints s c))
  | _, .deserializedOptional name d ps =>
      ∃ valueSlice, s.get name = .ok valueSlice ∧
        ((valueSlice.isNone = false ∧ c = ⟨depth, d, [], valueSlice⟩) ∨
          ((valueSlice.isNone = false → d.Succeeds env depth [] valueSlice) ∧
            ps.HandsDown hints s c))
  | _, .expectedValue name expected ps =>
      (expectedValueExecutor name expected hints s).Accepts () ∧
        ps.HandsDown hints s c

/-- The first condition that holds selects the deserializer. -/
def ConditionalPlan.HandsDown
    (s : Slice D)
    (c : Call D τ) :
    {α : Type} → ConditionalPlan D τ α → Prop
  | _, .nil => False
  | _, .cons condition d cds =>
      if condition.test s then
        c = ⟨depth, d, condition.forwardHints.withDefaultState, s⟩
      else
        cds.HandsDown s c
  | _, .conditionalDefault d => c = ⟨depth, d, [], s⟩

/-- The first value that compares equal selects the deserializer. -/
def ValueDependentPlan.HandsDown
    (name : String)
    (s v : Slice D)
    (c : Call D τ) :
    {α : Type} → ValueDependentPlan D τ α → Prop
  | _, .nil => False
  | _, .cons value d vds =>
      (value.compare v = .ok true ∧ c = ⟨depth, d, valueHints name value v, s⟩) ∨
        (value.compare v = .ok false ∧ vds.HandsDown name s v c)

/-- The first name that is a field selects the deserializer. -/
def NameDependentPlan.HandsDown
    (s : Slice D)
    (c : Call D τ) :
    {α : Type} → NameDependentPlan D τ α → Prop
  | _, .nil => False
  | _, .cons name d nds =>
      ∃ keySlice, s.get name = .ok keySlice ∧
        ((keySlice.isNone = false ∧ c = ⟨depth, d, nameHints name keySlice, s⟩) ∨
          (keySlice.isNone = true ∧ nds.HandsDown s c))

/--
The map executor gets to a member: its value is deserialized after the members
in front of it.
-/
def Plan.GetsTo
    {α : Type}
    (d : Plan D τ α)
    (hints : HintList D)
    (s : Slice D)
    (member : String × Json D) : Prop :=
  ∃ front back, s = some (.object (front ++ member :: back)) ∧
    ∀ m ∈ front, d.Succeeds env depth hints.withDefaultState (some m.2)

/-- The executor of a plan, run with these hints on this slice, makes a call. -/
def Plan.HandsDown
    (hints : HintList D)
    (s : Slice D)
    (c : Call D τ) :
    {α : Type} → Plan D τ α → Prop
  | _, .value _ => False
  | _, .map d =>
      ∃ member, d.GetsTo env depth hints s member ∧
        c = ⟨depth, d, hints.withDefaultState, some member.2⟩
  | _, .array d =>
      ∃ front element back, s = some (.array (front ++ element :: back)) ∧
        (∀ e ∈ front, d.Succeeds env depth [] (some e)) ∧
          c = ⟨depth, d, [], some element⟩
  | _, .fixedOrder ds =>
      ∃ elements, s = some (.array elements) ∧ ds.HandsDown env depth c elements
  | _, .attributeValue name d =>
      (hints.hintIsObject || s.isObject) = true ∧
        ∃ valueSlice, attributeSlice name hints s = .ok valueSlice ∧
          c = ⟨depth, d, [], valueSlice⟩
  | _, .parameterList ps =>
      (hints.hintIsObject || s.isObject) = true ∧
        ps.HandsDown env depth hints s c
  | _, .conditional cds => cds.HandsDown depth s c
  | _, .fieldValueDependent name vds =>
      ∃ v, s.get name = .ok v ∧ vds.HandsDown depth name s v c
  | _, .fieldNameDependent nds => nds.HandsDown depth s c
  | _, .validate d _ => c = ⟨depth, d, hints, s⟩
  | _, .unpackProxy n =>
      ∃ rest, depth = rest + 1 ∧ c = ⟨rest, env n, hints, s⟩
  | _, .withFactory d _ => c = ⟨depth, d, hints, s⟩

namespace Call

/-- One call makes another. -/
def HandsDown (c c' : Call D τ) : Prop :=
  c.plan.HandsDown env c.depth c.hints c.slice c'

/-- A call is made, directly or by one that is made. -/
def Reaches : Call D τ → Call D τ → Prop :=
  Relation.ReflTransGen (HandsDown env)

/-- All calls that are made have true hints. -/
def TrueHints (c : Call D τ) : Prop :=
  ∀ c', c.Reaches env c' → c'.hints.TrueOf c'.slice

/-- The hints change nothing, and no executor passes on a false one. -/
structure HintsAreOptional (c : Call D τ) : Prop where
  sameOutcome :
    c.plan.deserialize env c.depth c.hints c.slice =
      c.plan.deserialize env c.depth [] c.slice
  trueHints : c.TrueHints env

end Call

/-! ## Members of a map -/

/-- What hints without a state say of a member of a map. -/
structure HintList.FitMember (hints : HintList D) (member : Json D) : Prop where
  noField : ∀ name state, .hasField name state ∉ hints
  isObject : hints.hintIsObject = true → Slice.isObject (some member) = true
  hasFieldWithValue : ∀ name value,
    hints.hintHasFieldWithValue name value = true →
      ∃ v, Slice.get (some member) name = .ok v ∧ value.compare v = .ok true

/-- If the call runs a map executor, its hints fit every member it gets to. -/
def Plan.MembersFit
    (hints : HintList D)
    (s : Slice D) :
    {α : Type} → Plan D τ α → Prop
  | _, .map d => ∀ member, d.GetsTo env depth hints s member →
      hints.FitMember member.2
  | _, _ => True

end HandingDown

/-! ## Hints that are handed down -/

section Truth

variable {hints : HintList D} {s : Slice D}

/-- The hints for a member are the own ones, without their state. -/
theorem HintList.trueOf_withDefaultState_iff
    {member : Json D} :
    hints.withDefaultState.TrueOf (some member) ↔ hints.FitMember member := by
  constructor
  · intro h
    refine ⟨fun name state hmem => ?_, fun hobject => ?_, fun name value hvalue => ?_⟩
    · have hhint := h (.hasField name none) (List.mem_map.mpr ⟨_, hmem, rfl⟩)
      exact absurd hhint.1 (by simp [Slice.isNone])
    · obtain ⟨hint, hmem, hhint⟩ := List.any_eq_true.mp hobject
      cases hint with
      | isObject => exact h .isObject (List.mem_map.mpr ⟨_, hmem, rfl⟩)
      | hasField n state => cases hhint
      | hasFieldWithValue n v state => cases hhint
    · obtain ⟨hint, hmem, hhint⟩ := List.any_eq_true.mp hvalue
      cases hint with
      | isObject => cases hhint
      | hasField n state => cases hhint
      | hasFieldWithValue n v state =>
          simp only [Bool.and_eq_true, beq_iff_eq] at hhint
          have hheld := h (.hasFieldWithValue n v none)
            (List.mem_map.mpr ⟨_, hmem, rfl⟩)
          rw [hhint.1, hhint.2] at hheld
          exact hheld
  · intro h hint hmem
    obtain ⟨own, hown, rfl⟩ := List.mem_map.mp hmem
    cases own with
    | isObject =>
        exact h.isObject (List.any_eq_true.mpr ⟨_, hown, rfl⟩)
    | hasField n state =>
        exact absurd hown (h.noField n state)
    | hasFieldWithValue n v state =>
        exact h.hasFieldWithValue n v
          (List.any_eq_true.mpr ⟨_, hown, by simp⟩)

theorem trueOf_valueHints
    {name : String}
    {value : Value}
    {v : Slice D}
    (hget : s.get name = .ok v)
    (hcompare : value.compare v = .ok true) :
    (valueHints name value v).TrueOf s := by
  have hfield : v.isNone = false := by
    cases v with
    | some j => rfl
    | none => cases value.isSome_of_compare hcompare
  obtain ⟨members, hobject, _⟩ := get_eq_ok.mp hget
  intro hint hmem
  simp only [valueHints, List.mem_cons, List.not_mem_nil, or_false] at hmem
  rcases hmem with rfl | rfl | rfl
  · exact ⟨v, hget, hcompare⟩
  · exact isObject_iff.mpr ⟨members, hobject⟩
  · exact ⟨hfield, hget⟩

theorem trueOf_nameHints
    {name : String}
    {keySlice : Slice D}
    (hget : s.get name = .ok keySlice)
    (hfield : keySlice.isNone = false) :
    (nameHints name keySlice).TrueOf s := by
  intro hint hmem
  obtain rfl := List.mem_singleton.mp hmem
  exact ⟨hfield, hget⟩

variable {Name : Type} {τ : Name → Type}
variable {env : ∀ n, Plan D τ (τ n)} {depth : Nat} {c : Call D τ}

theorem FixedOrderPlan.hints_of_handsDown
    {α : Type}
    {ds : FixedOrderPlan D τ α}
    {elements : List (Json D)}
    (h : ds.HandsDown env depth c elements) :
    c.hints = [] := by
  induction elements generalizing α with
  | nil =>
      cases ds <;> exact h.elim
  | cons element elements ih =>
      cases ds with
      | nil => exact h.elim
      | cons d ds =>
          rcases h with rfl | ⟨_, h⟩
          · rfl
          · exact ih h

theorem ParameterListPlan.hints_of_handsDown :
    {α : Type} →
    {ps : ParameterListPlan D τ α} →
    ps.HandsDown env depth hints s c →
    c.hints = []
  | _, .nil, h => h.elim
  | _, .value _ _, h => hints_of_handsDown h.2
  | _, .deserialized _ _ _, h => by
      obtain ⟨v, _, ⟨_, rfl⟩ | ⟨_, _, h⟩⟩ := h
      · rfl
      · exact hints_of_handsDown h
  | _, .deserializedOptional _ _ _, h => by
      obtain ⟨v, _, ⟨_, rfl⟩ | ⟨_, h⟩⟩ := h
      · rfl
      · exact hints_of_handsDown h
  | _, .expectedValue _ _ _, h => hints_of_handsDown h.2

theorem ConditionalPlan.trueOf_of_handsDown :
    {α : Type} →
    {cds : ConditionalPlan D τ α} →
    cds.HandsDown depth s c →
    c.hints.TrueOf c.slice
  | _, .nil, h => h.elim
  | _, .cons condition d cds, h => by
      unfold ConditionalPlan.HandsDown at h
      split at h
      · rename_i htest
        rw [h]
        exact condition.sound s htest
      · exact trueOf_of_handsDown h
  | _, .conditionalDefault d, h => by
      obtain rfl := h
      exact HintList.trueOf_nil s

theorem ValueDependentPlan.trueOf_of_handsDown
    {name : String}
    {v : Slice D}
    (hget : s.get name = .ok v) :
    {α : Type} →
    {vds : ValueDependentPlan D τ α} →
    vds.HandsDown depth name s v c →
    c.hints.TrueOf c.slice
  | _, .nil, h => h.elim
  | _, .cons value d vds, h => by
      rcases h with ⟨hcompare, rfl⟩ | ⟨_, h⟩
      · exact trueOf_valueHints hget hcompare
      · exact trueOf_of_handsDown hget h

theorem NameDependentPlan.trueOf_of_handsDown :
    {α : Type} →
    {nds : NameDependentPlan D τ α} →
    nds.HandsDown depth s c →
    c.hints.TrueOf c.slice
  | _, .nil, h => h.elim
  | _, .cons name d nds, h => by
      obtain ⟨keySlice, hget, ⟨hfield, rfl⟩ | ⟨_, h⟩⟩ := h
      · exact trueOf_nameHints hget hfield
      · exact trueOf_of_handsDown h

/-- **Only a map executor hands down false hints when its own are true.** -/
theorem Plan.trueOf_of_handsDown
    {α : Type}
    {plan : Plan D τ α}
    (htrue : hints.TrueOf s)
    (hfit : plan.MembersFit env depth hints s)
    (h : plan.HandsDown env depth hints s c) :
    c.hints.TrueOf c.slice := by
  cases plan with
  | value read =>
      exact h.elim
  | map d =>
      obtain ⟨member, hvisit, rfl⟩ := h
      exact HintList.trueOf_withDefaultState_iff.mpr (hfit member hvisit)
  | array d =>
      obtain ⟨front, element, back, _, _, rfl⟩ := h
      exact HintList.trueOf_nil _
  | fixedOrder ds =>
      obtain ⟨elements, _, h⟩ := h
      rw [FixedOrderPlan.hints_of_handsDown h]
      exact HintList.trueOf_nil _
  | attributeValue name d =>
      obtain ⟨_, valueSlice, _, rfl⟩ := h
      exact HintList.trueOf_nil _
  | parameterList ps =>
      rw [ParameterListPlan.hints_of_handsDown h.2]
      exact HintList.trueOf_nil _
  | conditional cds =>
      exact ConditionalPlan.trueOf_of_handsDown h
  | fieldValueDependent name vds =>
      obtain ⟨v, hget, h⟩ := h
      exact ValueDependentPlan.trueOf_of_handsDown hget h
  | fieldNameDependent nds =>
      exact NameDependentPlan.trueOf_of_handsDown h
  | validate d validator =>
      obtain rfl := h
      exact htrue
  | unpackProxy n =>
      obtain ⟨rest, _, rfl⟩ := h
      exact htrue
  | withFactory d factory =>
      obtain rfl := h
      exact htrue

end Truth

/-! ## The outcome -/

section Outcomes

variable {Name : Type} {τ : Name → Type} {env : ∀ n, Plan D τ (τ n)}

theorem Call.TrueHints.self
    {c : Call D τ}
    (h : c.TrueHints env) :
    c.hints.TrueOf c.slice :=
  h c .refl

theorem Call.TrueHints.of_handsDown
    {c c' : Call D τ}
    (h : c.TrueHints env)
    (hstep : c.HandsDown env c') :
    c'.TrueHints env :=
  fun c'' hreaches => h c'' (.head hstep hreaches)

omit [Double D] in
/-- Without hints, the members are deserialized with the same outcome. -/
theorem collect_mapStep_hints
    {α : Type}
    {d : Deserializer D α}
    {hints : HintList D}
    (members : List (String × Json D))
    (index : Nat)
    (h : ∀ front member back, members = front ++ member :: back →
      (∀ m ∈ front, ∃ a, (d hints.withDefaultState (some m.2)).Accepts a) →
        d hints.withDefaultState (some member.2) = d [] (some member.2)) :
    Outcome.collect (fun _ member => mapStep d hints member) index members =
      Outcome.collect (fun _ member => mapStep d [] member) index members := by
  induction members generalizing index with
  | nil =>
      rfl
  | cons member members ih =>
      have hfirst : d hints.withDefaultState (some member.2) =
          d [] (some member.2) := h [] member members rfl (by simp)
      have hstep : mapStep d hints member = mapStep d [] member := by
        unfold mapStep
        rw [hfirst]
        rfl
      simp only [Outcome.collect]
      rw [← hstep]
      apply Outcome.bind_congr
      intro e he
      simp only [mapStep, Outcome.accepts_bind, accepts_wrapError] at he
      obtain ⟨a, ha, _⟩ := he
      rw [ih]
      intro front next back hsplit hfront
      apply h (member :: front) next back
      · rw [hsplit, List.cons_append]
      · intro m hm
        rcases List.mem_cons.mp hm with rfl | hm
        · exact ⟨a, ha⟩
        · exact hfront m hm

/-- The outcome is the same if it is for the deserializers behind the proxies. -/
theorem Plan.deserialize_hints_of_proxies
    {depth : Nat}
    (hproxy : ∀ n hints s, Call.TrueHints env ⟨depth, .unpackProxy n, hints, s⟩ →
      deserializeProxy env depth n hints s = deserializeProxy env depth n [] s) :
    {α : Type} →
    (plan : Plan D τ α) →
    (hints : HintList D) →
    (s : Slice D) →
    Call.TrueHints env ⟨depth, plan, hints, s⟩ →
    plan.deserialize env depth hints s = plan.deserialize env depth [] s
  | _, .value _, _, _, _ => rfl
  | _, .map d, hints, s, h => by
      change mapDeserializer (d.deserialize env depth) hints s =
        mapDeserializer (d.deserialize env depth) [] s
      unfold mapDeserializer
      rw [h.self.or_isObject, (HintList.trueOf_nil s).or_isObject]
      split
      · rename_i hobject
        obtain ⟨members, rfl⟩ := isObject_iff.mp hobject
        apply Outcome.bind_congr
        intro read hread
        obtain rfl : members = read := by
          cases hread
          rfl
        apply collect_mapStep_hints
        intro front member back hsplit hfront
        apply deserialize_hints_of_proxies hproxy d
        apply h.of_handsDown
        exact ⟨member, ⟨front, back, by rw [hsplit], hfront⟩, rfl⟩
      · rfl
  | _, .array _, _, _, _ => rfl
  | _, .fixedOrder _, _, _, _ => rfl
  | _, .attributeValue name d, _, _, h => attributeDeserializer_hints h.self name _
  | _, .parameterList ps, _, _, h => parameterList_hints h.self _
  | _, .conditional _, _, _, _ => rfl
  | _, .fieldValueDependent _ _, _, _, _ => rfl
  | _, .fieldNameDependent _, _, _, _ => rfl
  | _, .validate d validator, hints, s, h => by
      have hd := deserialize_hints_of_proxies hproxy d hints s (h.of_handsDown rfl)
      change Deserialize.validate (d.deserialize env depth) validator hints s =
        Deserialize.validate (d.deserialize env depth) validator [] s
      unfold Deserialize.validate
      rw [hd]
  | _, .unpackProxy n, hints, s, h => hproxy n hints s h
  | _, .withFactory d factory, hints, s, h => by
      have hd := deserialize_hints_of_proxies hproxy d hints s (h.of_handsDown rfl)
      change deserializeWith (d.deserialize env depth) factory hints s =
        deserializeWith (d.deserialize env depth) factory [] s
      unfold deserializeWith
      rw [hd]

/-- **Where all calls have true hints, the hints change nothing.** -/
theorem Plan.deserialize_hints
    {α : Type}
    {depth : Nat}
    {plan : Plan D τ α}
    {hints : HintList D}
    {s : Slice D}
    (h : Call.TrueHints env ⟨depth, plan, hints, s⟩) :
    plan.deserialize env depth hints s = plan.deserialize env depth [] s := by
  induction depth generalizing α plan hints s with
  | zero =>
      exact Plan.deserialize_hints_of_proxies (fun _ _ _ _ => rfl) plan hints s h
  | succ depth ih =>
      apply Plan.deserialize_hints_of_proxies _ plan hints s h
      intro n hints s hproxy
      exact ih (hproxy.of_handsDown ⟨depth, rfl, rfl⟩)

end Outcomes

/--
Hints are optional exactly where no map executor passes on a hint that does not
fit a member: one for a field never does, since it is passed on without its
state.
-/
theorem hints_optional_iff
    {Name : Type}
    {τ : Name → Type}
    (env : ∀ n, Plan D τ (τ n))
    (c : Call D τ)
    (h : c.hints.TrueOf c.slice) :
    c.HintsAreOptional env ↔
      ∀ c', c.Reaches env c' →
        c'.plan.MembersFit env c'.depth c'.hints c'.slice := by
  constructor
  · rintro hoptional ⟨depth, plan, hints, s⟩ hreaches
    cases plan with
    | map d =>
        intro member hvisit
        have hstep : Call.HandsDown env ⟨depth, .map d, hints, s⟩
            ⟨depth, d, hints.withDefaultState, some member.2⟩ :=
          ⟨member, hvisit, rfl⟩
        exact HintList.trueOf_withDefaultState_iff.mp
          (hoptional.trueHints _ (hreaches.tail hstep))
    | _ => trivial
  · intro hfit
    have htrue : c.TrueHints env := by
      intro c' hreaches
      induction hreaches with
      | refl => exact h
      | tail hreaches hstep ih =>
          exact Plan.trueOf_of_handsDown ih (hfit _ hreaches) hstep
    exact ⟨Plan.deserialize_hints htrue, htrue⟩

/-- A map whose members are objects with a field `a`, which has a hint for `a`. -/
def hintedMap : Call Int (fun n : Empty => n.elim) where
  depth := 0
  plan := .map (.attributeValue "a" (.value readString))
  hints := [.hasField "a" (some (.object [("a", .string "x")]))]
  slice := some (.object [("a", .object [("a", .string "x")])])

/-- The same map with a hint that fits its members, too. -/
def objectMap : Call Int (fun n : Empty => n.elim) where
  depth := 0
  plan := hintedMap.plan
  hints := [.isObject]
  slice := some (.object [("m", .object [("a", .string "x")])])

theorem hints_optional_iff_hintedMap :
    (hintedMap.hints.TrueOf hintedMap.slice ∧
      ¬ hintedMap.HintsAreOptional (fun n => n.elim)) ∧
    objectMap.hints.TrueOf objectMap.slice ∧
      objectMap.HintsAreOptional (fun n => n.elim) := by
  have htrue : hintedMap.hints.TrueOf hintedMap.slice := by
    intro hint hmem
    obtain rfl := List.mem_singleton.mp hmem
    exact ⟨rfl, rfl⟩
  have hobject : objectMap.hints.TrueOf objectMap.slice := by
    intro hint hmem
    obtain rfl := List.mem_singleton.mp hmem
    rfl
  refine ⟨⟨htrue, fun hoptional => ?_⟩, hobject, ?_⟩
  · have hfit := (hints_optional_iff _ hintedMap htrue).mp hoptional _ .refl
    have hvisit := hfit ("a", .object [("a", .string "x")]) ⟨[], [], rfl, by simp⟩
    exact hvisit.noField _ _ List.mem_cons_self
  · apply (hints_optional_iff _ objectMap hobject).mpr
    intro c' hreaches
    -- the map calls `attribute_deserializer`, which calls the one for strings
    rcases hreaches.cases_head with rfl | ⟨b, ⟨member, _, rfl⟩, hreaches⟩
    · rintro member ⟨front, back, heq, _⟩
      have hmem : member ∈ front ++ member :: back := by simp
      rw [← Json.object.inj (Option.some.inj heq), List.mem_singleton] at hmem
      rw [hmem]
      exact ⟨by simp [objectMap], fun _ => rfl, fun _ _ h => by cases h⟩
    rcases hreaches.cases_head with rfl | ⟨b, ⟨_, v, _, rfl⟩, hreaches⟩
    · trivial
    rcases hreaches.cases_head with rfl | ⟨b, h, _⟩
    · trivial
    · exact h.elim

theorem hint_of_map_rejects :
    hintedMap.hints.TrueOf hintedMap.slice ∧
      (hintedMap.plan.deserialize (fun n => n.elim) hintedMap.depth []
        hintedMap.slice).Accepts [("a", "x")] ∧
      (hintedMap.plan.deserialize (fun n => n.elim) hintedMap.depth
        hintedMap.hints hintedMap.slice).run = .ok (.error
          ⟨[.hint "when reading attribute a", .fieldName "a",
            .hint "when handling member `a`", .fieldName "a"],
            "value is not a string"⟩) := by
  refine ⟨?_, rfl, rfl⟩
  intro hint hmem
  obtain rfl := List.mem_singleton.mp hmem
  exact ⟨rfl, rfl⟩

end Deserialize
end AgencyNode
