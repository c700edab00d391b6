import AgencyNode.AccessPath
import AgencyNode.FixedOrderErrors
import AgencyNode.HintSoundness

/-!
# Where errors come from

An executor returns an error of its own, or it returns one that it has got from a
call it has made, with an entry for the step it has descended by.  Dispatch on a
value, conditions, validators, proxies and factories add no entry.
-/

namespace AgencyNode
namespace Deserialize

open Lib

variable {D : Type}

/-! ## Errors that are passed on -/

section PassingOn

variable [Double D] {Name : Type} {τ : Name → Type}
variable (env : ∀ n, Plan D τ (τ n)) (depth : Nat)

/-- The call that the `i`-th deserializer of a fixed order makes. -/
def FixedOrderPlan.At
    (c : Call D τ) :
    {α : Type} → FixedOrderPlan D τ α → List (Json D) → Nat → Prop
  | _, .cons d _, element :: _, 0 => c = ⟨depth, d, [], some element⟩
  | _, .cons d ds, element :: elements, i + 1 =>
      d.Succeeds env depth [] (some element) ∧ ds.At c elements i
  | _, _, _, _ => False

/-- The call that is made for the parameter with the name. -/
def ParameterListPlan.At
    (hints : HintList D)
    (s : Slice D)
    (name : String)
    (c : Call D τ) :
    {α : Type} → ParameterListPlan D τ α → Prop
  | _, .nil => False
  | _, .value p ps =>
      (∃ r, (p.unpack s).Accepts r) ∧ ps.At hints s name c
  | _, .deserialized n d ps =>
      ∃ valueSlice, s.get n = .ok valueSlice ∧
        ((valueSlice.isNone = false ∧ name = n ∧ c = ⟨depth, d, [], valueSlice⟩) ∨
          (valueSlice.isNone = false ∧ d.Succeeds env depth [] valueSlice ∧
            ps.At hints s name c))
  | _, .deserializedOptional n d ps =>
      ∃ valueSlice, s.get n = .ok valueSlice ∧
        ((valueSlice.isNone = false ∧ name = n ∧ c = ⟨depth, d, [], valueSlice⟩) ∨
          ((valueSlice.isNone = false → d.Succeeds env depth [] valueSlice) ∧
            ps.At hints s name c))
  | _, .expectedValue n expected ps =>
      (expectedValueExecutor n expected hints s).Accepts () ∧
        ps.At hints s name c

/-- The call that is made because the name is a field. -/
def NameDependentPlan.At
    (s : Slice D)
    (name : String)
    (c : Call D τ) :
    {α : Type} → NameDependentPlan D τ α → Prop
  | _, .nil => False
  | _, .cons n d nds =>
      ∃ keySlice, s.get n = .ok keySlice ∧
        ((keySlice.isNone = false ∧ name = n ∧
            c = ⟨depth, d, nameHints n keySlice, s⟩) ∨
          (keySlice.isNone = true ∧ nds.At s name c))

/--
The executor makes a call, and returns the error of this call with some more
entries.  A fixed order does so for the last element only.
-/
def Plan.PassesOn
    (hints : HintList D)
    (s : Slice D)
    (es : List Entry)
    (c : Call D τ) :
    {α : Type} → Plan D τ α → Prop
  | _, .map d =>
      ∃ member, d.GetsTo env depth hints s member ∧
        c = ⟨depth, d, hints.withDefaultState, some member.2⟩ ∧
          es = [.field member.1]
  | _, .array d =>
      ∃ front element back, s = some (.array (front ++ element :: back)) ∧
        (∀ e ∈ front, d.Succeeds env depth [] (some e)) ∧
          c = ⟨depth, d, [], some element⟩ ∧ es = [.index front.length]
  | _, .fixedOrder ds =>
      ∃ elements i, s = some (.array elements) ∧ ds.At env depth c elements i ∧
        i + 1 = elements.length ∧ es = [.index i]
  | _, .attributeValue name d =>
      (Plan.attributeValue name d).HandsDown env depth hints s c ∧
        es = [.field name]
  | _, .parameterList ps =>
      (hints.hintIsObject || s.isObject) = true ∧
        ∃ name, ps.At env depth hints s name c ∧ es = [.field name]
  | _, .fieldNameDependent nds =>
      ∃ name, nds.At depth s name c ∧ es = [.field name]
  | _, d => d.HandsDown env depth hints s c ∧ es = []

namespace Call

/-- The call returns the error. -/
def Fails (c : Call D τ) (e : DeserializeError) : Prop :=
  (c.plan.deserialize env c.depth c.hints c.slice).Rejects e

/-- One call returns the errors of another with the entries in front. -/
def PassesOn (c : Call D τ) (es : List Entry) (c' : Call D τ) : Prop :=
  c.plan.PassesOn env c.depth c.hints c.slice es c'

end Call

end PassingOn

section Calls

variable [Double D] {Name : Type} {τ : Name → Type}
variable {env : ∀ n, Plan D τ (τ n)} {depth : Nat}
variable {hints : HintList D} {s : Slice D} {c : Call D τ}

theorem FixedOrderPlan.At.handsDown
    {α : Type}
    {ds : FixedOrderPlan D τ α}
    {elements : List (Json D)}
    {i : Nat}
    (h : ds.At env depth c elements i) :
    ds.HandsDown env depth c elements := by
  induction elements generalizing α i with
  | nil =>
      cases ds <;> exact h.elim
  | cons element elements ih =>
      cases ds with
      | nil => exact h.elim
      | cons d ds =>
          cases i with
          | zero => exact .inl h
          | succ i => exact .inr ⟨h.1, ih h.2⟩

theorem ParameterListPlan.At.handsDown
    {name : String} :
    {α : Type} →
    {ps : ParameterListPlan D τ α} →
    ps.At env depth hints s name c →
    ps.HandsDown env depth hints s c
  | _, .nil, h => h.elim
  | _, .value _ _, h => ⟨h.1, handsDown h.2⟩
  | _, .deserialized _ _ _, h => by
      obtain ⟨v, hget, ⟨hfield, _, hc⟩ | ⟨hfield, hsucceeds, h⟩⟩ := h
      · exact ⟨v, hget, .inl ⟨hfield, hc⟩⟩
      · exact ⟨v, hget, .inr ⟨hfield, hsucceeds, handsDown h⟩⟩
  | _, .deserializedOptional _ _ _, h => by
      obtain ⟨v, hget, ⟨hfield, _, hc⟩ | ⟨hsucceeds, h⟩⟩ := h
      · exact ⟨v, hget, .inl ⟨hfield, hc⟩⟩
      · exact ⟨v, hget, .inr ⟨hsucceeds, handsDown h⟩⟩
  | _, .expectedValue _ _ _, h => ⟨h.1, handsDown h.2⟩

theorem NameDependentPlan.At.handsDown
    {name : String} :
    {α : Type} →
    {nds : NameDependentPlan D τ α} →
    nds.At depth s name c →
    nds.HandsDown depth s c
  | _, .nil, h => h.elim
  | _, .cons _ _ _, h => by
      obtain ⟨v, hget, ⟨hfield, _, hc⟩ | ⟨hnone, h⟩⟩ := h
      · exact ⟨v, hget, .inl ⟨hfield, hc⟩⟩
      · exact ⟨v, hget, .inr ⟨hnone, handsDown h⟩⟩

theorem Call.PassesOn.handsDown
    {c' : Call D τ}
    {es : List Entry}
    (h : c.PassesOn env es c') :
    c.HandsDown env c' := by
  obtain ⟨depth, plan, hints, s⟩ := c
  unfold Call.PassesOn at h
  cases plan with
  | map d =>
      obtain ⟨member, hgets, hc, _⟩ := h
      exact ⟨member, hgets, hc⟩
  | array d =>
      obtain ⟨front, element, back, hs, hfront, hc, _⟩ := h
      exact ⟨front, element, back, hs, hfront, hc⟩
  | fixedOrder ds =>
      obtain ⟨elements, i, hs, h, _⟩ := h
      exact ⟨elements, hs, h.handsDown⟩
  | parameterList ps =>
      obtain ⟨hobject, name, h, _⟩ := h
      exact ⟨hobject, h.handsDown⟩
  | fieldNameDependent nds =>
      obtain ⟨name, h, _⟩ := h
      exact h.handsDown
  | _ =>
      exact h.1

/-! ## Where an error comes from -/

/-- A reader of a parameter does not look into the field. -/
def ParameterListPlan.PlainErrors :
    {α : Type} → ParameterListPlan D τ α → Prop
  | _, .nil => True
  | _, .value p ps =>
      (∀ v e, (p.read v).Rejects e → e.path = [] ∨ e.path = [.field p.name]) ∧
        ps.PlainErrors
  | _, .deserialized _ _ ps => ps.PlainErrors
  | _, .deserializedOptional _ _ ps => ps.PlainErrors
  | _, .expectedValue _ _ ps => ps.PlainErrors

/-- The readers, validators and factories of a plan trace nothing. -/
def Plan.PlainErrors : {α : Type} → Plan D τ α → Prop
  | _, .value read => ∀ s e, (read s).Rejects e → e.path = []
  | _, .parameterList ps => ps.PlainErrors
  | _, .validate _ validator => ∀ a e, validator a = .ok (some e) → e.path = []
  | _, .withFactory _ factory => ∀ b e, (factory b).Rejects e → e.path = []
  | _, _ => True

/-- What an executor traces by itself: at most one field of an object. -/
def OwnPath (s : Slice D) (p : List Entry) : Prop :=
  p = [] ∨ ∃ name, s.isObject = true ∧ p = [.field name]

omit [Double D] in
theorem OwnPath.isAccessPath
    {p : List Entry}
    (h : OwnPath s p) :
    s.IsAccessPath p := by
  rcases h with rfl | ⟨name, hobject, rfl⟩
  · trivial
  · exact ⟨hobject, .inl rfl⟩

theorem FixedOrderPlan.firstFailure_executors_iff
    {α : Type}
    {ds : FixedOrderPlan D τ α}
    {elements : List (Json D)}
    {i : Nat}
    {e : DeserializeError} :
    (ds.executors (deserializeProxy env depth)).FirstFailure elements i e ↔
      ∃ c, ds.At env depth c elements i ∧ c.Fails env e := by
  induction elements generalizing α i with
  | nil =>
      cases ds <;>
        simp [executors, FixedOrder.FirstFailure, FixedOrderPlan.At]
  | cons element elements ih =>
      cases ds with
      | nil =>
          simp [executors, FixedOrder.FirstFailure, FixedOrderPlan.At]
      | cons d ds =>
          cases i with
          | zero =>
              simp only [executors, FixedOrder.FirstFailure, FixedOrderPlan.At,
                exists_eq_left]
              rfl
          | succ i =>
              simp only [executors, FixedOrder.FirstFailure, FixedOrderPlan.At,
                ih, and_assoc, exists_and_left]
              rfl

theorem rejects_expectedValueExecutor
    {name : String}
    {expected : Value}
    {e : DeserializeError}
    (h : (expectedValueExecutor name expected hints s).Rejects e) :
    OwnPath s e.path := by
  unfold expectedValueExecutor at h
  cases hhint : hints.hintHasFieldWithValue name expected with
  | true =>
      simp [hhint] at h
  | false =>
      cases hget : s.get name with
      | error fault =>
          simp [hhint, hget] at h
      | ok v =>
          obtain ⟨b, hb⟩ := expected.compare_total v
          have hobject := Slice.admits_of_get hget name
          cases b with
          | true =>
              simp [hhint, hget, hb] at h
          | false =>
              simp [hhint, hget, hb] at h
              obtain ⟨json, _, rfl⟩ := h
              exact .inr ⟨name, hobject, rfl⟩

omit [Double D] in
theorem Parameter.exists_accepts_unpack
    {α : Type}
    {p : Parameter D α} :
    (∃ r, (p.unpack s).Accepts r) ↔
      ∃ v, s.get p.name = .ok v ∧ ∃ a, p.Reads v a := by
  constructor
  · rintro ⟨r, hr⟩
    cases hget : s.get p.name with
    | error fault =>
        simp [Parameter.unpack, hget] at hr
    | ok v =>
        obtain ⟨members, rfl, rfl⟩ := get_eq_ok.mp hget
        exact ⟨_, rfl, r.1, (Parameter.accepts_unpack.mp hr).1⟩
  · rintro ⟨v, hget, a, ha⟩
    obtain ⟨members, rfl, rfl⟩ := get_eq_ok.mp hget
    exact ⟨(a, _), Parameter.accepts_unpack.mpr ⟨ha, rfl⟩⟩

theorem Plan.exists_reads_deserialized
    {α : Type}
    {d : Plan D τ α}
    {name : String}
    {v : Slice D} :
    (∃ a, (factoryDeserializedParameter name (d.deserialize env depth)).Reads v a) ↔
      v.isNone = false ∧ d.Succeeds env depth [] v := by
  cases v with
  | none =>
      simp [Parameter.Reads, factoryDeserializedParameter, Slice.isNone]
  | some j =>
      simp [Parameter.Reads, factoryDeserializedParameter, Slice.isNone, wrapField,
        Plan.Succeeds]

theorem Plan.exists_reads_deserializedOptional
    {α : Type}
    {d : Plan D τ α}
    {name : String}
    {v : Slice D} :
    (∃ a, (factoryDeserializedParameterOptional name
        (d.deserialize env depth)).Reads v a) ↔
      (v.isNone = false → d.Succeeds env depth [] v) := by
  cases v with
  | none =>
      simp [Parameter.Reads, factoryDeserializedParameterOptional, Slice.isNone]
  | some j =>
      simp [Parameter.Reads, factoryDeserializedParameterOptional, Slice.isNone,
        wrapField, Plan.Succeeds]

/-- A parameter list returns an error of its own or that of a parameter. -/
theorem ParameterListPlan.rejects_cases
    {e : DeserializeError} :
    {α : Type} →
    (ps : ParameterListPlan D τ α) →
    {i k : Nat} →
    ps.PlainErrors →
    (parameterListExecutor hints s
      (ps.executors (deserializeProxy env depth)) i k).Rejects e →
    OwnPath s e.path ∨ ∃ name c e', ps.At env depth hints s name c ∧
      c.Fails env e' ∧ e.path = .field name :: e'.path
  | _, .nil, i, k, _, h => by
      simp only [executors, parameterListExecutor, Outcome.rejects_bind,
        Outcome.not_rejects_lift, false_or, Outcome.rejects_ite, rejects_reject,
        Outcome.not_rejects_pure, and_false, or_false] at h
      obtain ⟨length, _, _, rfl⟩ := h
      exact .inl (.inl rfl)
  | _, .value p ps, i, k, hplain, h => by
      rw [executors, rejects_parameterListExecutor_value] at h
      simp only [Parameter.rejects_unpack] at h
      rcases h with ⟨e', ⟨j, hget, hread⟩ | ⟨_, _, rfl⟩, rfl⟩ | ⟨r, hr, h⟩
      · refine .inl ?_
        rw [DeserializeError.path_wrap]
        rcases hplain.1 _ _ hread with hpath | hpath
        · exact .inl hpath
        · exact .inr ⟨p.name, Slice.admits_of_get hget p.name, hpath⟩
      · exact .inl (.inl rfl)
      · rcases rejects_cases ps hplain.2 h with hown | ⟨name, c, e', hat, hfails⟩
        · exact .inl hown
        · exact .inr ⟨name, c, e', ⟨⟨r, hr⟩, hat⟩, hfails⟩
  | _, .deserialized n d ps, i, k, hplain, h => by
      rw [executors, rejects_parameterListExecutor_value] at h
      simp only [Parameter.rejects_unpack] at h
      rcases h with ⟨e', ⟨j, hget, hread⟩ | ⟨_, _, rfl⟩, rfl⟩ | ⟨r, hr, h⟩
      · obtain ⟨e'', hfails, rfl⟩ := rejects_wrapError.mp hread
        refine .inr ⟨n, ⟨depth, d, [], some j⟩, e'', ?_, hfails, by simp⟩
        exact ⟨some j, hget, .inl ⟨rfl, rfl, rfl⟩⟩
      · exact .inl (.inl rfl)
      · obtain ⟨v, hget, hreads⟩ := Parameter.exists_accepts_unpack.mp ⟨r, hr⟩
        obtain ⟨hfield, hsucceeds⟩ := Plan.exists_reads_deserialized.mp hreads
        rcases rejects_cases ps hplain h with hown | ⟨name, c, e', hat, hfails⟩
        · exact .inl hown
        · exact .inr ⟨name, c, e', ⟨v, hget, .inr ⟨hfield, hsucceeds, hat⟩⟩, hfails⟩
  | _, .deserializedOptional n d ps, i, k, hplain, h => by
      rw [executors, rejects_parameterListExecutor_value] at h
      simp only [Parameter.rejects_unpack] at h
      rcases h with ⟨e', ⟨j, hget, hread⟩ | ⟨_, habsent, _⟩, rfl⟩ | ⟨r, hr, h⟩
      · obtain ⟨e'', hfails, rfl⟩ :=
          rejects_wrapError.mp (Outcome.rejects_map.mp hread)
        refine .inr ⟨n, ⟨depth, d, [], some j⟩, e'', ?_, hfails, by simp⟩
        exact ⟨some j, hget, .inl ⟨rfl, rfl, rfl⟩⟩
      · cases habsent
      · obtain ⟨v, hget, hreads⟩ := Parameter.exists_accepts_unpack.mp ⟨r, hr⟩
        have hsucceeds := Plan.exists_reads_deserializedOptional.mp hreads
        rcases rejects_cases ps hplain h with hown | ⟨name, c, e', hat, hfails⟩
        · exact .inl hown
        · exact .inr ⟨name, c, e', ⟨v, hget, .inr ⟨hsucceeds, hat⟩⟩, hfails⟩
  | _, .expectedValue n expected ps, i, k, hplain, h => by
      simp only [executors, parameterListExecutor, Outcome.rejects_bind] at h
      rcases h with hexpected | ⟨u, hu, h⟩
      · exact .inl (rejects_expectedValueExecutor hexpected)
      · rcases rejects_cases ps hplain h with hown | ⟨name, c, e', hat, hfails⟩
        · exact .inl hown
        · exact .inr ⟨name, c, e', ⟨hu, hat⟩, hfails⟩

theorem ParameterListPlan.At.rejects
    {name : String}
    {e' : DeserializeError}
    (hfails : c.Fails env e') :
    {α : Type} →
    {ps : ParameterListPlan D τ α} →
    {i k : Nat} →
    ps.At env depth hints s name c →
    ∃ e, (parameterListExecutor hints s
      (ps.executors (deserializeProxy env depth)) i k).Rejects e ∧
        e.path = .field name :: e'.path
  | _, .nil, _, _, h => h.elim
  | _, .value p ps, i, k, h => by
      obtain ⟨⟨r, hr⟩, h⟩ := h
      obtain ⟨e, he, hpath⟩ := rejects hfails h
      refine ⟨e, ?_, hpath⟩
      exact rejects_parameterListExecutor_value.mpr (.inr ⟨r, hr, he⟩)
  | _, .deserialized n d ps, i, k, h => by
      obtain ⟨v, hget, ⟨hfield, rfl, rfl⟩ | ⟨hfield, hsucceeds, h⟩⟩ := h
      · obtain ⟨j, rfl⟩ := isNone_eq_false_iff.mp hfield
        refine ⟨_, rejects_parameterListExecutor_value.mpr
          (.inl ⟨_, Parameter.rejects_unpack.mpr (.inl ⟨j, hget,
            rejects_wrapError.mpr ⟨e', hfails, rfl⟩⟩), rfl⟩), ?_⟩
        simp
      · obtain ⟨r, hr⟩ := Parameter.exists_accepts_unpack.mpr
          ⟨v, hget, Plan.exists_reads_deserialized.mpr ⟨hfield, hsucceeds⟩⟩
        obtain ⟨e, he, hpath⟩ := rejects hfails h
        refine ⟨e, ?_, hpath⟩
        exact rejects_parameterListExecutor_value.mpr (.inr ⟨r, hr, he⟩)
  | _, .deserializedOptional n d ps, i, k, h => by
      obtain ⟨v, hget, ⟨hfield, rfl, rfl⟩ | ⟨hsucceeds, h⟩⟩ := h
      · obtain ⟨j, rfl⟩ := isNone_eq_false_iff.mp hfield
        refine ⟨_, rejects_parameterListExecutor_value.mpr
          (.inl ⟨_, Parameter.rejects_unpack.mpr (.inl ⟨j, hget,
            Outcome.rejects_map.mpr (rejects_wrapError.mpr ⟨e', hfails, rfl⟩)⟩),
              rfl⟩), ?_⟩
        simp
      · obtain ⟨r, hr⟩ := Parameter.exists_accepts_unpack.mpr
          ⟨v, hget, Plan.exists_reads_deserializedOptional.mpr hsucceeds⟩
        obtain ⟨e, he, hpath⟩ := rejects hfails h
        refine ⟨e, ?_, hpath⟩
        exact rejects_parameterListExecutor_value.mpr (.inr ⟨r, hr, he⟩)
  | _, .expectedValue n expected ps, i, k, h => by
      obtain ⟨hexpected, h⟩ := h
      obtain ⟨e, he, hpath⟩ := rejects hfails h
      refine ⟨e, ?_, hpath⟩
      simp only [executors, parameterListExecutor, Outcome.rejects_bind]
      exact .inr ⟨(), hexpected, he⟩

theorem ConditionalPlan.rejects_cases
    {e : DeserializeError} :
    {α : Type} →
    (cds : ConditionalPlan D τ α) →
    (conditionalExecutor (cds.executors (deserializeProxy env depth)) s).Rejects e →
    e.path = [] ∨ ∃ c, cds.HandsDown depth s c ∧ c.Fails env e
  | _, .nil, h => by
      simp only [executors, conditionalExecutor, Outcome.rejects_bind,
        Outcome.not_rejects_lift, false_or, rejects_reject] at h
      obtain ⟨json, _, rfl⟩ := h
      exact .inl rfl
  | _, .cons condition d cds, h => by
      by_cases htest : condition.test s = true
      · simp only [executors, conditionalExecutor, htest, if_true,
          Outcome.rejects_bind, Outcome.not_rejects_pure, and_false, exists_false,
          or_false] at h
        refine .inr ⟨⟨depth, d, condition.forwardHints.withDefaultState, s⟩, ?_, h⟩
        simp only [HandsDown, htest, if_true]
      · simp only [executors, conditionalExecutor, htest, Bool.false_eq_true,
          if_false, Outcome.rejects_bind, Outcome.not_rejects_pure, and_false,
          exists_false, or_false] at h
        rcases rejects_cases cds h with hpath | ⟨c, hstep, hfails⟩
        · exact .inl hpath
        · refine .inr ⟨c, ?_, hfails⟩
          simpa only [HandsDown, htest, Bool.false_eq_true, if_false] using hstep
  | _, .conditionalDefault d, h => by
      simp only [executors, conditionalExecutor, Outcome.rejects_bind,
        Outcome.not_rejects_pure, and_false, exists_false, or_false] at h
      exact .inr ⟨_, rfl, h⟩

theorem ConditionalPlan.rejects_of_handsDown
    {e : DeserializeError}
    (hfails : c.Fails env e) :
    {α : Type} →
    {cds : ConditionalPlan D τ α} →
    cds.HandsDown depth s c →
    (conditionalExecutor (cds.executors (deserializeProxy env depth)) s).Rejects e
  | _, .nil, h => h.elim
  | _, .cons condition d cds, h => by
      by_cases htest : condition.test s = true
      · simp only [HandsDown, htest, if_true] at h
        obtain rfl := h
        simp only [executors, conditionalExecutor, htest, if_true,
          Outcome.rejects_bind]
        exact .inl hfails
      · simp only [HandsDown, htest, Bool.false_eq_true, if_false] at h
        simp only [executors, conditionalExecutor, htest, Bool.false_eq_true,
          if_false, Outcome.rejects_bind]
        exact .inl (rejects_of_handsDown hfails h)
  | _, .conditionalDefault d, h => by
      obtain rfl := h
      simp only [executors, conditionalExecutor, Outcome.rejects_bind]
      exact .inl hfails

theorem ValueDependentPlan.rejects_cases
    {name : String}
    {v : Slice D}
    {e : DeserializeError}
    (hget : s.get name = .ok v) :
    {α : Type} →
    (vds : ValueDependentPlan D τ α) →
    (fieldValueDependentExecutor name
      (vds.executors (deserializeProxy env depth)) s v).Rejects e →
    OwnPath s e.path ∨ ∃ c e', vds.HandsDown depth name s v c ∧ c.Fails env e' ∧
      e.path = e'.path
  | _, .nil, h => by
      simp only [executors, fieldValueDependentExecutor, Outcome.rejects_ite,
        rejects_reject, Outcome.rejects_bind, Outcome.not_rejects_lift, false_or,
        Outcome.rejects_throw] at h
      rcases h with ⟨_, rfl⟩ | ⟨_, json, _, rfl⟩
      · exact .inl (.inl rfl)
      · exact .inl (.inr ⟨name, Slice.admits_of_get hget name, rfl⟩)
  | _, .cons value d vds, h => by
      obtain ⟨b, hb⟩ := value.compare_total v
      cases b with
      | true =>
          simp [executors, fieldValueDependentExecutor, hb] at h
          obtain ⟨e', hfails, rfl⟩ := h
          exact .inr ⟨⟨depth, d, valueHints name value v, s⟩, e',
            .inl ⟨hb, rfl⟩, hfails, by simp⟩
      | false =>
          simp [executors, fieldValueDependentExecutor, hb] at h
          rcases rejects_cases hget vds h with hown | ⟨c, e', hstep, hfails⟩
          · exact .inl hown
          · exact .inr ⟨c, e', .inr ⟨hb, hstep⟩, hfails⟩

theorem ValueDependentPlan.rejects_of_handsDown
    {name : String}
    {v : Slice D}
    {e' : DeserializeError}
    (hfails : c.Fails env e') :
    {α : Type} →
    {vds : ValueDependentPlan D τ α} →
    vds.HandsDown depth name s v c →
    ∃ e, (fieldValueDependentExecutor name
      (vds.executors (deserializeProxy env depth)) s v).Rejects e ∧
        e.path = e'.path
  | _, .nil, h => h.elim
  | _, .cons value d vds, h => by
      rcases h with ⟨hb, rfl⟩ | ⟨hb, h⟩
      · refine ⟨(e'.wrap ("with value `" ++ value.toString ++ "`")).annotate name
          value.toString, ?_, by simp⟩
        simp [executors, fieldValueDependentExecutor, hb]
        exact ⟨e', hfails, rfl⟩
      · obtain ⟨e, he, hpath⟩ := rejects_of_handsDown hfails h
        refine ⟨e, ?_, hpath⟩
        simp [executors, fieldValueDependentExecutor, hb]
        exact he

theorem NameDependentPlan.rejects_cases
    {e : DeserializeError} :
    {α : Type} →
    (nds : NameDependentPlan D τ α) →
    (fieldNameDependentExecutor
      (nds.executors (deserializeProxy env depth)) s).Rejects e →
    e.path = [] ∨ ∃ name c e', nds.At depth s name c ∧ c.Fails env e' ∧
      e.path = .field name :: e'.path
  | _, .nil, h => by
      simp only [executors, fieldNameDependentExecutor, rejects_reject] at h
      exact .inl (by rw [← h, DeserializeError.path_ofMessage])
  | _, .cons n d nds, h => by
      cases hget : s.get n with
      | error fault =>
          simp [executors, fieldNameDependentExecutor, hget] at h
      | ok keySlice =>
          cases hfield : keySlice.isNone with
          | false =>
              simp [executors, fieldNameDependentExecutor, hget, hfield] at h
              obtain ⟨e', hfails, rfl⟩ := h
              exact .inr ⟨n, ⟨depth, d, nameHints n keySlice, s⟩, e',
                ⟨keySlice, hget, .inl ⟨hfield, rfl, rfl⟩⟩, hfails, by simp⟩
          | true =>
              simp [executors, fieldNameDependentExecutor, hget, hfield] at h
              rcases rejects_cases nds h with hpath | ⟨name, c, e', hat, hfails⟩
              · exact .inl hpath
              · exact .inr ⟨name, c, e', ⟨keySlice, hget, .inr ⟨hfield, hat⟩⟩,
                  hfails⟩

theorem NameDependentPlan.At.rejects
    {name : String}
    {e' : DeserializeError}
    (hfails : c.Fails env e') :
    {α : Type} →
    {nds : NameDependentPlan D τ α} →
    nds.At depth s name c →
    ∃ e, (fieldNameDependentExecutor
      (nds.executors (deserializeProxy env depth)) s).Rejects e ∧
        e.path = .field name :: e'.path
  | _, .nil, h => h.elim
  | _, .cons n d nds, h => by
      obtain ⟨keySlice, hget, ⟨hfield, rfl, rfl⟩ | ⟨hnone, h⟩⟩ := h
      · refine ⟨(e'.wrap ("during dependent parse (found field `" ++ name ++
          "`)")).traceField name, ?_, by simp⟩
        simp [executors, fieldNameDependentExecutor, hget, hfield]
        exact ⟨e', hfails, rfl⟩
      · obtain ⟨e, he, hpath⟩ := rejects hfails h
        refine ⟨e, ?_, hpath⟩
        simp [executors, fieldNameDependentExecutor, hget, hnone]
        exact he

/-- An error is the executor's own or one that is passed on. -/
theorem Call.Fails.cases
    (hplain : c.plan.PlainErrors)
    {e : DeserializeError}
    (h : c.Fails env e) :
    OwnPath c.slice e.path ∨ ∃ es c' e', c.PassesOn env es c' ∧ c'.Fails env e' ∧
      e.path = es ++ e'.path := by
  obtain ⟨depth, plan, hints, s⟩ := c
  unfold Call.Fails at h
  unfold Call.PassesOn
  cases plan with
  | value read =>
      exact .inl (.inl (hplain s e h))
  | map d =>
      rcases rejects_mapDeserializer.mp h with
        ⟨_, rfl⟩ | ⟨front, m, back, e', hs, hfront, hfails, rfl⟩
      · exact .inl (.inl rfl)
      · exact .inr ⟨[.field m.1], ⟨depth, d, hints.withDefaultState, some m.2⟩, e',
          ⟨m, ⟨front, back, hs, hfront⟩, rfl, rfl⟩, hfails, by simp⟩
  | array d =>
      have he : (arrayDeserializer (d.deserialize env depth) hints s).Rejects e := h
      rcases rejects_arrayDeserializer.mp he with
        ⟨_, rfl⟩ | ⟨front, x, back, e', hs, hfront, hfails, rfl⟩
      · exact .inl (.inl rfl)
      · exact .inr ⟨[.index front.length], ⟨depth, d, [], some x⟩, e',
          ⟨front, x, back, hs, hfront, rfl, rfl⟩, hfails, by simp⟩
  | fixedOrder ds =>
      have he : (fixedOrderDeserializer
          (ds.executors (deserializeProxy env depth)) hints s).Rejects e := h
      rcases FixedOrder.rejects_fixedOrderDeserializer_cases he with
        ⟨elements, i, e', hs, hfailure, hlast, rfl⟩ | ⟨message, rfl⟩
      · obtain ⟨c, hat, hfails⟩ := FixedOrderPlan.firstFailure_executors_iff.mp hfailure
        exact .inr ⟨[.index i], c, e', ⟨elements, i, hs, hat, hlast, rfl⟩, hfails,
          by simp [FixedOrder.elementError]⟩
      · -- Any other error has been replaced by one about the length.
        exact .inl (.inl rfl)
  | attributeValue name d =>
      rcases rejects_attributeDeserializer.mp h with
        ⟨_, rfl⟩ | ⟨hobject, valueSlice, e', hslice, hfails, rfl⟩
      · exact .inl (.inl rfl)
      · exact .inr ⟨[.field name], ⟨depth, d, [], valueSlice⟩, e',
          ⟨⟨hobject, valueSlice, hslice, rfl⟩, rfl⟩, hfails, by simp⟩
  | parameterList ps =>
      cases hobject : hints.hintIsObject || s.isObject with
      | false =>
          have he : (Deserialize.parameterList
              (ps.executors (deserializeProxy env depth)) hints s).Rejects e := h
          simp only [Deserialize.parameterList, hobject, Bool.false_eq_true, if_false,
            rejects_reject] at he
          exact .inl (.inl (by rw [← he, DeserializeError.path_ofMessage]))
      | true =>
          have he : (Deserialize.parameterList
              (ps.executors (deserializeProxy env depth)) hints s).Rejects e := h
          simp only [Deserialize.parameterList, hobject, if_true] at he
          rcases ps.rejects_cases hplain he with hown | ⟨name, c, e', hat, hfails⟩
          · exact .inl hown
          · exact .inr ⟨[.field name], c, e', ⟨hobject, name, hat, rfl⟩, hfails⟩
  | conditional cds =>
      have hrejects : (conditionalDeserializer
          (cds.executors (deserializeProxy env depth)) hints s).Rejects e := h
      obtain ⟨e', he, rfl⟩ := rejects_conditionalDeserializer.mp hrejects
      rcases cds.rejects_cases he with hpath | ⟨c, hstep, hfails⟩
      · exact .inl (.inl (by simpa using hpath))
      · exact .inr ⟨[], c, e', ⟨hstep, rfl⟩, hfails, by simp⟩
  | fieldValueDependent name vds =>
      have he : (Deserialize.fieldValueDependent name
          (vds.executors (deserializeProxy env depth)) hints s).Rejects e := h
      simp only [Deserialize.fieldValueDependent, Outcome.rejects_bind,
        Outcome.not_rejects_lift, false_or, Outcome.accepts_lift,
        rejects_wrapError] at he
      obtain ⟨v, hget, e', he, rfl⟩ := he
      rcases vds.rejects_cases hget he with hown | ⟨c, e'', hstep, hfails, hpath⟩
      · exact .inl (by simpa using hown)
      · exact .inr ⟨[], c, e'', ⟨⟨v, hget, hstep⟩, rfl⟩, hfails, by simpa using hpath⟩
  | fieldNameDependent nds =>
      rcases nds.rejects_cases h with hpath | ⟨name, c, e', hat, hfails⟩
      · exact .inl (.inl hpath)
      · exact .inr ⟨[.field name], c, e', ⟨name, hat, rfl⟩, hfails⟩
  | validate d validator =>
      rcases rejects_validate.mp h with hfails | ⟨a, _, he⟩
      · exact .inr ⟨[], ⟨depth, d, hints, s⟩, e, ⟨rfl, rfl⟩, hfails, rfl⟩
      · exact .inl (.inl (hplain a e he))
  | unpackProxy n =>
      cases depth with
      | zero =>
          -- Without room on the stack nothing is returned.
          exact absurd h (Outcome.not_rejects_lift _ e)
      | succ depth =>
          exact .inr ⟨[], ⟨depth, env n, hints, s⟩, e, ⟨⟨depth, rfl, rfl⟩, rfl⟩, h,
            rfl⟩
  | withFactory d factory =>
      rcases rejects_deserializeWith.mp h with hfails | ⟨b, _, he⟩
      · exact .inr ⟨[], ⟨depth, d, hints, s⟩, e, ⟨rfl, rfl⟩, hfails, rfl⟩
      · exact .inl (.inl (hplain b e he))

/-- What fails below fails the executor, with the entries in front. -/
theorem Call.PassesOn.fails
    {c' : Call D τ}
    {es : List Entry}
    {e' : DeserializeError}
    (h : c.PassesOn env es c')
    (hfails : c'.Fails env e') :
    ∃ e, c.Fails env e ∧ e.path = es ++ e'.path := by
  obtain ⟨depth, plan, hints, s⟩ := c
  unfold Call.Fails
  unfold Call.PassesOn at h
  cases plan with
  | value read =>
      exact h.1.elim
  | map d =>
      obtain ⟨m, ⟨front, back, hs, hfront⟩, rfl, rfl⟩ := h
      exact ⟨_, rejects_mapDeserializer.mpr
        (.inr ⟨front, m, back, e', hs, hfront, hfails, rfl⟩), by simp⟩
  | array d =>
      obtain ⟨front, x, back, hs, hfront, rfl, rfl⟩ := h
      have hrejects : (arrayDeserializer (d.deserialize env depth) hints s).Rejects _ :=
        rejects_arrayDeserializer.mpr
          (.inr ⟨front, x, back, e', hs, hfront, hfails, rfl⟩)
      exact ⟨_, hrejects, by simp⟩
  | fixedOrder ds =>
      obtain ⟨elements, i, rfl, hat, hlast, rfl⟩ := h
      have hrejects : (fixedOrderDeserializer (ds.executors (deserializeProxy env depth))
          hints (some (.array elements))).Rejects _ :=
        FixedOrder.rejects_of_firstFailure hints
          (FixedOrderPlan.firstFailure_executors_iff.mpr ⟨c', hat, hfails⟩)
      rw [if_pos hlast] at hrejects
      exact ⟨_, hrejects, by simp [FixedOrder.elementError]⟩
  | attributeValue name d =>
      obtain ⟨⟨hobject, valueSlice, hslice, rfl⟩, rfl⟩ := h
      exact ⟨_, rejects_attributeDeserializer.mpr
        (.inr ⟨hobject, valueSlice, e', hslice, hfails, rfl⟩), by simp⟩
  | parameterList ps =>
      obtain ⟨hobject, name, hat, rfl⟩ := h
      obtain ⟨e, he, hpath⟩ := ParameterListPlan.At.rejects hfails hat
      refine ⟨e, ?_, hpath⟩
      change (Deserialize.parameterList
        (ps.executors (deserializeProxy env depth)) hints s).Rejects e
      rw [Deserialize.parameterList, if_pos hobject]
      exact he
  | conditional cds =>
      obtain ⟨hstep, rfl⟩ := h
      have hrejects : (conditionalDeserializer
          (cds.executors (deserializeProxy env depth)) hints s).Rejects _ :=
        rejects_conditionalDeserializer.mpr
          ⟨e', ConditionalPlan.rejects_of_handsDown hfails hstep, rfl⟩
      exact ⟨_, hrejects, by simp⟩
  | fieldValueDependent name vds =>
      obtain ⟨⟨v, hget, hstep⟩, rfl⟩ := h
      obtain ⟨e, he, hpath⟩ := ValueDependentPlan.rejects_of_handsDown hfails hstep
      refine ⟨e.wrap ("when parsing dependently on `" ++ name ++ "`"), ?_,
        by simpa using hpath⟩
      change (Deserialize.fieldValueDependent name
        (vds.executors (deserializeProxy env depth)) hints s).Rejects _
      simp only [Deserialize.fieldValueDependent, Outcome.rejects_bind,
        Outcome.accepts_lift, rejects_wrapError]
      exact .inr ⟨v, hget, e, he, rfl⟩
  | fieldNameDependent nds =>
      obtain ⟨name, hat, rfl⟩ := h
      obtain ⟨e, he, hpath⟩ := NameDependentPlan.At.rejects hfails hat
      exact ⟨e, he, hpath⟩
  | validate d validator =>
      obtain ⟨rfl, rfl⟩ := h
      exact ⟨e', rejects_validate.mpr (.inl hfails), rfl⟩
  | unpackProxy n =>
      obtain ⟨⟨rest, rfl, rfl⟩, rfl⟩ := h
      exact ⟨e', hfails, rfl⟩
  | withFactory d factory =>
      obtain ⟨rfl, rfl⟩ := h
      exact ⟨e', rejects_deserializeWith.mpr (.inl hfails), rfl⟩

end Calls

end Deserialize
end AgencyNode
