import AgencyNode.ErrorPropagation

/-!
# The backtrace of an error

On its way out of the executors, an error is traced with the field or the index
that each of them has descended by.  Two executors trace a field they have not
descended by: the one that dispatches on a name runs its deserializer on the same
slice, and the one for an attribute believes a hint that its slice is an object.
-/

namespace AgencyNode
namespace Deserialize

open Lib

section Calls

variable {D : Type} [Double D] {Name : Type} {τ : Name → Type}
variable {env : ∀ n, Plan D τ (τ n)} {depth : Nat}
variable {hints : HintList D} {s : Slice D} {c : Call D τ}

/-! ## Calls end -/

theorem FixedOrderPlan.smaller_of_handsDown
    {α : Type}
    {ds : FixedOrderPlan D τ α}
    {elements : List (Json D)}
    (h : ds.HandsDown env depth c elements) :
    c.depth = depth ∧ sizeOf c.plan < sizeOf ds := by
  induction elements generalizing α with
  | nil =>
      cases ds <;> exact h.elim
  | cons element elements ih =>
      cases ds with
      | nil => exact h.elim
      | cons d ds =>
          rcases h with rfl | ⟨_, h⟩
          · simp +arith
          · obtain ⟨hdepth, hsize⟩ := ih h
            exact ⟨hdepth, by simp; omega⟩

theorem ParameterListPlan.smaller_of_handsDown :
    {α : Type} →
    {ps : ParameterListPlan D τ α} →
    ps.HandsDown env depth hints s c →
    c.depth = depth ∧ sizeOf c.plan < sizeOf ps
  | _, .nil, h => h.elim
  | _, .value _ ps, h => by
      obtain ⟨hdepth, hsize⟩ := smaller_of_handsDown h.2
      exact ⟨hdepth, by simp; omega⟩
  | _, .deserialized _ _ _, h => by
      obtain ⟨v, _, ⟨_, rfl⟩ | ⟨_, _, h⟩⟩ := h
      · simp +arith
      · obtain ⟨hdepth, hsize⟩ := smaller_of_handsDown h
        exact ⟨hdepth, by simp; omega⟩
  | _, .deserializedOptional _ _ _, h => by
      obtain ⟨v, _, ⟨_, rfl⟩ | ⟨_, h⟩⟩ := h
      · simp +arith
      · obtain ⟨hdepth, hsize⟩ := smaller_of_handsDown h
        exact ⟨hdepth, by simp; omega⟩
  | _, .expectedValue _ _ _, h => by
      obtain ⟨hdepth, hsize⟩ := smaller_of_handsDown h.2
      exact ⟨hdepth, by simp; omega⟩

theorem ConditionalPlan.smaller_of_handsDown :
    {α : Type} →
    {cds : ConditionalPlan D τ α} →
    cds.HandsDown depth s c →
    c.depth = depth ∧ sizeOf c.plan < sizeOf cds
  | _, .nil, h => h.elim
  | _, .cons condition d cds, h => by
      unfold ConditionalPlan.HandsDown at h
      split at h
      · rw [h]
        simp +arith
      · obtain ⟨hdepth, hsize⟩ := smaller_of_handsDown h
        exact ⟨hdepth, by simp; omega⟩
  | _, .conditionalDefault d, h => by
      obtain rfl := h
      simp

theorem ValueDependentPlan.smaller_of_handsDown
    {name : String}
    {v : Slice D} :
    {α : Type} →
    {vds : ValueDependentPlan D τ α} →
    vds.HandsDown depth name s v c →
    c.depth = depth ∧ sizeOf c.plan < sizeOf vds
  | _, .nil, h => h.elim
  | _, .cons value d vds, h => by
      rcases h with ⟨_, rfl⟩ | ⟨_, h⟩
      · simp +arith
      · obtain ⟨hdepth, hsize⟩ := smaller_of_handsDown h
        exact ⟨hdepth, by simp; omega⟩

theorem NameDependentPlan.smaller_of_handsDown :
    {α : Type} →
    {nds : NameDependentPlan D τ α} →
    nds.HandsDown depth s c →
    c.depth = depth ∧ sizeOf c.plan < sizeOf nds
  | _, .nil, h => h.elim
  | _, .cons name d nds, h => by
      obtain ⟨keySlice, _, ⟨_, rfl⟩ | ⟨_, h⟩⟩ := h
      · simp +arith
      · obtain ⟨hdepth, hsize⟩ := smaller_of_handsDown h
        exact ⟨hdepth, by simp; omega⟩

/-- A call runs a smaller plan, or one behind a proxy with less depth. -/
theorem Call.HandsDown.smaller
    {c' : Call D τ}
    (h : c.HandsDown env c') :
    c'.depth < c.depth ∨ c'.depth = c.depth ∧ sizeOf c'.plan < sizeOf c.plan := by
  obtain ⟨depth, plan, hints, s⟩ := c
  unfold Call.HandsDown at h
  cases plan with
  | value read =>
      exact h.elim
  | map d =>
      obtain ⟨member, _, rfl⟩ := h
      exact .inr (by simp)
  | array d =>
      obtain ⟨front, element, back, _, _, rfl⟩ := h
      exact .inr (by simp)
  | fixedOrder ds =>
      obtain ⟨elements, _, h⟩ := h
      obtain ⟨hdepth, hsize⟩ := FixedOrderPlan.smaller_of_handsDown h
      exact .inr ⟨hdepth, by simp; omega⟩
  | attributeValue name d =>
      obtain ⟨_, valueSlice, _, rfl⟩ := h
      exact .inr (by simp +arith)
  | parameterList ps =>
      obtain ⟨hdepth, hsize⟩ := ParameterListPlan.smaller_of_handsDown h.2
      exact .inr ⟨hdepth, by simp; omega⟩
  | conditional cds =>
      obtain ⟨hdepth, hsize⟩ := ConditionalPlan.smaller_of_handsDown h
      exact .inr ⟨hdepth, by simp; omega⟩
  | fieldValueDependent name vds =>
      obtain ⟨v, _, h⟩ := h
      obtain ⟨hdepth, hsize⟩ := ValueDependentPlan.smaller_of_handsDown h
      exact .inr ⟨hdepth, by simp; omega⟩
  | fieldNameDependent nds =>
      obtain ⟨hdepth, hsize⟩ := NameDependentPlan.smaller_of_handsDown h
      exact .inr ⟨hdepth, by simp; omega⟩
  | validate d validator =>
      obtain rfl := h
      exact .inr (by simp)
  | unpackProxy n =>
      obtain ⟨rest, rfl, rfl⟩ := h
      exact .inl (Nat.lt_succ_self rest)
  | withFactory d factory =>
      obtain rfl := h
      exact .inr (by simp)

/-- What holds of a call if it holds of the calls it makes holds of every call. -/
theorem Call.induction
    (env : ∀ n, Plan D τ (τ n))
    {motive : Call D τ → Prop}
    (h : ∀ c : Call D τ, (∀ c', c.HandsDown env c' → motive c') → motive c)
    (c : Call D τ) :
    motive c := by
  have hsizes : ∀ depth size, ∀ c : Call D τ,
      c.depth = depth → sizeOf c.plan = size → motive c := by
    intro depth
    induction depth using Nat.strongRecOn with
    | ind depth ihdepth =>
        intro size
        induction size using Nat.strongRecOn with
        | ind size ihsize =>
            rintro c rfl rfl
            apply h
            intro c' hstep
            rcases hstep.smaller with hdepth | ⟨hdepth, hsize⟩
            · exact ihdepth _ hdepth _ c' rfl rfl
            · exact ihsize _ hsize c' hdepth rfl
  exact hsizes _ _ c rfl rfl

/-! ## Where a call leads -/

/--
A hint for a field carries the field or, from a map executor, nothing; the None
slice is never said to be an object.
-/
structure HintList.Fit (hints : HintList D) (s : Slice D) : Prop where
  isObject : s.isNone = true → hints.hintIsObject = false
  fieldState : ∀ name state, hints.fieldState name = some state →
    state = none ∨ s.get name = .ok state

omit [Double D] in
theorem HintList.fit_nil (s : Slice D) : HintList.Fit [] s := by
  refine ⟨fun _ => rfl, fun name state h => ?_⟩
  cases h

theorem HintList.TrueOf.fit
    (h : hints.TrueOf s) :
    hints.Fit s := by
  refine ⟨fun hnone => ?_, fun name state hstate => .inr (h.fieldState hstate)⟩
  cases hobject : hints.hintIsObject with
  | false => rfl
  | true =>
      obtain ⟨members, rfl⟩ := isObject_iff.mp (h.isObject hobject)
      cases hnone

omit [Double D] in
/-- A map executor hands the hints down without their state. -/
theorem HintList.fit_withDefaultState
    (hints : HintList D)
    (member : Json D) :
    hints.withDefaultState.Fit (some member) := by
  refine ⟨fun hnone => ?_, fun name state hstate => .inl ?_⟩
  · cases hnone
  · obtain ⟨hint, hmem, hhint⟩ := List.exists_of_findSome?_eq_some hstate
    obtain ⟨own, _, rfl⟩ := List.mem_map.mp hmem
    cases own with
    | isObject => cases hhint
    | hasFieldWithValue n v state => cases hhint
    | hasField n state =>
        by_cases hname : n = name
        · simpa [hname, eq_comm] using hhint
        · simp [hname] at hhint

theorem Call.HandsDown.fit
    {c' : Call D τ}
    (hfit : c.hints.Fit c.slice)
    (h : c.HandsDown env c') :
    c'.hints.Fit c'.slice := by
  obtain ⟨depth, plan, hints, s⟩ := c
  unfold Call.HandsDown at h
  cases plan with
  | value read =>
      exact h.elim
  | map d =>
      obtain ⟨member, _, rfl⟩ := h
      exact HintList.fit_withDefaultState hints member.2
  | array d =>
      obtain ⟨front, element, back, _, _, rfl⟩ := h
      exact HintList.fit_nil _
  | fixedOrder ds =>
      obtain ⟨elements, _, h⟩ := h
      rw [FixedOrderPlan.hints_of_handsDown h]
      exact HintList.fit_nil _
  | attributeValue name d =>
      obtain ⟨_, valueSlice, _, rfl⟩ := h
      exact HintList.fit_nil _
  | parameterList ps =>
      rw [ParameterListPlan.hints_of_handsDown h.2]
      exact HintList.fit_nil _
  | conditional cds =>
      exact (ConditionalPlan.trueOf_of_handsDown h).fit
  | fieldValueDependent name vds =>
      obtain ⟨v, hget, h⟩ := h
      exact (ValueDependentPlan.trueOf_of_handsDown hget h).fit
  | fieldNameDependent nds =>
      exact (NameDependentPlan.trueOf_of_handsDown h).fit
  | validate d validator =>
      obtain rfl := h
      exact hfit
  | unpackProxy n =>
      obtain ⟨rest, _, rfl⟩ := h
      exact hfit
  | withFactory d factory =>
      obtain rfl := h
      exact hfit

theorem FixedOrderPlan.At.child
    {α : Type}
    {ds : FixedOrderPlan D τ α}
    {elements : List (Json D)}
    {i : Nat}
    (h : ds.At env depth c elements i) :
    ∃ v, elements[i]? = some v ∧ c.slice = some v := by
  induction elements generalizing α i with
  | nil =>
      cases ds <;> exact h.elim
  | cons element elements ih =>
      cases ds with
      | nil => exact h.elim
      | cons d ds =>
          cases i with
          | zero =>
              obtain rfl := h
              exact ⟨element, rfl, rfl⟩
          | succ i =>
              exact ih h.2

theorem ParameterListPlan.At.child
    {name : String} :
    {α : Type} →
    {ps : ParameterListPlan D τ α} →
    ps.At env depth hints s name c →
    ∃ v, s.get name = .ok (some v) ∧ c.slice = some v
  | _, .nil, h => h.elim
  | _, .value _ _, h => child h.2
  | _, .deserialized _ _ _, h => by
      obtain ⟨v, hget, ⟨hfield, rfl, rfl⟩ | ⟨_, _, h⟩⟩ := h
      · obtain ⟨j, rfl⟩ := isNone_eq_false_iff.mp hfield
        exact ⟨j, hget, rfl⟩
      · exact child h
  | _, .deserializedOptional _ _ _, h => by
      obtain ⟨v, hget, ⟨hfield, rfl, rfl⟩ | ⟨_, h⟩⟩ := h
      · obtain ⟨j, rfl⟩ := isNone_eq_false_iff.mp hfield
        exact ⟨j, hget, rfl⟩
      · exact child h
  | _, .expectedValue _ _ _, h => child h.2

/-- The call selected by a name runs on the slice that has the field. -/
theorem NameDependentPlan.At.get
    {name : String} :
    {α : Type} →
    {nds : NameDependentPlan D τ α} →
    nds.At depth s name c →
    ∃ v, s.get name = .ok v
  | _, .nil, h => h.elim
  | _, .cons _ _ _, h => by
      obtain ⟨v, hget, ⟨_, rfl, _⟩ | ⟨_, h⟩⟩ := h
      · exact ⟨v, hget⟩
      · exact get h

theorem ConditionalPlan.slice_of_handsDown :
    {α : Type} →
    {cds : ConditionalPlan D τ α} →
    cds.HandsDown depth s c →
    c.slice = s
  | _, .nil, h => h.elim
  | _, .cons condition d cds, h => by
      unfold ConditionalPlan.HandsDown at h
      split at h
      · rw [h]
      · exact slice_of_handsDown h
  | _, .conditionalDefault d, h => by
      rw [h]

theorem ValueDependentPlan.slice_of_handsDown
    {name : String}
    {v : Slice D} :
    {α : Type} →
    {vds : ValueDependentPlan D τ α} →
    vds.HandsDown depth name s v c →
    c.slice = s
  | _, .nil, h => h.elim
  | _, .cons _ _ _, h => by
      rcases h with ⟨_, rfl⟩ | ⟨_, h⟩
      · rfl
      · exact slice_of_handsDown h

/-- The executor traces a field that it does not descend by. -/
def Plan.Astray (s : Slice D) : {α : Type} → Plan D τ α → Prop
  | _, .fieldNameDependent _ => True
  | _, .attributeValue _ _ => s.isObject = false
  | _, _ => False

/-- **An executor adds the step that it has descended by**, unless it goes astray. -/
theorem Call.PassesOn.leads
    {c' : Call D τ}
    {es : List Entry}
    (hfit : c.hints.Fit c.slice)
    (hstraight : ¬ c.plan.Astray c.slice)
    (h : c.PassesOn env es c') :
    c.slice.Leads es c'.slice ∨ (c'.slice = none ∧ c.slice.IsAccessPath es) := by
  obtain ⟨depth, plan, hints, s⟩ := c
  unfold Call.PassesOn at h
  cases plan with
  | value read =>
      exact h.1.elim
  | map d =>
      obtain ⟨m, ⟨front, back, hs, _⟩, rfl, rfl⟩ := h
      obtain rfl := hs
      exact .inl (Slice.leads_singleton (List.mem_append_right _ List.mem_cons_self))
  | array d =>
      obtain ⟨front, x, back, hs, _, rfl, rfl⟩ := h
      obtain rfl := hs
      exact .inl (Slice.leads_singleton (by simp [Slice.Child]))
  | fixedOrder ds =>
      obtain ⟨elements, i, hs, hat, _, rfl⟩ := h
      obtain rfl := hs
      obtain ⟨v, hv, hslice⟩ := hat.child
      rw [hslice]
      exact .inl (Slice.leads_singleton hv)
  | attributeValue name d =>
      obtain ⟨⟨_, valueSlice, hslice, rfl⟩, rfl⟩ := h
      have hobject : Slice.isObject s = true := by
        simpa [Plan.Astray] using hstraight
      have hfield : valueSlice = none ∨ s.get name = .ok valueSlice := by
        unfold attributeSlice at hslice
        cases hstate : hints.fieldState name with
        | none =>
            rw [hstate] at hslice
            exact .inr hslice
        | some state =>
            rw [hstate] at hslice
            obtain rfl := Except.ok.inj hslice
            exact hfit.fieldState name state hstate
      -- The attribute may be absent, or a map may have dropped the state of its hint.
      cases valueSlice with
      | none => exact .inr ⟨rfl, hobject, .inl rfl⟩
      | some v =>
          exact .inl (Slice.leads_singleton
            (Slice.child_of_get (hfield.resolve_left (by simp))))
  | parameterList ps =>
      obtain ⟨_, name, hat, rfl⟩ := h
      obtain ⟨v, hget, hslice⟩ := hat.child
      rw [hslice]
      exact .inl (Slice.leads_singleton (Slice.child_of_get hget))
  | conditional cds =>
      obtain ⟨hstep, rfl⟩ := h
      exact .inl (ConditionalPlan.slice_of_handsDown hstep).symm
  | fieldValueDependent name vds =>
      obtain ⟨⟨v, _, hstep⟩, rfl⟩ := h
      exact .inl (ValueDependentPlan.slice_of_handsDown hstep).symm
  | fieldNameDependent nds =>
      exact absurd trivial hstraight
  | validate d validator =>
      obtain ⟨rfl, rfl⟩ := h
      exact .inl rfl
  | unpackProxy n =>
      obtain ⟨⟨rest, _, rfl⟩, rfl⟩ := h
      exact .inl rfl
  | withFactory d factory =>
      obtain ⟨rfl, rfl⟩ := h
      exact .inl rfl

/-! ## Runs -/

/--
Calls that pass on errors to the one in front, none of which goes astray but
possibly the last one; the entries that they add are collected.
-/
inductive Call.Way (env : ∀ n, Plan D τ (τ n)) :
    Call D τ → List Entry → Call D τ → Prop
  | refl
      (c : Call D τ) :
      Call.Way env c [] c
  | step
      {c c' b : Call D τ}
      {es p : List Entry}
      (hstraight : ¬ c.plan.Astray c.slice)
      (hpasses : c.PassesOn env es c')
      (hway : Call.Way env c' p b) :
      Call.Way env c (es ++ p) b

theorem Call.Way.leads
    {b : Call D τ}
    {p : List Entry}
    (h : c.Way env p b)
    (hfit : c.hints.Fit c.slice) :
    c.slice.Leads p b.slice ∨ b.slice = none := by
  induction h with
  | refl c =>
      exact .inl rfl
  | step hstraight hpasses _ ih =>
      rcases hpasses.leads hfit hstraight with hleads | ⟨hnone, _⟩
      · rcases ih (hpasses.handsDown.fit hfit) with hway | hnone
        · exact .inl (hleads.append hway)
        · exact .inr hnone
      · rcases ih (hpasses.handsDown.fit hfit) with hway | hnone'
        · rw [hnone] at hway
          exact .inr hway.eq_none
        · exact .inr hnone'

theorem Call.Way.fit
    {b : Call D τ}
    {p : List Entry}
    (h : c.Way env p b)
    (hfit : c.hints.Fit c.slice) :
    b.hints.Fit b.slice := by
  induction h with
  | refl c => exact hfit
  | step _ hpasses _ ih => exact ih (hpasses.handsDown.fit hfit)

theorem Call.Way.reaches
    {b : Call D τ}
    {p : List Entry}
    (h : c.Way env p b) :
    c.Reaches env b := by
  induction h with
  | refl c => exact .refl
  | step _ hpasses _ ih => exact .head hpasses.handsDown ih

theorem Call.Way.fails
    {b : Call D τ}
    {p : List Entry}
    {e' : DeserializeError}
    (h : c.Way env p b)
    (hfails : b.Fails env e') :
    ∃ e, c.Fails env e ∧ e.path = p ++ e'.path := by
  induction h with
  | refl c =>
      exact ⟨e', hfails, rfl⟩
  | step _ hpasses _ ih =>
      obtain ⟨e, he, hpath⟩ := ih hfails
      obtain ⟨e'', he', hpath'⟩ := hpasses.fails he
      exact ⟨e'', he', by rw [hpath', hpath, List.append_assoc]⟩

/-- Readers, validators and factories of all plans that are run trace nothing. -/
def Call.PlainErrors (env : ∀ n, Plan D τ (τ n)) (c : Call D τ) : Prop :=
  ∀ c', c.Reaches env c' → c'.plan.PlainErrors

/-- **The path of an error is real up to the first call that goes astray.** -/
theorem Call.Fails.isAccessPath_or_astray
    {e : DeserializeError}
    (h : c.Fails env e)
    (hplain : c.PlainErrors env)
    (hfit : c.hints.Fit c.slice) :
    c.slice.IsAccessPath e.path ∨
      ∃ p b es c' e', c.Way env p b ∧ b.plan.Astray b.slice ∧
        b.PassesOn env es c' ∧ c'.Fails env e' ∧ e.path = p ++ (es ++ e'.path) := by
  -- By induction on the calls that are made; a call adds its entries in front.
  induction c using Call.induction env generalizing e with
  | h c ih =>
      rcases h.cases (hplain c .refl) with hown | ⟨es, c', e', hpasses, hfails, hpath⟩
      · exact .inl hown.isAccessPath
      · by_cases hastray : c.plan.Astray c.slice
        · exact .inr ⟨[], c, es, c', e', .refl c, hastray, hpasses, hfails, hpath⟩
        · have hstep := hpasses.handsDown
          rcases ih c' hstep hfails (fun b hb => hplain b (.head hstep hb))
              (hstep.fit hfit) with haccess | ⟨p, b, es', c'', e'', hway, hb⟩
          · rw [hpath]
            rcases hpasses.leads hfit hastray with hleads | ⟨hnone, haccess'⟩
            · exact .inl (hleads.isAccessPath_append haccess)
            · rw [hnone, Slice.isAccessPath_none] at haccess
              rw [haccess, List.append_nil]
              exact .inl haccess'
          · obtain ⟨hastray', hpasses', hfails', hpath'⟩ := hb
            exact .inr ⟨es ++ p, b, es', c'', e'', .step hastray hpasses hway, hastray',
              hpasses', hfails', by rw [hpath, hpath', List.append_assoc]⟩

/-- The backtrace of every error that is returned is an access path. -/
def Call.TracesAccessPaths (env : ∀ n, Plan D τ (τ n)) (c : Call D τ) : Prop :=
  ∀ e, c.Fails env e → c.slice.IsAccessPath e.path

/-- Where a field is traced that is not descended by, the path is real anyway. -/
structure Call.StraysHarmlessly (env : ∀ n, Plan D τ (τ n)) (c : Call D τ) :
    Prop where
  /--
  What a deserializer selected by a name finds wrong is the slice itself, or it is
  found at a path that exists below the field with the name, too.
  -/
  fieldName : ∀ {p : List Entry} {depth : Nat} {α : Type}
    {nds : NameDependentPlan D τ α} {hints : HintList D} {s : Slice D},
    c.Way env p ⟨depth, .fieldNameDependent nds, hints, s⟩ →
    ∀ {name : String} {c' : Call D τ} {e' : DeserializeError},
      nds.At depth s name c' → c'.Fails env e' →
        e'.path = [] ∨ ∃ t v, c.slice.Leads p t ∧ t.Child (.field name) v ∧
          Slice.IsAccessPath (some v) e'.path
  /-- A slice that is hinted to be an object, and has an attribute read, is one. -/
  attributeValue : ∀ {p : List Entry} {depth : Nat} {α : Type} {name : String}
    {d : Plan D τ α} {hints : HintList D} {s valueSlice : Slice D}
    {e' : DeserializeError},
    c.Way env p ⟨depth, .attributeValue name d, hints, s⟩ →
    s.isObject = false → hints.hintIsObject = true →
    attributeSlice name hints s = .ok valueSlice →
    Call.Fails env ⟨depth, d, [], valueSlice⟩ e' →
      ∃ t, c.slice.Leads p t ∧ t.isObject = true

/-- No executor goes astray on the None slice. -/
theorem Call.PassesOn.slice_ne_none
    {c' : Call D τ}
    {es : List Entry}
    (hfit : c.hints.Fit c.slice)
    (hastray : c.plan.Astray c.slice)
    (h : c.PassesOn env es c') :
    c.slice ≠ none := by
  obtain ⟨depth, plan, hints, s⟩ := c
  rintro rfl
  cases plan with
  | attributeValue name d =>
      have hobject : (hints.hintIsObject || Slice.isObject none) = true := h.1.1
      have hhint : hints.hintIsObject = false := hfit.isObject rfl
      rw [hhint] at hobject
      cases hobject
  | fieldNameDependent nds =>
      obtain ⟨name, hat, _⟩ := h
      obtain ⟨v, hget⟩ := hat.get
      cases hget
  | _ =>
      exact hastray.elim

/-- On the None slice there is nothing to trace. -/
theorem Call.Fails.path_eq_nil
    {e : DeserializeError}
    (h : c.Fails env e)
    (hplain : c.PlainErrors env)
    (hfit : c.hints.Fit c.slice)
    (hnone : c.slice = none) :
    e.path = [] := by
  rcases h.isAccessPath_or_astray hplain hfit with
    haccess | ⟨p, b, es, c', e', hway, hastray, hpasses, _⟩
  · rw [hnone] at haccess
    exact Slice.isAccessPath_none.mp haccess
  · have hslice := hpasses.slice_ne_none (hway.fit hfit) hastray
    rcases hway.leads hfit with hleads | hb
    · rw [hnone] at hleads
      exact absurd hleads.eq_none hslice
    · exact absurd hb hslice

omit [Double D] in
/-- Where there is no object to read an attribute from, there is no attribute. -/
theorem eq_none_of_attributeSlice
    {name : String}
    {valueSlice : Slice D}
    (hfit : hints.Fit s)
    (hobject : s.isObject = false)
    (h : attributeSlice name hints s = .ok valueSlice) :
    valueSlice = none := by
  have hget : ∀ v, s.get name ≠ .ok v := by
    intro v hv
    obtain ⟨members, rfl, _⟩ := get_eq_ok.mp hv
    cases hobject
  unfold attributeSlice at h
  cases hstate : hints.fieldState name with
  | none =>
      rw [hstate] at h
      exact absurd h (hget valueSlice)
  | some state =>
      rw [hstate] at h
      obtain rfl := Except.ok.inj h
      exact (hfit.fieldState name state hstate).resolve_right (hget state)

/--
Backtraces are access paths exactly where every field that is traced and not
descended by does no harm.
-/
theorem straysHarmlessly_iff
    {α : Type}
    (plan : Plan D τ α)
    (s : Json D)
    (hplain : Call.PlainErrors env ⟨depth, plan, [], some s⟩) :
    Call.TracesAccessPaths env ⟨depth, plan, [], some s⟩ ↔
      Call.StraysHarmlessly env ⟨depth, plan, [], some s⟩ := by
  have hfit : HintList.Fit [] (some s) := HintList.fit_nil (some s)
  constructor
  · intro h
    -- The entries of the astray call are on an access path.
    have hastray : ∀ {p : List Entry} {b c' : Call D τ} {x : Entry}
        {e' : DeserializeError},
        Call.Way env ⟨depth, plan, [], some s⟩ p b → b.PassesOn env [x] c' →
        c'.Fails env e' →
          ∃ t, Slice.Leads (some s) p t ∧ t.IsAccessPath (x :: e'.path) := by
      intro p b c' x e' hway hpasses hfails
      obtain ⟨e, he, hpath⟩ := hpasses.fails hfails
      obtain ⟨e'', he', hpath'⟩ := hway.fails he
      have haccess := h e'' he'
      rw [hpath', hpath] at haccess
      exact Slice.exists_leads_of_isAccessPath (List.cons_ne_nil x e'.path) haccess
    refine ⟨?_, ?_⟩
    · intro p depth α nds hints t hway name c' e' hat hfails
      obtain ⟨t', hleads, _, hnil | ⟨v, hv, haccess⟩⟩ :=
        hastray hway ⟨name, hat, rfl⟩ hfails
      · exact .inl hnil
      · exact .inr ⟨t', v, hleads, hv, haccess⟩
    · intro p depth α name d hints t valueSlice e' hway hobject hhint hslice hfails
      have hpasses : Call.PassesOn env ⟨depth, .attributeValue name d, hints, t⟩
          [.field name] ⟨depth, d, [], valueSlice⟩ :=
        ⟨⟨by rw [hhint]; rfl, valueSlice, hslice, rfl⟩, rfl⟩
      obtain ⟨t', hleads, hadmits, _⟩ := hastray hway hpasses hfails
      exact ⟨t', hleads, hadmits⟩
  · intro h e hfails
    rcases hfails.isAccessPath_or_astray hplain hfit with
      haccess | ⟨p, b, es, c', e', hway, hastray, hpasses, hfails', hpath⟩
    · exact haccess
    · have hbfit := hway.fit hfit
      have hb := hway.leads hfit
      have hreaches := hway.reaches.tail hpasses.handsDown
      rw [hpath]
      obtain ⟨depth', plan', hints', t⟩ := b
      cases plan' with
      | attributeValue name d =>
          obtain ⟨⟨hobject, valueSlice, hslice, rfl⟩, rfl⟩ := hpasses
          have ht : Slice.isObject t = false := hastray
          have hhint : hints'.hintIsObject = true := by
            simpa [ht] using hobject
          obtain ⟨t', hleads, hadmits⟩ := h.attributeValue hway ht hhint hslice hfails'
          have hnil : e'.path = [] :=
            hfails'.path_eq_nil (fun c'' hc'' => hplain c'' (hreaches.trans hc''))
              (HintList.fit_nil valueSlice) (eq_none_of_attributeSlice hbfit ht hslice)
          rw [hnil]
          exact hleads.isAccessPath_append ⟨hadmits, .inl rfl⟩
      | fieldNameDependent nds =>
          obtain ⟨name, hat, rfl⟩ := hpasses
          rcases h.fieldName hway hat hfails' with
            hnil | ⟨t', v, hleads, hv, haccess⟩
          · rw [hnil]
            obtain ⟨v, hget⟩ := hat.get
            have hleads := hb.resolve_right (by rintro rfl; cases hget)
            exact hleads.isAccessPath_append
              ⟨Slice.admits_of_get hget name, .inl rfl⟩
          · exact hleads.isAccessPath_append ⟨hv.admits, .inr ⟨v, hv, haccess⟩⟩
      | _ =>
          exact hastray.elim

/-- A value deserializer, possibly with validators and factories around it. -/
def Plan.ReadsSliceOnly : {α : Type} → Plan D τ α → Prop
  | _, .value _ => True
  | _, .validate d _ => d.ReadsSliceOnly
  | _, .withFactory d _ => d.ReadsSliceOnly
  | _, _ => False

/-- Such a deserializer traces nothing. -/
theorem Plan.ReadsSliceOnly.path_eq_nil
    {e : DeserializeError} :
    {α : Type} →
    {d : Plan D τ α} →
    d.ReadsSliceOnly →
    Call.PlainErrors env ⟨depth, d, hints, s⟩ →
    Call.Fails env ⟨depth, d, hints, s⟩ e →
    e.path = []
  | _, .value _, _, hplain, hfails => hplain _ .refl s e hfails
  | _, .validate d validator, h, hplain, hfails => by
      have hplain' : Call.PlainErrors env ⟨depth, d, hints, s⟩ := fun c' hreaches =>
        hplain c' (.head (show Call.HandsDown env ⟨depth, d.validate validator, hints, s⟩
          ⟨depth, d, hints, s⟩ from rfl) hreaches)
      rcases rejects_validate.mp hfails with hfails | ⟨a, _, he⟩
      · exact path_eq_nil (d := d) h hplain' hfails
      · exact hplain _ .refl a e he
  | _, .withFactory d factory, h, hplain, hfails => by
      have hplain' : Call.PlainErrors env ⟨depth, d, hints, s⟩ := fun c' hreaches =>
        hplain c' (.head (show Call.HandsDown env ⟨depth, d.withFactory factory, hints, s⟩
          ⟨depth, d, hints, s⟩ from rfl) hreaches)
      rcases rejects_deserializeWith.mp hfails with hfails | ⟨b, _, he⟩
      · exact path_eq_nil (d := d) h hplain' hfails
      · exact hplain _ .refl b e he

/--
A deserializer selected by a name rejects nothing, or looks at its slice only; and
on a slice that is hinted to be an object, but is none, an absent attribute is
accepted.
-/
def Plan.KeepsStraight
    (env : ∀ n, Plan D τ (τ n))
    (depth : Nat)
    (hints : HintList D)
    (s : Slice D) :
    {α : Type} → Plan D τ α → Prop
  | _, .fieldNameDependent nds => ∀ name c', nds.At depth s name c' →
      (∀ e, ¬ c'.Fails env e) ∨ c'.plan.ReadsSliceOnly
  | _, .attributeValue _ d => s.isObject = false → hints.hintIsObject = true →
      ∀ e, ¬ Call.Fails env ⟨depth, d, [], none⟩ e
  | _, _ => True

/-- This holds of all calls that are made. -/
def Call.KeepsStraight (env : ∀ n, Plan D τ (τ n)) (c : Call D τ) : Prop :=
  ∀ c', c.Reaches env c' → c'.plan.KeepsStraight env c'.depth c'.hints c'.slice

theorem Call.KeepsStraight.straysHarmlessly
    (h : c.KeepsStraight env)
    (hplain : c.PlainErrors env)
    (hfit : c.hints.Fit c.slice) :
    c.StraysHarmlessly env := by
  refine ⟨?_, ?_⟩
  · intro p depth α nds hints s hway name c' e' hat hfails
    rcases h _ hway.reaches name c' hat with hnone | honly
    · exact absurd hfails (hnone e')
    · have hreaches := hway.reaches.tail hat.handsDown
      exact .inl (honly.path_eq_nil (fun b hb => hplain b (hreaches.trans hb)) hfails)
  · intro p depth α name d hints s valueSlice e' hway hobject hhint hslice hfails
    obtain rfl := eq_none_of_attributeSlice (hway.fit hfit) hobject hslice
    exact absurd hfails (h _ hway.reaches hobject hhint e')

/--
**Backtraces are access paths** if no error is traced with a field that has not been
descended by.
-/
theorem tracesAccessPaths_of_keepsStraight
    {α : Type}
    (plan : Plan D τ α)
    (s : Json D)
    (hplain : Call.PlainErrors env ⟨depth, plan, [], some s⟩)
    (h : Call.KeepsStraight env ⟨depth, plan, [], some s⟩) :
    Call.TracesAccessPaths env ⟨depth, plan, [], some s⟩ :=
  (straysHarmlessly_iff plan s hplain).mpr
    (h.straysHarmlessly hplain (HintList.fit_nil (some s)))

/-- What holds of a call and of all that the calls it makes lead to. -/
theorem Call.forall_reaches
    {P : Call D τ → Prop}
    (hc : P c)
    (h : ∀ c', c.HandsDown env c' → ∀ b, c'.Reaches env b → P b) :
    ∀ b, c.Reaches env b → P b := by
  intro b hreaches
  rcases hreaches.cases_head with rfl | ⟨c', hstep, hreaches⟩
  · exact hc
  · exact h c' hstep b hreaches

theorem plainErrors_readString :
    Call.PlainErrors env ⟨depth, .value readString, hints, s⟩ := by
  apply Call.forall_reaches
  · intro v e he
    simp only [readString, Outcome.rejects_ite, rejects_reject] at he
    rcases he with ⟨_, he⟩ | ⟨_, rfl⟩
    · exact absurd he (Outcome.not_rejects_lift _ e)
    · rfl
  · intro c' h
    exact h.elim

end Calls

/-- No deserializer has a name. -/
def unnamed : ∀ n : Empty, Plan Int (fun n : Empty => n.elim) n.elim :=
  fun n => n.elim

/-- A deserializer that is selected by the field `a`. -/
def selectedByName (d : Plan Int (fun n : Empty => n.elim) String) :
    Call Int (fun n : Empty => n.elim) where
  depth := 0
  plan := .fieldNameDependent (.cons "a" d .nil)
  hints := []
  slice := some (.object [("a", .number 1)])

theorem plainErrors_selectedByName
    {d : Plan Int (fun n : Empty => n.elim) String}
    (hd : ∀ hints s, Call.PlainErrors unnamed ⟨0, d, hints, s⟩) :
    (selectedByName d).PlainErrors unnamed := by
  apply Call.forall_reaches
  · trivial
  · rintro c' ⟨v, _, ⟨_, rfl⟩ | ⟨_, h⟩⟩
    · exact hd _ _
    · exact h.elim

/-- The field is no string, and this is found at the slice itself. -/
theorem tracesAccessPaths_selectedByName :
    (selectedByName (.value readString)).TracesAccessPaths unnamed ∧
      ∃ e, (selectedByName (.value readString)).Fails unnamed e := by
  refine ⟨tracesAccessPaths_of_keepsStraight _ _ (plainErrors_selectedByName
    fun _ _ => plainErrors_readString) ?_, _, rfl⟩
  apply Call.forall_reaches
  · rintro name c' ⟨_, _, ⟨_, _, rfl⟩ | ⟨_, h⟩⟩
    · exact .inr trivial
    · exact h.elim
  · rintro c' ⟨_, _, ⟨_, rfl⟩ | ⟨_, h⟩⟩
    · apply Call.forall_reaches
      · trivial
      · exact fun _ h => h.elim
    · exact h.elim

/-- An attribute below the field is traced twice: `.a.a: value is not a string`. -/
theorem not_tracesAccessPaths_attribute :
    ¬ ∀ {α : Type} (plan : Plan Int (fun n : Empty => n.elim) α) (s : Json Int),
      Call.PlainErrors unnamed ⟨0, plan, [], some s⟩ →
        Call.TracesAccessPaths unnamed ⟨0, plan, [], some s⟩ := by
  intro h
  have hplain : (selectedByName (.attributeValue "a" (.value readString))).PlainErrors
      unnamed := by
    apply plainErrors_selectedByName
    intro hints s
    apply Call.forall_reaches
    · trivial
    · rintro c' ⟨_, v, _, rfl⟩
      exact plainErrors_readString
  have hfails : (selectedByName (.attributeValue "a" (.value readString))).Fails unnamed
      ⟨[.hint "when reading attribute a", .fieldName "a",
          .hint "during dependent parse (found field `a`)", .fieldName "a"],
        "value is not a string"⟩ := rfl
  obtain ⟨_, hnil | ⟨v, hv, hadmits, _⟩⟩ := h _ _ hplain _ hfails
  · cases hnil
  · obtain rfl : v = .number 1 := by
      simpa [selectedByName, Slice.Child] using hv
    cases hadmits

end Deserialize
end AgencyNode
