import AgencyNode.Deserialize.Deserializer

/-!
# parameter-list.h

A parameter list reads the fields of an object one after the other and counts
the fields it has seen; that the object has no other field is checked by
comparing this count with the number of its members.

A parameter is described by its name, by what reads the field where it is
present, and by the value that stands in where it is absent.
-/

namespace AgencyNode
namespace Deserialize

open Lib

variable {D : Type}

/-- What the parameter templates have in common. -/
structure Parameter (D α : Type) where
  name : String
  /-- Read the field if it is present. -/
  read : Slice D → Result α
  /-- The value of an absent field; `none` if the field is required. -/
  absent : Option α

section Parameters

variable {α : Type}

/-- How an error below the field is reported. -/
def wrapField (name : String) (r : Result α) : Result α :=
  wrapError
    (fun e => (e.wrap ("when reading value of field " ++ name)).traceField name)
    r

/-- `factory_simple_parameter`. -/
def factorySimpleParameter
    (name : String)
    (read : Slice D → Result α)
    (required : Bool)
    (defaultValue : α) : Parameter D α where
  name := name
  read := fun valueSlice => wrapField name (read valueSlice)
  absent := if required then none else some defaultValue

/-- `factory_slice_parameter`, whose default value is the null slice. -/
def factorySliceParameter
    (name : String)
    (required : Bool) : Parameter D (Slice D) where
  name := name
  read := fun valueSlice => pure valueSlice
  absent := if required then none else some Slice.nullSlice

/-- `factory_optional_parameter`. -/
def factoryOptionalParameter
    (name : String)
    (read : Slice D → Result α) : Parameter D (Option α) where
  name := name
  read := fun valueSlice => some <$> wrapField name (read valueSlice)
  absent := some none

/-- `factory_deserialized_parameter`, required. -/
def factoryDeserializedParameter
    (name : String)
    (d : Deserializer D α) : Parameter D α where
  name := name
  read := fun valueSlice => wrapField name (d [] valueSlice)
  absent := none

/-- `factory_deserialized_parameter`, not required. -/
def factoryDeserializedParameterOptional
    (name : String)
    (d : Deserializer D α) : Parameter D (Option α) where
  name := name
  read := fun valueSlice => some <$> wrapField name (d [] valueSlice)
  absent := some none

/-- `parameter_executor::unpack`: the value, and whether it has been read. -/
def Parameter.unpack
    (p : Parameter D α)
    (s : Slice D) : Result (α × Bool) := do
  let valueSlice ← s.get p.name
  if !valueSlice.isNone then
    let value ← p.read valueSlice
    return (value, true)
  else
    match p.absent with
    | some defaultValue => return (defaultValue, false)
    | none => reject ("field `" ++ p.name ++ "` is required")

end Parameters

/-- `parameter_list`; an `expected_value` contributes no value. -/
inductive ParameterList (D : Type) : Type → Type 1 where
  | nil : ParameterList D Unit
  | value
      {α β : Type}
      (p : Parameter D α)
      (ps : ParameterList D β) : ParameterList D (α × β)
  | expectedValue
      {β : Type}
      (name : String)
      (expected : Value)
      (ps : ParameterList D β) : ParameterList D β

section Executor

variable [Double D]

/-- `parameter_executor<expected_value<N, V>>`. -/
def expectedValueExecutor
    (name : String)
    (expected : Value)
    (hints : HintList D)
    (s : Slice D) : Result Unit := do
  if !hints.hintHasFieldWithValue name expected then
    let valueSlice ← s.get name
    if !(← expected.compare valueSlice) then
      let json ← valueSlice.toJson
      throw
        ((DeserializeError.ofMessage
          ("value at `" ++ name ++ "` not as expected, found: `" ++ json ++
            "`, expected: `" ++ expected.toString ++ "`")).traceField name)

/--
`parameter_list_executor`: `i` is the offset in the result tuple and `k` counts
the visited fields.
-/
def parameterListExecutor
    (hints : HintList D)
    (s : Slice D) :
    {τ : Type} → ParameterList D τ → Nat → Nat → Result τ
  | _, .nil, _, k => do
      let length ← s.length
      if length ≠ k then
        reject
          ("superfluous field in object, found " ++ toString length ++
            " fields, expected " ++ toString k ++ " fields")
      else
        return ()
  | _, .value p ps, i, k => do
      let (value, readValue) ←
        wrapError
          (fun e =>
            e.wrap
              ("during read of " ++ toString i ++ "th parameters value"))
          (p.unpack s)
      let values ←
        parameterListExecutor hints s ps (i + 1) (if readValue then k + 1 else k)
      return (value, values)
  | _, .expectedValue name expected ps, i, k => do
      expectedValueExecutor name expected hints s
      parameterListExecutor hints s ps i (k + 1)

/-- `deserialize_plan_executor<parameter_list>`. -/
def parameterList
    {τ : Type}
    (ps : ParameterList D τ) : Deserializer D τ :=
  fun hints s =>
    if hints.hintIsObject || s.isObject then
      parameterListExecutor hints s ps 0 0
    else
      reject "object expected"

end Executor

/-! ## What a parameter list accepts -/

/-- The value a parameter has for a field. -/
def Parameter.Reads
    {α : Type}
    (p : Parameter D α)
    (field : Slice D)
    (a : α) : Prop :=
  match field with
  | some j => (p.read (some j)).Accepts a
  | none => p.absent = some a

/-- An optional simple parameter reads a value of its type or the default. -/
theorem reads_factorySimpleParameter
    {α : Type}
    {name : String}
    {read : Slice D → Result α}
    {inj : α → Json D}
    (hread : ∀ s a, (read s).Accepts a ↔ s = some (inj a))
    {defaultValue : α}
    {field : Slice D}
    {a : α} :
    (factorySimpleParameter name read false defaultValue).Reads field a ↔
      ∃ v : Option α, field = v.map inj ∧ v.getD defaultValue = a := by
  cases field with
  | none =>
      constructor
      · intro h
        cases h
        exact ⟨none, rfl, rfl⟩
      · rintro ⟨v, hv, rfl⟩
        cases v with
        | none =>
            rfl
        | some v =>
            cases hv
  | some j =>
      have hreads :
          (factorySimpleParameter name read false defaultValue).Reads
              (some j) a ↔ some j = some (inj a) := by
        simp [Parameter.Reads, factorySimpleParameter, wrapField, hread]
      rw [hreads]
      constructor
      · intro h
        exact ⟨some a, h, rfl⟩
      · rintro ⟨v, hv, rfl⟩
        cases v with
        | none =>
            cases hv
        | some v =>
            exact hv

/-- A required slice parameter reads whatever is there. -/
theorem reads_factorySliceParameter
    {name : String}
    {field a : Slice D} :
    (factorySliceParameter name true).Reads field a ↔
      ∃ j, field = some j ∧ a = some j := by
  cases field with
  | none =>
      simp [Parameter.Reads, factorySliceParameter]
  | some j =>
      simp [Parameter.Reads, factorySliceParameter, eq_comm]

theorem Parameter.accepts_unpack
    {α : Type}
    {p : Parameter D α}
    {members : List (String × Json D)}
    {r : α × Bool} :
    (p.unpack (some (.object members))).Accepts r ↔
      p.Reads (AssocMap.find members p.name) r.1 ∧
        (AssocMap.find members p.name).isSome = r.2 := by
  obtain ⟨a, b⟩ := r
  cases hfield : AssocMap.find members p.name with
  | some j =>
      simp [Parameter.unpack, Slice.get, hfield, Slice.isNone, Parameter.Reads]
  | none =>
      cases habsent : p.absent <;>
        simp [Parameter.unpack, Slice.get, hfield, Slice.isNone, habsent,
          Parameter.Reads]

theorem Parameter.rejects_unpack
    {α : Type}
    {p : Parameter D α}
    {s : Slice D}
    {e : DeserializeError} :
    (p.unpack s).Rejects e ↔
      (∃ j, s.get p.name = .ok (some j) ∧ (p.read (some j)).Rejects e) ∨
        (s.get p.name = .ok none ∧ p.absent = none ∧
          .ofMessage ("field `" ++ p.name ++ "` is required") = e) := by
  cases hfield : s.get p.name with
  | error fault =>
      simp [Parameter.unpack, hfield]
  | ok field =>
      cases field with
      | some j =>
          simp [Parameter.unpack, hfield, Slice.isNone]
      | none =>
          cases habsent : p.absent <;>
            simp [Parameter.unpack, hfield, Slice.isNone, habsent]

theorem Parameter.returns_unpack
    {α : Type}
    {p : Parameter D α}
    {members : List (String × Json D)}
    (h : ∀ j, AssocMap.find members p.name = some j →
      (p.read (some j)).Returns) :
    (p.unpack (some (.object members))).Returns := by
  cases hfield : AssocMap.find members p.name with
  | some j =>
      simpa [Parameter.unpack, Slice.get, hfield, Slice.isNone] using h j hfield
  | none =>
      cases habsent : p.absent <;>
        simp [Parameter.unpack, Slice.get, hfield, Slice.isNone, habsent]

namespace ParameterList

/-- The declared fields. -/
def names : {τ : Type} → ParameterList D τ → List String
  | _, .nil => []
  | _, .value p ps => p.name :: ps.names
  | _, .expectedValue name _ ps => name :: ps.names

/-- The number of declared fields that are present. -/
def presentCount
    {τ : Type}
    (ps : ParameterList D τ)
    (members : List (String × Json D)) : Nat :=
  ps.names.countP fun name => (AssocMap.find members name).isSome

theorem presentCount_value
    {α β : Type}
    (p : Parameter D α)
    (ps : ParameterList D β)
    (members : List (String × Json D)) :
    (ParameterList.value p ps).presentCount members =
      ps.presentCount members +
        if (AssocMap.find members p.name).isSome then 1 else 0 :=
  List.countP_cons

theorem presentCount_expectedValue
    {β : Type}
    (name : String)
    (expected : Value)
    (ps : ParameterList D β)
    (members : List (String × Json D)) :
    (ParameterList.expectedValue name expected ps).presentCount members =
      ps.presentCount members +
        if (AssocMap.find members name).isSome then 1 else 0 :=
  List.countP_cons

variable [Double D]

/-- Every parameter reads its field. -/
def Matches
    (members : List (String × Json D)) :
    {τ : Type} → ParameterList D τ → τ → Prop
  | _, .nil, _ => True
  | _, .value p ps, v =>
      p.Reads (AssocMap.find members p.name) v.1 ∧ ps.Matches members v.2
  | _, .expectedValue name expected ps, v =>
      expected.compare (AssocMap.find members name) = .ok true ∧
        ps.Matches members v

/-- What the comparisons and readers need in order not to throw. -/
def Safe
    (hints : HintList D)
    (members : List (String × Json D)) :
    {τ : Type} → ParameterList D τ → Prop
  | _, .nil => True
  | _, .value p ps =>
      (∀ j, AssocMap.find members p.name = some j →
          (p.read (some j)).Returns) ∧
        ps.Safe hints members
  | _, .expectedValue name expected ps =>
      (hints.hintHasFieldWithValue name expected = true ∨
          (AssocMap.find members name).isSome) ∧
        ps.Safe hints members

end ParameterList

section Acceptance

variable [Double D]

/-- A value that compares equal to something is there. -/
theorem Value.isSome_of_compare
    {expected : Value}
    {s : Slice D}
    (h : expected.compare s = .ok true) :
    s.isSome = true := by
  cases s with
  | some j =>
      rfl
  | none =>
      cases expected <;>
        simp [Value.compare, Slice.isNumber, Slice.isString] at h

theorem accepts_expectedValueExecutor
    {name : String}
    {expected : Value}
    {hints : HintList D}
    {members : List (String × Json D)}
    (hhints : hints.Hold members)
    {u : Unit} :
    (expectedValueExecutor name expected hints
        (some (.object members))).Accepts u ↔
      expected.compare (AssocMap.find members name) = .ok true := by
  unfold expectedValueExecutor
  cases hhint : hints.hintHasFieldWithValue name expected with
  | true =>
      simp [hhints name expected hhint]
  | false =>
      obtain ⟨b, hb⟩ := expected.compare_total (AssocMap.find members name)
      cases b <;>
        simp [Slice.get, hb]

theorem returns_expectedValueExecutor
    {name : String}
    {expected : Value}
    {hints : HintList D}
    {members : List (String × Json D)}
    (h : hints.hintHasFieldWithValue name expected = true ∨
      (AssocMap.find members name).isSome) :
    (expectedValueExecutor name expected hints
      (some (.object members))).Returns := by
  unfold expectedValueExecutor
  cases hhint : hints.hintHasFieldWithValue name expected with
  | true =>
      simp
  | false =>
      obtain ⟨j, hj⟩ : ∃ j, AssocMap.find members name = some j :=
        Option.isSome_iff_exists.mp (by simpa [hhint] using h)
      obtain ⟨b, hb⟩ := expected.compare_total (some j)
      cases b <;>
        simp [Slice.get, hj, hb, Slice.toJson]

/-- The executor counts the declared fields that are present. -/
theorem accepts_parameterListExecutor
    {τ : Type}
    {ps : ParameterList D τ}
    {hints : HintList D}
    {members : List (String × Json D)}
    (hhints : hints.Hold members)
    {i k : Nat}
    {v : τ} :
    (parameterListExecutor hints (some (.object members)) ps i k).Accepts v ↔
      ps.Matches members v ∧ members.length = k + ps.presentCount members := by
  induction ps generalizing i k with
  | nil =>
      simp [parameterListExecutor, Slice.length, ParameterList.Matches,
        ParameterList.presentCount, ParameterList.names]
  | value p ps ih =>
      simp only [parameterListExecutor, Outcome.accepts_bind, accepts_wrapError,
        Parameter.accepts_unpack, ih, Outcome.accepts_pure,
        ParameterList.Matches, ParameterList.presentCount_value]
      constructor
      · rintro ⟨⟨a, b⟩, ⟨hread, hb⟩, vs, ⟨hvs, hlength⟩, rfl⟩
        refine ⟨⟨hread, hvs⟩, ?_⟩
        rw [hlength, ← hb]
        split <;> omega
      · rintro ⟨⟨hread, hvs⟩, hlength⟩
        refine ⟨(v.1, (AssocMap.find members p.name).isSome), ⟨hread, rfl⟩,
          v.2, ⟨hvs, ?_⟩, rfl⟩
        rw [hlength]
        split <;> omega
  | expectedValue name expected ps ih =>
      simp only [parameterListExecutor, Outcome.accepts_bind,
        accepts_expectedValueExecutor hhints, ih, ParameterList.Matches]
      constructor
      · rintro ⟨_, hcompare, hvs, hlength⟩
        have hpresent := expected.isSome_of_compare hcompare
        refine ⟨⟨hcompare, hvs⟩, ?_⟩
        rw [hlength, ParameterList.presentCount_expectedValue, if_pos hpresent]
        omega
      · rintro ⟨⟨hcompare, hvs⟩, hlength⟩
        have hpresent := expected.isSome_of_compare hcompare
        refine ⟨(), hcompare, hvs, ?_⟩
        rw [hlength, ParameterList.presentCount_expectedValue, if_pos hpresent]
        omega

/-- An error is the parameter's own or comes from the parameters behind it. -/
theorem rejects_parameterListExecutor_value
    {α β : Type}
    {p : Parameter D α}
    {ps : ParameterList D β}
    {hints : HintList D}
    {s : Slice D}
    {i k : Nat}
    {e : DeserializeError} :
    (parameterListExecutor hints s (.value p ps) i k).Rejects e ↔
      (∃ e', (p.unpack s).Rejects e' ∧
        e'.wrap ("during read of " ++ toString i ++ "th parameters value") = e) ∨
      ∃ r, (p.unpack s).Accepts r ∧
        (parameterListExecutor hints s ps (i + 1)
          (if r.2 then k + 1 else k)).Rejects e := by
  simp only [parameterListExecutor, Outcome.rejects_bind, rejects_wrapError,
    accepts_wrapError, Outcome.not_rejects_pure, and_false, exists_false, or_false]

/-- The executor gets by if every comparison and every reading does. -/
theorem returns_parameterListExecutor
    {τ : Type}
    {ps : ParameterList D τ}
    {hints : HintList D}
    {members : List (String × Json D)}
    (hsafe : ps.Safe hints members)
    {i k : Nat} :
    (parameterListExecutor hints (some (.object members)) ps i k).Returns := by
  induction ps generalizing i k with
  | nil =>
      simp [parameterListExecutor, Slice.length]
  | value p ps ih =>
      obtain ⟨hread, hps⟩ := hsafe
      simp only [parameterListExecutor, Outcome.returns_bind, returns_wrapError,
        Outcome.returns_pure, implies_true, and_true]
      exact ⟨Parameter.returns_unpack hread, fun _ _ => ih hps⟩
  | expectedValue name expected ps ih =>
      obtain ⟨hcompare, hps⟩ := hsafe
      simp only [parameterListExecutor, Outcome.returns_bind]
      exact ⟨returns_expectedValueExecutor hcompare, fun _ _ => ih hps⟩

/--
**A parameter list accepts an object if every parameter reads its field and the
object has no other field, nor one of them twice.**
-/
theorem accepts_parameterList
    {τ : Type}
    {ps : ParameterList D τ}
    {hints : HintList D}
    {members : List (String × Json D)}
    (hhints : hints.Hold members)
    (hnames : ps.names.Nodup)
    {v : τ} :
    (parameterList ps hints (some (.object members))).Accepts v ↔
      ps.Matches members v ∧ AssocMap.KeysNodup members ∧
        ∀ k ∈ members.map Prod.fst, k ∈ ps.names := by
  rw [← AssocMap.length_eq_iff hnames]
  simp only [parameterList, Slice.isObject, Bool.or_true, if_true,
    accepts_parameterListExecutor hhints, Nat.zero_add]
  rfl

/-- With one required parameter, the object has one field. -/
theorem accepts_parameterList_single
    {α : Type}
    {p : Parameter D α}
    (hrequired : p.absent = none)
    {hints : HintList D}
    {members : List (String × Json D)}
    (hhints : hints.Hold members)
    {v : α × Unit} :
    (parameterList (.value p .nil) hints (some (.object members))).Accepts v ↔
      ∃ j, members = [(p.name, j)] ∧ (p.read (some j)).Accepts v.1 := by
  have hnames : (ParameterList.value p .nil).names.Nodup :=
    List.nodup_singleton p.name
  rw [accepts_parameterList hhints hnames]
  have hmembers : ∀ j, members = [(p.name, j)] ↔
      AssocMap.find members p.name = some j ∧ AssocMap.KeysNodup members ∧
        ∀ k ∈ members.map Prod.fst, k ∈ [p.name] := by
    intro j
    have hsingle : AssocMap.KeysNodup [(p.name, j)] := by
      simp [AssocMap.KeysNodup]
    have hperm : members.Perm [(p.name, j)] ↔
        (∀ k ∈ [p.name],
          AssocMap.find members k = AssocMap.find [(p.name, j)] k) ∧
          AssocMap.KeysNodup members ∧
          ∀ k ∈ members.map Prod.fst, k ∈ [p.name] :=
      hsingle.perm_iff (by simp)
    simpa using hperm
  simp only [ParameterList.Matches, Parameter.Reads, and_true, hmembers]
  constructor
  · rintro ⟨hreads, hall⟩
    cases hfield : AssocMap.find members p.name with
    | none =>
        simp [hfield, hrequired] at hreads
    | some j =>
        exact ⟨j, ⟨rfl, hall⟩, by simpa [hfield] using hreads⟩
  · rintro ⟨j, ⟨hfield, hall⟩, hread⟩
    exact ⟨by simpa [hfield] using hread, hall⟩

theorem accepts_fromFactory_single
    {α β : Type}
    {p : Parameter D α}
    (hrequired : p.absent = none)
    {factory : α × Unit → Exec β}
    {hints : HintList D}
    {members : List (String × Json D)}
    (hhints : hints.Hold members)
    {b : β} :
    (fromFactory (parameterList (.value p .nil)) factory hints
        (some (.object members))).Accepts b ↔
      ∃ j a, members = [(p.name, j)] ∧ (p.read (some j)).Accepts a ∧
        factory (a, ()) = .ok b := by
  simp only [accepts_fromFactory,
    accepts_parameterList_single hrequired hhints]
  constructor
  · rintro ⟨⟨a, _⟩, ⟨j, hmembers, hread⟩, hfactory⟩
    exact ⟨j, a, hmembers, hread, hfactory⟩
  · rintro ⟨j, a, hmembers, hread, hfactory⟩
    exact ⟨(a, ()), ⟨j, hmembers, hread⟩, hfactory⟩

theorem returns_parameterList
    {τ : Type}
    {ps : ParameterList D τ}
    {hints : HintList D}
    {members : List (String × Json D)}
    (hsafe : ps.Safe hints members) :
    (parameterList ps hints (some (.object members))).Returns := by
  simp only [parameterList, Slice.isObject, Bool.or_true, if_true]
  exact returns_parameterListExecutor hsafe

theorem returns_fromFactory_single
    {α β : Type}
    {p : Parameter D α}
    (hrequired : p.absent = none)
    (hread : ∀ j, (p.read (some j)).Returns)
    {factory : α × Unit → Exec β}
    (hfactory : ∀ j a, (p.read (some j)).Accepts a →
      ∃ b, factory (a, ()) = .ok b)
    {hints : HintList D}
    {members : List (String × Json D)}
    (hhints : hints.Hold members) :
    (fromFactory (parameterList (.value p .nil)) factory hints
      (some (.object members))).Returns := by
  rw [returns_fromFactory]
  refine ⟨returns_parameterList ⟨fun j _ => hread j, trivial⟩, ?_⟩
  rintro ⟨a, _⟩ ha
  obtain ⟨j, _, hja⟩ :=
    (accepts_parameterList_single hrequired hhints).mp ha
  exact hfactory j a hja

end Acceptance

end Deserialize
end AgencyNode
