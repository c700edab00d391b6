import AgencyNode.Deserialize.ParameterList

/-!
# The tuple of a parameter list

A parameter list has two counters.  `I` is the offset at which the next value is
put into the result tuple, whose type leaves the expected values out; `K` counts
the fields that have been visited.  The executor with the tuple it writes refines
the one that returns the values, and that one reads exactly the declared fields.
-/

namespace AgencyNode
namespace Deserialize

open Lib

variable {D : Type}

/-! ## Declarations -/

/-- A parameter that contributes a value of type `α`. -/
inductive FactoryParameter (D : Type) : Type → Type 1 where
  /-- `factory_simple_parameter`. -/
  | simple
      {α : Type}
      (name : String)
      (read : Slice D → Result α)
      (required : Bool)
      (defaultValue : α) : FactoryParameter D α
  /-- `factory_slice_parameter`. -/
  | slice
      (name : String)
      (required : Bool) : FactoryParameter D (Slice D)
  /-- `factory_optional_parameter`. -/
  | optional
      {α : Type}
      (name : String)
      (read : Slice D → Result α) : FactoryParameter D (Option α)
  /-- `factory_deserialized_parameter`, required. -/
  | deserialized
      {α : Type}
      (name : String)
      (d : Deserializer D α) : FactoryParameter D α
  /-- `factory_deserialized_parameter`, not required. -/
  | deserializedOptional
      {α : Type}
      (name : String)
      (d : Deserializer D α) : FactoryParameter D (Option α)

namespace FactoryParameter

/-- What its executor does. -/
def executor : {α : Type} → FactoryParameter D α → Parameter D α
  | _, .simple name read required defaultValue =>
      factorySimpleParameter name read required defaultValue
  | _, .slice name required => factorySliceParameter name required
  | _, .optional name read => factoryOptionalParameter name read
  | _, .deserialized name d => factoryDeserializedParameter name d
  | _, .deserializedOptional name d =>
      factoryDeserializedParameterOptional name d

def name : {α : Type} → FactoryParameter D α → String
  | _, .simple name _ _ _ => name
  | _, .slice name _ => name
  | _, .optional name _ => name
  | _, .deserialized name _ => name
  | _, .deserializedOptional name _ => name

def isRequired : {α : Type} → FactoryParameter D α → Bool
  | _, .simple _ _ required _ => required
  | _, .slice _ required => required
  | _, .optional _ _ => false
  | _, .deserialized _ _ => true
  | _, .deserializedOptional _ _ => false

/-- The value that is read for a field that is present. -/
def ReadsField : {α : Type} → FactoryParameter D α → Json D → α → Prop
  | _, .simple _ read _ _, j, a => (read (some j)).Accepts a
  | _, .slice _ _, j, a => a = some j
  | _, .optional _ read, j, a => ∃ v, (read (some j)).Accepts v ∧ a = some v
  | _, .deserialized _ d, j, a => (d [] (some j)).Accepts a
  | _, .deserializedOptional _ d, j, a =>
      ∃ v, (d [] (some j)).Accepts v ∧ a = some v

/-- The declared default, or an empty optional. -/
def IsDefault : {α : Type} → FactoryParameter D α → α → Prop
  | _, .simple _ _ _ defaultValue, a => a = defaultValue
  | _, .slice _ _, a => a = some .null
  | _, .optional _ _, a => a = none
  | _, .deserialized _ _, _ => False
  | _, .deserializedOptional _ _, a => a = none

end FactoryParameter

/-- A tuple. -/
@[reducible] def Tuple : List Type → Type
  | [] => Unit
  | α :: types => α × Tuple types

/-- `tuple_to_opts_t`: a tuple of optionals. -/
@[reducible] def OptTuple : List Type → Type
  | [] => Unit
  | α :: types => Option α × OptTuple types

/--
The parameters of a `parameter_list`, with the types of their values;
`tuple_no_void` drops the type of an `expected_value`.
-/
inductive Parameters (D : Type) : List Type → Type 1 where
  | nil : Parameters D []
  | value
      {α : Type}
      {types : List Type}
      (p : FactoryParameter D α)
      (ps : Parameters D types) : Parameters D (α :: types)
  | expectedValue
      {types : List Type}
      (name : String)
      (expected : Value)
      (ps : Parameters D types) : Parameters D types

namespace OptTuple

/-- The types behind the one at the offset. -/
theorem drop_succ
    {α : Type}
    {rest types : List Type}
    {i : Nat}
    (h : types.drop i = α :: rest) :
    types.drop (i + 1) = rest := by
  rw [← List.tail_drop, h, List.tail_cons]

/-- The tuple of empty optionals. -/
def empty : (types : List Type) → OptTuple types
  | [] => ()
  | _ :: types => (none, empty types)

/-- `std::get<I>(t) = value`. -/
def set
    {α : Type}
    {rest : List Type} :
    (types : List Type) → (i : Nat) → types.drop i = α :: rest → α →
      OptTuple types → OptTuple types
  | [], _, _, _, t => t
  | _ :: _, 0, h, value, t => (some (cast (List.cons.inj h).1.symm value), t.2)
  | _ :: types, i + 1, h, value, t => (t.1, set types i h value t.2)

/-- `unpack_opt_tuple`; `none` where `value` throws `bad_optional_access`. -/
def unpack : (types : List Type) → OptTuple types → Option (Tuple types)
  | [], _ => some ()
  | _ :: types, t => do
      let value ← t.1
      let values ← unpack types t.2
      return (value, values)

end OptTuple

namespace Parameters

/-- The parameter list, with what the executors of the parameters do. -/
def executors :
    {types : List Type} → Parameters D types → ParameterList D (Tuple types)
  | _, .nil => .nil
  | _, .value p ps => .value p.executor ps.executors
  | _, .expectedValue name expected ps =>
      .expectedValue name expected ps.executors

end Parameters

section Executor

variable [Double D]

/--
`parameter_list_executor` with the tuple it writes: `i` is the offset in the
tuple and `k` counts the visited fields.
-/
def parameterTupleExecutor
    (hints : HintList D)
    (s : Slice D)
    (types : List Type) :
    {rest : List Type} → Parameters D rest → (i k : Nat) →
      types.drop i = rest → OptTuple types → Result (OptTuple types)
  | _, .nil, _, k, _, t => do
      let length ← s.length
      if length ≠ k then
        reject
          ("superfluous field in object, found " ++ toString length ++
            " fields, expected " ++ toString k ++ " fields")
      else
        return t
  | _, .value p ps, i, k, h, t => do
      let (value, readValue) ←
        wrapError
          (fun e =>
            e.wrap
              ("during read of " ++ toString i ++ "th parameters value"))
          (p.executor.unpack s)
      parameterTupleExecutor hints s types ps (i + 1)
        (if readValue then k + 1 else k) (OptTuple.drop_succ h)
        (t.set types i h value)
  | _, .expectedValue name expected ps, i, k, h, t => do
      expectedValueExecutor name expected hints s
      parameterTupleExecutor hints s types ps i (k + 1) h t

/-- `deserialize_plan_executor<parameter_list>` with the tuple of optionals. -/
def parameterTuple
    {types : List Type}
    (ps : Parameters D types) : Deserializer D (Option (Tuple types)) :=
  fun hints s =>
    if hints.hintIsObject || s.isObject then do
      let parameter ←
        parameterTupleExecutor hints s types ps 0 0 List.drop_zero
          (OptTuple.empty types)
      return parameter.unpack types
    else
      reject "object expected"

end Executor

/-! ## The tuple holds the values -/

namespace OptTuple

/-- The values are put in from the offset on. -/
def fill :
    (rest types : List Type) → (i : Nat) → types.drop i = rest → Tuple rest →
      OptTuple types → OptTuple types
  | [], _, _, _, _, t => t
  | _ :: rest, types, i, h, values, t =>
      fill rest types (i + 1) (drop_succ h) values.2 (t.set types i h values.1)

/-- The optional in front of the offset is left alone. -/
theorem fill_cons
    {α : Type}
    (rest types : List Type)
    (i : Nat)
    (h : types.drop i = rest)
    (values : Tuple rest)
    (value : Option α)
    (t : OptTuple types) :
    fill rest (α :: types) (i + 1) h values (value, t) =
      (value, fill rest types i h values t) := by
  induction rest generalizing i t with
  | nil =>
      rfl
  | cons β rest ih =>
      exact ih (i + 1) (drop_succ h) values.2 (t.set types i h values.1)

/-- No optional is empty once all values have been put in. -/
theorem unpack_fill
    (types : List Type)
    (values : Tuple types)
    (t : OptTuple types) :
    (fill types types 0 List.drop_zero values t).unpack types = some values := by
  induction types with
  | nil =>
      rfl
  | cons α types ih =>
      have hfill : fill (α :: types) (α :: types) 0 List.drop_zero values t =
          (some values.1, fill types types 0 List.drop_zero values.2 t.2) :=
        fill_cons types types 0 List.drop_zero values.2 (some values.1) t.2
      rw [hfill]
      simp only [unpack, ih]
      rfl

end OptTuple

section Refinement

variable [Double D]

theorem parameterTupleExecutor_eq
    {hints : HintList D}
    {s : Slice D}
    {types rest : List Type}
    (ps : Parameters D rest)
    (i k : Nat)
    (h : types.drop i = rest)
    (t : OptTuple types) :
    parameterTupleExecutor hints s types ps i k h t =
      (fun values => OptTuple.fill rest types i h values t) <$>
        parameterListExecutor hints s ps.executors i k := by
  induction ps generalizing i k t with
  | nil =>
      simp only [parameterTupleExecutor, Parameters.executors,
        parameterListExecutor, map_eq_pure_bind, bind_assoc]
      congr 1
      funext length
      split <;> rfl
  | value p ps ih =>
      simp only [parameterTupleExecutor, Parameters.executors,
        parameterListExecutor, ih, map_eq_pure_bind, bind_assoc, pure_bind]
      rfl
  | expectedValue name expected ps ih =>
      simp only [parameterTupleExecutor, Parameters.executors,
        parameterListExecutor, ih, map_eq_pure_bind, bind_assoc]

/-- **The executor that writes the tuple returns the values.** -/
theorem parameterTuple_eq
    {types : List Type}
    (ps : Parameters D types)
    (hints : HintList D)
    (s : Slice D) :
    parameterTuple ps hints s = some <$> parameterList ps.executors hints s := by
  unfold parameterTuple parameterList
  split
  · rw [parameterTupleExecutor_eq]
    simp only [map_eq_pure_bind, bind_assoc, pure_bind, OptTuple.unpack_fill]
  · rfl

end Refinement

/-! ## What is read -/

namespace FactoryParameter

variable {α : Type}

theorem executor_name
    (p : FactoryParameter D α) :
    p.executor.name = p.name := by
  cases p <;> rfl

/-- The value that is read if the field is present, and the default if it is not. -/
def Yields
    (p : FactoryParameter D α)
    (field : Slice D)
    (a : α) : Prop :=
  match field with
  | some j => p.ReadsField j a
  | none => p.IsDefault a

/-- The executor reads what the declaration says, and insists on what it requires. -/
theorem reads_executor_iff
    {p : FactoryParameter D α}
    {field : Slice D}
    {a : α} :
    p.executor.Reads field a ↔
      p.Yields field a ∧ (p.isRequired = true → field.isSome = true) := by
  cases field with
  | some j =>
      cases p with
      | slice name required =>
          simp only [Parameter.Reads, executor, Yields, ReadsField,
            factorySliceParameter, Outcome.accepts_pure, Option.isSome_some,
            implies_true, and_true]
          exact eq_comm
      | _ =>
          simp [Parameter.Reads, executor, Yields, ReadsField, wrapField,
            factorySimpleParameter, factoryOptionalParameter,
            factoryDeserializedParameter, factoryDeserializedParameterOptional,
            @eq_comm _ a]
  | none =>
      cases p with
      | simple name read required defaultValue =>
          cases required <;>
            simp [Parameter.Reads, executor, Yields, IsDefault, isRequired,
              factorySimpleParameter, eq_comm]
      | slice name required =>
          cases required <;>
            simp [Parameter.Reads, executor, Yields, IsDefault, isRequired,
              factorySliceParameter, Slice.nullSlice, eq_comm]
      | _ =>
          simp [Parameter.Reads, executor, Yields, IsDefault, isRequired,
            factoryOptionalParameter, factoryDeserializedParameter,
            factoryDeserializedParameterOptional, eq_comm]

theorem exists_isDefault
    {p : FactoryParameter D α}
    (h : p.isRequired = false) :
    ∃ a, p.IsDefault a := by
  cases p with
  | deserialized name d => cases h
  | _ => exact ⟨_, rfl⟩

end FactoryParameter

namespace Parameters

/-- The declared fields. -/
def names : {types : List Type} → Parameters D types → List String
  | _, .nil => []
  | _, .value p ps => p.name :: ps.names
  | _, .expectedValue name _ ps => name :: ps.names

/-- The fields that are required; those with an expected value are. -/
def requiredNames : {types : List Type} → Parameters D types → List String
  | _, .nil => []
  | _, .value p ps =>
      if p.isRequired then p.name :: ps.requiredNames else ps.requiredNames
  | _, .expectedValue name _ ps => name :: ps.requiredNames

/-- Every declared field that is present can be read. -/
def Readable
    (members : List (String × Json D)) :
    {types : List Type} → Parameters D types → Prop
  | _, .nil => True
  | _, .value p ps =>
      (∀ j, AssocMap.find members p.name = some j → ∃ a, p.ReadsField j a) ∧
        ps.Readable members
  | _, .expectedValue _ _ ps => ps.Readable members

/-- The values that are read, or the defaults, in the order of the declarations. -/
def Holds
    (members : List (String × Json D)) :
    {types : List Type} → Parameters D types → Tuple types → Prop
  | _, .nil, _ => True
  | _, .value p ps, values =>
      p.Yields (AssocMap.find members p.name) values.1 ∧
        ps.Holds members values.2
  | _, .expectedValue _ _ ps, values => ps.Holds members values

theorem names_executors
    {types : List Type}
    (ps : Parameters D types) :
    ps.executors.names = ps.names := by
  induction ps with
  | nil => rfl
  | value p ps ih =>
      rw [executors, ParameterList.names, ih, p.executor_name, names]
  | expectedValue name expected ps ih =>
      rw [executors, ParameterList.names, ih, names]

/-- Where the required fields are present, values exist if the fields can be read. -/
theorem exists_holds_iff
    {types : List Type}
    {ps : Parameters D types}
    {members : List (String × Json D)}
    (hrequired : ∀ name ∈ ps.requiredNames,
      (AssocMap.find members name).isSome = true) :
    (∃ values, ps.Holds members values) ↔ ps.Readable members := by
  induction ps with
  | nil =>
      exact ⟨fun _ => trivial, fun _ => ⟨(), trivial⟩⟩
  | value p ps ih =>
      have hfield : p.isRequired = true →
          (AssocMap.find members p.name).isSome = true := by
        intro h
        exact hrequired p.name (by rw [requiredNames, if_pos h]; exact List.mem_cons_self)
      have hps := ih (by
        intro name hname
        refine hrequired name ?_
        rw [requiredNames]
        split
        · exact List.mem_cons_of_mem _ hname
        · exact hname)
      have hp : (∃ a, p.Yields (AssocMap.find members p.name) a) ↔
          ∀ j, AssocMap.find members p.name = some j → ∃ a, p.ReadsField j a := by
        cases hfind : AssocMap.find members p.name with
        | some j =>
            simp [FactoryParameter.Yields]
        | none =>
            rw [hfind] at hfield
            have hoptional : p.isRequired = false := by
              cases h : p.isRequired with
              | false => rfl
              | true => exact absurd (hfield h) (by simp)
            simpa [FactoryParameter.Yields] using
              FactoryParameter.exists_isDefault hoptional
      rw [Readable, ← hp, ← hps]
      constructor
      · rintro ⟨values, hvalue, hvalues⟩
        exact ⟨⟨values.1, hvalue⟩, values.2, hvalues⟩
      · rintro ⟨⟨value, hvalue⟩, values, hvalues⟩
        exact ⟨(value, values), hvalue, hvalues⟩
  | expectedValue name expected ps ih =>
      exact ih (fun n hn => hrequired n (List.mem_cons_of_mem _ hn))

section Comparison

variable [Double D]

/-- Every expected value is there. -/
def Expected
    (members : List (String × Json D)) :
    {types : List Type} → Parameters D types → Prop
  | _, .nil => True
  | _, .value _ ps => ps.Expected members
  | _, .expectedValue name expected ps =>
      expected.compare (AssocMap.find members name) = .ok true ∧
        ps.Expected members

/-- The object has what the declarations ask for, and nothing else. -/
structure ReadsExactly
    {types : List Type}
    (ps : Parameters D types)
    (members : List (String × Json D)) : Prop where
  required : ∀ name ∈ ps.requiredNames,
    (AssocMap.find members name).isSome = true
  readable : ps.Readable members
  expected : ps.Expected members
  declared : ∀ key ∈ members.map Prod.fst, key ∈ ps.names

theorem matches_executors_iff
    {types : List Type}
    {ps : Parameters D types}
    {members : List (String × Json D)}
    {values : Tuple types} :
    ps.executors.Matches members values ↔
      ps.Holds members values ∧ ps.Expected members ∧
        ∀ name ∈ ps.requiredNames,
          (AssocMap.find members name).isSome = true := by
  induction ps with
  | nil =>
      simp [executors, ParameterList.Matches, Holds, Expected, requiredNames]
  | value p ps ih =>
      have hrequired : (∀ name ∈ (Parameters.value p ps).requiredNames,
          (AssocMap.find members name).isSome = true) ↔
            (p.isRequired = true →
              (AssocMap.find members p.name).isSome = true) ∧
            ∀ name ∈ ps.requiredNames,
              (AssocMap.find members name).isSome = true := by
        rw [requiredNames]
        split
        · rename_i h
          simp [h]
        · rename_i h
          simp [h]
      rw [executors, ParameterList.Matches, ih, p.executor_name,
        FactoryParameter.reads_executor_iff, Holds, Expected, hrequired]
      tauto
  | expectedValue name expected ps ih =>
      rw [executors, ParameterList.Matches, ih, Holds, Expected, requiredNames,
        List.forall_mem_cons]
      constructor
      · rintro ⟨hcompare, hholds, hexpected, hrequired⟩
        exact ⟨hholds, ⟨hcompare, hexpected⟩, expected.isSome_of_compare hcompare,
          hrequired⟩
      · rintro ⟨hholds, ⟨hcompare, hexpected⟩, _, hrequired⟩
        exact ⟨hcompare, hholds, hexpected, hrequired⟩

end Comparison

end Parameters

section Acceptance

variable [Double D]

end Acceptance

end Deserialize
end AgencyNode
