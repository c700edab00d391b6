import AgencyNode.OperationDeserializer

/-!
# The grammar of transactions

What clients may send, stated without reference to the deserializers: operation
and precondition objects, transactions, and the envelope around them.  A JSON
value is described by such an object if it has exactly its members.

The deserializer of the envelope accepts exactly what is described, and what it
returns is determined by the description.
-/

namespace AgencyNode

open Lib Deserialize

variable {D : Type}

/-! ## Operations -/

/-- An operation a client may ask for. -/
inductive OperationObject (D : Type) where
  /-- `"op": "increment"`, with an optional `"delta"`. -/
  | increment (delta : Option D)
  /-- `"op": "set"`, with the `"new"` value and an optional `"ttl"`. -/
  | set (new : Json D) (ttl : Option D)

namespace OperationObject

/-- The members of the object. -/
def members : OperationObject D → List (String × Json D)
  | .increment delta =>
      ("op", .string "increment") ::
        (delta.map fun d => ("delta", Json.number d)).toList
  | .set new ttl =>
      ("op", .string "set") :: ("new", new) ::
        (ttl.map fun t => ("ttl", Json.number t)).toList

/-- The JSON value is the object, up to the order of its members. -/
def Describes (o : OperationObject D) (j : Json D) : Prop :=
  ∃ ms, j = .object ms ∧ ms.Perm o.members

/-- The transformation the program makes of the object. -/
def deserialized [Double D] : OperationObject D → Transformation D
  | .increment delta => incrementOperator (delta.getD Double.zero)
  | .set new _ => setOperator (some (Node.ofJson new))

theorem keysNodup_members
    (o : OperationObject D) :
    AssocMap.KeysNodup o.members := by
  cases o with
  | increment delta =>
      cases delta <;> simp [members, AssocMap.KeysNodup]
  | set new ttl =>
      cases ttl <;> simp [members, AssocMap.KeysNodup]

theorem describes_object_iff
    {o : OperationObject D}
    {ms : List (String × Json D)} :
    o.Describes (.object ms) ↔ ms.Perm o.members := by
  simp [Describes]

theorem describes_increment_iff
    {delta : Option D}
    {ms : List (String × Json D)} :
    (increment delta).Describes (.object ms) ↔
      (AssocMap.find ms "op" = some (.string "increment") ∧
        AssocMap.find ms "delta" = delta.map .number) ∧
        AssocMap.KeysNodup ms ∧
        ∀ k ∈ ms.map Prod.fst, k ∈ ["op", "delta"] := by
  have hnames :
      ∀ k ∈ (increment delta).members.map Prod.fst, k ∈ ["op", "delta"] := by
    cases delta <;> simp [members]
  rw [describes_object_iff, (keysNodup_members _).perm_iff hnames]
  apply and_congr_left'
  cases delta <;> simp [members, AssocMap.find]

theorem describes_set_iff
    {new : Json D}
    {ttl : Option D}
    {ms : List (String × Json D)} :
    (set new ttl).Describes (.object ms) ↔
      (AssocMap.find ms "op" = some (.string "set") ∧
        AssocMap.find ms "new" = some new ∧
        AssocMap.find ms "ttl" = ttl.map .number) ∧
        AssocMap.KeysNodup ms ∧
        ∀ k ∈ ms.map Prod.fst, k ∈ ["op", "new", "ttl"] := by
  have hnames :
      ∀ k ∈ (set new ttl).members.map Prod.fst,
        k ∈ ["op", "new", "ttl"] := by
    cases ttl <;> simp [members]
  rw [describes_object_iff, (keysNodup_members _).perm_iff hnames]
  apply and_congr_left'
  cases ttl <;> simp [members, AssocMap.find]

/-- The field `op` tells the operations apart. -/
theorem Describes.op
    {o : OperationObject D}
    {ms : List (String × Json D)}
    (h : o.Describes (.object ms)) :
    AssocMap.find ms "op" = some (.string
      (match o with
        | .increment _ => "increment"
        | .set _ _ => "set")) := by
  cases o with
  | increment delta =>
      exact (describes_increment_iff.mp h).1.1
  | set new ttl =>
      exact (describes_set_iff.mp h).1.1

section Deserializer

variable [Double D]

theorem matches_incrementOperationPlan
    {ms : List (String × Json D)}
    {v : D × Unit} :
    incrementOperationPlan.Matches ms v ↔
      AssocMap.find ms "op" = some (.string "increment") ∧
        ∃ delta : Option D, AssocMap.find ms "delta" = delta.map .number ∧
          delta.getD Double.zero = v.1 := by
  simp only [incrementOperationPlan, ParameterList.Matches,
    Value.compare_stringValue, operationDeltaParameter,
    reads_factorySimpleParameter fun _ _ => accepts_readDouble, and_true]
  rfl

theorem matches_setOperationPlan
    {ms : List (String × Json D)}
    {v : Slice D × D × Unit} :
    setOperationPlan.Matches ms v ↔
      AssocMap.find ms "op" = some (.string "set") ∧
        (∃ new, AssocMap.find ms "new" = some new ∧ v.1 = some new) ∧
        ∃ ttl : Option D, AssocMap.find ms "ttl" = ttl.map .number ∧
          ttl.getD Double.zero = v.2.1 := by
  simp only [setOperationPlan, ParameterList.Matches,
    Value.compare_stringValue, operationNewParameter,
    reads_factorySliceParameter, operationTtlParameter,
    reads_factorySimpleParameter fun _ _ => accepts_readDouble, and_true]
  rfl

theorem nodup_names_incrementOperationPlan :
    (incrementOperationPlan (D := D)).names.Nodup := by
  show ["op", "delta"].Nodup
  decide

theorem nodup_names_setOperationPlan :
    (setOperationPlan (D := D)).names.Nodup := by
  show ["op", "new", "ttl"].Nodup
  decide

theorem accepts_increment
    {ms : List (String × Json D)}
    {hints : HintList D}
    (hhints : hints.Hold ms)
    {f : Transformation D} :
    (fromFactory (parameterList incrementOperationPlan)
        incrementOperationFactory hints (some (.object ms))).Accepts f ↔
      ∃ delta, (increment delta).Describes (.object ms) ∧
        (increment delta).deserialized = f := by
  simp only [accepts_fromFactory,
    accepts_parameterList hhints nodup_names_incrementOperationPlan,
    matches_incrementOperationPlan, describes_increment_iff]
  constructor
  · rintro ⟨v, ⟨⟨hop, delta, hdelta, hv⟩, hnames⟩, hf⟩
    refine ⟨delta, ⟨⟨hop, hdelta⟩, hnames⟩, ?_⟩
    cases hf
    rw [deserialized, hv]
  · rintro ⟨delta, ⟨⟨hop, hdelta⟩, hnames⟩, rfl⟩
    exact ⟨(_, ()), ⟨⟨hop, delta, hdelta, rfl⟩, hnames⟩, rfl⟩

theorem accepts_set
    {ms : List (String × Json D)}
    {hints : HintList D}
    (hhints : hints.Hold ms)
    {f : Transformation D} :
    (fromFactory (parameterList setOperationPlan)
        setOperationFactory hints (some (.object ms))).Accepts f ↔
      ∃ new ttl, (set new ttl).Describes (.object ms) ∧
        (set new ttl).deserialized = f := by
  simp only [accepts_fromFactory,
    accepts_parameterList hhints nodup_names_setOperationPlan,
    matches_setOperationPlan, describes_set_iff]
  constructor
  · rintro ⟨v, ⟨⟨hop, ⟨new, hnew, hv⟩, ttl, httl, _⟩, hnames⟩, hf⟩
    refine ⟨new, ttl, ⟨⟨hop, hnew, httl⟩, hnames⟩, ?_⟩
    rw [setOperationFactory, hv] at hf
    cases hf
    rfl
  · rintro ⟨new, ttl, ⟨⟨hop, hnew, httl⟩, hnames⟩, rfl⟩
    exact ⟨(some new, _, ()),
      ⟨⟨hop, ⟨new, hnew, rfl⟩, ttl, httl, rfl⟩, hnames⟩, rfl⟩

/-- **An operation object is accepted if and only if it is described.** -/
theorem accepts_agencyOperationDeserialzer
    {j : Json D}
    {f : Transformation D} :
    (agencyOperationDeserialzer [] (some j)).Accepts f ↔
      ∃ o : OperationObject D, o.Describes j ∧ o.deserialized = f := by
  rw [agencyOperationDeserialzer, accepts_fromFactory]
  simp only [agencyOperationPlan, accepts_fieldValueDependent, get_eq_ok]
  constructor
  · rintro ⟨v, ⟨_, ⟨ms, hms, rfl⟩, hmatches⟩, hf⟩
    cases hms
    rcases v with f | f | f
    · obtain ⟨hop, haccepts⟩ := hmatches
      cases hf
      obtain ⟨delta, h⟩ :=
        (accepts_increment (hold_valueHints hop)).mp haccepts
      exact ⟨_, h⟩
    · obtain ⟨_, hop, haccepts⟩ := hmatches
      cases hf
      obtain ⟨new, ttl, h⟩ :=
        (accepts_set (hold_valueHints hop)).mp haccepts
      exact ⟨_, h⟩
    · exact f.elim
  · rintro ⟨o, ho, rfl⟩
    obtain ⟨ms, rfl, _⟩ := id ho
    have hop := ho.op
    cases o with
    | increment delta =>
        have hincrement :
            (Value.stringValue "increment").compare
              (AssocMap.find ms "op") = .ok true :=
          (Value.compare_stringValue _ _).mpr hop
        refine ⟨.inl _, ⟨_, ⟨ms, rfl, rfl⟩, hincrement, ?_⟩, rfl⟩
        exact (accepts_increment (hold_valueHints hincrement)).mpr
          ⟨delta, ho, rfl⟩
    | set new ttl =>
        have hincrement :
            (Value.stringValue "increment").compare
              (AssocMap.find ms "op") = .ok false := by
          rw [Value.compare_stringValue_false, hop]
          simp
        have hset :
            (Value.stringValue "set").compare
              (AssocMap.find ms "op") = .ok true :=
          (Value.compare_stringValue _ _).mpr hop
        refine ⟨.inr (.inl _),
          ⟨_, ⟨ms, rfl, rfl⟩, hincrement, hset, ?_⟩, rfl⟩
        exact (accepts_set (hold_valueHints hset)).mpr
          ⟨new, ttl, ho, rfl⟩

end Deserializer

end OperationObject

/-! ## Preconditions -/

/-- A precondition a client may state. -/
inductive PreconditionObject (D : Type) where
  | old (v : Json D)
  | oldNot (v : Json D)
  | oldEmpty (b : Bool)

namespace PreconditionObject

/-- The only member of the object. -/
def member : PreconditionObject D → String × Json D
  | .old v => ("old", v)
  | .oldNot v => ("oldNot", v)
  | .oldEmpty b => ("oldEmpty", .bool b)

/-- The JSON value is the object. -/
def Describes (o : PreconditionObject D) (j : Json D) : Prop :=
  j = .object [o.member]

variable [StdHash] [Double D]

/-- The condition the program makes of the object. -/
def deserialized : PreconditionObject D → Condition D
  | .old v => equalCondition (some (Node.ofJson v))
  | .oldNot v => notEqualCondition (some (Node.ofJson v))
  | .oldEmpty b => isEmptyCondition b

theorem accepts_old
    {ms : List (String × Json D)}
    {hints : HintList D}
    (hhints : hints.Hold ms)
    {f : Condition D} :
    (fromFactory (parameterList (.value preconditionOldParameter .nil))
        equalConditionFactory hints (some (.object ms))).Accepts f ↔
      ∃ v, (old v).Describes (.object ms) ∧ (old v).deserialized = f := by
  have hrequired : (preconditionOldParameter (D := D)).absent = none := rfl
  rw [accepts_fromFactory_single hrequired hhints]
  constructor
  · rintro ⟨j, a, rfl, hread, hf⟩
    cases hread
    cases hf
    exact ⟨j, rfl, rfl⟩
  · rintro ⟨v, h, rfl⟩
    cases h
    exact ⟨v, some v, rfl, rfl, rfl⟩

theorem accepts_oldNot
    {ms : List (String × Json D)}
    {hints : HintList D}
    (hhints : hints.Hold ms)
    {f : Condition D} :
    (fromFactory (parameterList (.value preconditionOldNotParameter .nil))
        notEqualConditionFactory hints (some (.object ms))).Accepts f ↔
      ∃ v, (oldNot v).Describes (.object ms) ∧ (oldNot v).deserialized = f := by
  have hrequired : (preconditionOldNotParameter (D := D)).absent = none := rfl
  rw [accepts_fromFactory_single hrequired hhints]
  constructor
  · rintro ⟨j, a, rfl, hread, hf⟩
    cases hread
    cases hf
    exact ⟨j, rfl, rfl⟩
  · rintro ⟨v, h, rfl⟩
    cases h
    exact ⟨v, some v, rfl, rfl, rfl⟩

theorem accepts_oldEmpty
    {ms : List (String × Json D)}
    {hints : HintList D}
    (hhints : hints.Hold ms)
    {f : Condition D} :
    (fromFactory (parameterList (.value preconditionOldEmptyParameter .nil))
        oldEmptyConditionFactory hints (some (.object ms))).Accepts f ↔
      ∃ b, (oldEmpty b).Describes (.object ms) ∧
        (oldEmpty b).deserialized = f := by
  have hrequired : (preconditionOldEmptyParameter (D := D)).absent = none := rfl
  rw [accepts_fromFactory_single hrequired hhints]
  constructor
  · rintro ⟨j, a, rfl, hread, hf⟩
    have hj : some j = some (Json.bool a) :=
      accepts_readBool.mp (accepts_wrapError.mp hread)
    cases hj
    cases hf
    exact ⟨a, rfl, rfl⟩
  · rintro ⟨b, h, rfl⟩
    cases h
    exact ⟨.bool b, b, rfl, rfl, rfl⟩

/-- **A precondition object is accepted if and only if it is described.** -/
theorem accepts_agencyPreconditionDeserialzer
    {j : Json D}
    {f : Condition D} :
    (agencyPreconditionDeserialzer [] (some j)).Accepts f ↔
      ∃ o : PreconditionObject D, o.Describes j ∧ o.deserialized = f := by
  rw [agencyPreconditionDeserialzer, accepts_fromFactory]
  simp only [agencyPreconditionPlan, accepts_fieldNameDependent]
  constructor
  · rintro ⟨v, hmatches, hf⟩
    rcases v with f | f | f | f
    · obtain ⟨v, hget, haccepts⟩ := hmatches
      cases hf
      obtain ⟨ms, hms, _⟩ := get_eq_ok.mp hget
      cases hms
      obtain ⟨v, h⟩ := (accepts_old hold_nameHints).mp haccepts
      exact ⟨_, h⟩
    · obtain ⟨_, v, hget, haccepts⟩ := hmatches
      cases hf
      obtain ⟨ms, hms, _⟩ := get_eq_ok.mp hget
      cases hms
      obtain ⟨v, h⟩ := (accepts_oldNot hold_nameHints).mp haccepts
      exact ⟨_, h⟩
    · obtain ⟨_, _, v, hget, haccepts⟩ := hmatches
      cases hf
      obtain ⟨ms, hms, _⟩ := get_eq_ok.mp hget
      cases hms
      obtain ⟨b, h⟩ := (accepts_oldEmpty hold_nameHints).mp haccepts
      exact ⟨_, h⟩
    · exact f.elim
  · rintro ⟨o, rfl, rfl⟩
    cases o with
    | old v =>
        refine ⟨.inl _, ⟨v, rfl, ?_⟩, rfl⟩
        exact (accepts_old hold_nameHints).mpr ⟨v, rfl, rfl⟩
    | oldNot v =>
        refine ⟨.inr (.inl _), ⟨rfl, v, rfl, ?_⟩, rfl⟩
        exact (accepts_oldNot hold_nameHints).mpr ⟨v, rfl, rfl⟩
    | oldEmpty b =>
        refine ⟨.inr (.inr (.inl _)), ⟨rfl, rfl, .bool b, rfl, ?_⟩, rfl⟩
        exact (accepts_oldEmpty hold_nameHints).mpr ⟨b, rfl, rfl⟩

end PreconditionObject

/-! ## Transactions -/

/-- Members that are described one by one, under their own keys. -/
def DescribesMembers
    {T : Type}
    (describes : T → Json D → Prop)
    (ms : List (String × Json D))
    (os : List (String × T)) : Prop :=
  List.Forall₂ (fun m o => o.1 = m.1 ∧ describes o.2 m.2) ms os

/-- There is a description if there is one for every member. -/
theorem exists_describesMembers_iff
    {T : Type}
    {describes : T → Json D → Prop}
    {ms : List (String × Json D)} :
    (∃ os, DescribesMembers describes ms os) ↔
      ∀ m ∈ ms, ∃ o, describes o m.2 := by
  induction ms with
  | nil =>
      exact ⟨fun _ m hm => absurd hm List.not_mem_nil, fun _ => ⟨[], .nil⟩⟩
  | cons m ms ih =>
      rw [List.forall_mem_cons, ← ih]
      constructor
      · rintro ⟨_, h⟩
        cases h with
        | cons ho hos =>
            exact ⟨⟨_, ho.2⟩, _, hos⟩
      · rintro ⟨⟨o, ho⟩, os, hos⟩
        exact ⟨(m.1, o) :: os, .cons ⟨rfl, ho⟩ hos⟩

/-- A transaction a client may send. -/
structure TransactionObject (D : Type) where
  operations : List (String × OperationObject D)
  preconditions : List (String × PreconditionObject D)
  clientId : String

namespace TransactionObject

/-- The JSON value is the array `[ops, precs, id]` of the transaction. -/
def Describes (t : TransactionObject D) (j : Json D) : Prop :=
  ∃ ops precs, j = .array [.object ops, .object precs, .string t.clientId] ∧
    DescribesMembers OperationObject.Describes ops t.operations ∧
    DescribesMembers PreconditionObject.Describes precs t.preconditions

variable [StdHash] [Double D]

/-- The transaction the program makes of it. -/
def deserialized (t : TransactionObject D) : AgencyTransaction D where
  operations := t.operations.map fun o => (o.1, o.2.deserialized)
  preconditions := t.preconditions.map fun o => (o.1, o.2.deserialized)
  clientId := t.clientId

end TransactionObject

/-- The JSON value is an array of transactions. -/
def DescribesEnvelope (ts : List (TransactionObject D)) (j : Json D) : Prop :=
  ∃ elements, j = .array elements ∧
    List.Forall₂ (fun e t => TransactionObject.Describes t e) elements ts

/-- A map of described members is accepted with all its members. -/
theorem accepts_mapDeserializer_described
    {α T : Type}
    {d : Deserializer D α}
    {describes : T → Json D → Prop}
    {f : T → α}
    {ms : List (String × Json D)}
    (hd : ∀ m ∈ ms, ∀ a, (d [] (some m.2)).Accepts a ↔
      ∃ o, describes o m.2 ∧ f o = a)
    {es : List (String × α)} :
    (mapDeserializer d [] (some (.object ms))).Accepts es ↔
      ∃ os, DescribesMembers describes ms os ∧
        os.map (fun o => (o.1, f o.2)) = es := by
  rw [accepts_mapDeserializer (R := fun j a => ∃ o, describes o j ∧ f o = a) hd]
  unfold DescribesMembers
  rw [← Outcome.forall₂_exists_iff]
  have hmember : ∀ (m : String × Json D) (e : String × α),
      (e.1 = m.1 ∧ ∃ o, describes o m.2 ∧ f o = e.2) ↔
        ∃ o : String × T, (o.1 = m.1 ∧ describes o.2 m.2) ∧
          (o.1, f o.2) = e := by
    rintro m ⟨key, a⟩
    constructor
    · rintro ⟨hkey, o, ho, rfl⟩
      exact ⟨(key, o), ⟨hkey, ho⟩, rfl⟩
    · rintro ⟨⟨key', o⟩, ⟨hkey, ho⟩, heq⟩
      cases heq
      exact ⟨hkey, o, ho, rfl⟩
  simp only [hmember]

section Envelope

variable [Double D]

theorem accepts_operationDeserializer
    {ms : List (String × Json D)}
    {es : List (String × Transformation D)} :
    (operationDeserializer [] (some (.object ms))).Accepts es ↔
      ∃ os, DescribesMembers OperationObject.Describes ms os ∧
        os.map (fun o => (o.1, o.2.deserialized)) = es :=
  accepts_mapDeserializer_described fun _ _ _ =>
    OperationObject.accepts_agencyOperationDeserialzer

variable [StdHash]

theorem accepts_preconditionDeserializer
    {ms : List (String × Json D)}
    {es : List (String × Condition D)} :
    (preconditionDeserializer [] (some (.object ms))).Accepts es ↔
      ∃ os, DescribesMembers PreconditionObject.Describes ms os ∧
        os.map (fun o => (o.1, o.2.deserialized)) = es :=
  accepts_mapDeserializer_described fun _ _ _ =>
    PreconditionObject.accepts_agencyPreconditionDeserialzer

/-- A transaction has three elements. -/
theorem matches_agencyTransactionElements
    {elements : List (Json D)}
    {operations : List (String × Transformation D)}
    {preconditions : List (String × Condition D)}
    {clientId : String} :
    agencyTransactionElements.Matches elements
        (operations, preconditions, clientId, ()) ↔
      ∃ ops precs, elements = [ops, precs, .string clientId] ∧
        (operationDeserializer [] (some ops)).Accepts operations ∧
        (preconditionDeserializer [] (some precs)).Accepts preconditions := by
  constructor
  · intro h
    rcases elements with _ | ⟨ops, _ | ⟨precs, _ | ⟨id, rest⟩⟩⟩
    · exact h.elim
    · exact h.2.elim
    · exact h.2.2.elim
    · obtain ⟨hops, hprecs, hid, hrest⟩ := h
      cases accepts_readString.mp hid
      cases hrest
      exact ⟨ops, precs, rfl, hops, hprecs⟩
  · rintro ⟨ops, precs, rfl, hops, hprecs⟩
    exact ⟨hops, hprecs, accepts_readString.mpr rfl, rfl⟩

/-- **A transaction is accepted if and only if it is described.** -/
theorem accepts_agencyTransactionDeserializer
    {j : Json D}
    {t : AgencyTransaction D} :
    (agencyTransactionDeserializer [] (some j)).Accepts t ↔
      ∃ o : TransactionObject D, o.Describes j ∧ o.deserialized = t := by
  rw [agencyTransactionDeserializer, accepts_fromFactory]
  constructor
  · rintro ⟨⟨operations, preconditions, clientId, _⟩, haccepts, hfactory⟩
    cases hfactory
    obtain ⟨elements, hj⟩ := isArray_of_accepts_fixedOrderDeserializer haccepts
    cases hj
    obtain ⟨_, _, rfl, hops, hprecs⟩ :=
      matches_agencyTransactionElements.mp
        (accepts_fixedOrderDeserializer.mp haccepts)
    obtain ⟨ops, hobject⟩ := isObject_of_accepts_mapDeserializer hops
    cases hobject
    obtain ⟨precs, hobject⟩ := isObject_of_accepts_mapDeserializer hprecs
    cases hobject
    obtain ⟨os, hos, rfl⟩ := accepts_operationDeserializer.mp hops
    obtain ⟨cs, hcs, rfl⟩ :=
      accepts_preconditionDeserializer.mp hprecs
    exact ⟨⟨os, cs, clientId⟩, ⟨ops, precs, rfl, hos, hcs⟩, rfl⟩
  · rintro ⟨o, ⟨ops, precs, rfl, hos, hcs⟩, rfl⟩
    refine ⟨(_, _, o.clientId, ()), ?_, rfl⟩
    refine accepts_fixedOrderDeserializer.mpr
      (matches_agencyTransactionElements.mpr ⟨_, _, rfl, ?_, ?_⟩)
    · exact accepts_operationDeserializer.mpr ⟨_, hos, rfl⟩
    · exact accepts_preconditionDeserializer.mpr ⟨_, hcs, rfl⟩

/--
**The envelope deserializer accepts exactly the described envelopes**, and what
it returns is what the description stands for.
-/
theorem accepts_agencyEnvelopeDeserializer
    {j : Json D}
    {ts : List (AgencyTransaction D)} :
    (agencyEnvelopeDeserializer [] (some j)).Accepts ts ↔
      ∃ os : List (TransactionObject D), DescribesEnvelope os j ∧
        os.map TransactionObject.deserialized = ts := by
  constructor
  · intro haccepts
    obtain ⟨elements, hj⟩ := isArray_of_accepts_arrayDeserializer haccepts
    cases hj
    have h := (accepts_arrayDeserializer fun _ _ _ =>
      accepts_agencyTransactionDeserializer).mp haccepts
    obtain ⟨os, hos, rfl⟩ := Outcome.forall₂_exists_iff.mp h
    exact ⟨os, ⟨elements, rfl, hos⟩, rfl⟩
  · rintro ⟨os, ⟨elements, rfl, hos⟩, rfl⟩
    exact (accepts_arrayDeserializer fun _ _ _ =>
      accepts_agencyTransactionDeserializer).mpr
        (Outcome.forall₂_exists_iff.mpr ⟨os, hos, rfl⟩)

/--
**The envelope deserializer accepts exactly the transaction grammar and loses
nothing**: the value has one transaction for each element, with the operations
and preconditions of all its members under their keys, all in storage order.
-/
theorem envelope_grammar
    (j : Json D) :
    ((∃ ts, (agencyEnvelopeDeserializer [] (some j)).Accepts ts) ↔
        ∃ os : List (TransactionObject D), DescribesEnvelope os j) ∧
      ∀ ts, (agencyEnvelopeDeserializer [] (some j)).Accepts ts ↔
        ∃ os : List (TransactionObject D), DescribesEnvelope os j ∧
          os.map TransactionObject.deserialized = ts := by
  refine ⟨?_, fun ts => accepts_agencyEnvelopeDeserializer⟩
  constructor
  · rintro ⟨ts, hts⟩
    obtain ⟨os, hos, _⟩ := accepts_agencyEnvelopeDeserializer.mp hts
    exact ⟨os, hos⟩
  · rintro ⟨os, hos⟩
    exact ⟨_, accepts_agencyEnvelopeDeserializer.mpr ⟨os, hos, rfl⟩⟩

end Envelope

/-- The members of an operation may stand in any order. -/
example :
    letI := constantHash
    (agencyEnvelopeDeserializer (D := Int) []
      (some (.array
        [.array
          [.object [("/x", .object
            [("delta", .number 2), ("op", .string "increment")])],
            .object [("/x", .object [("oldNot", .null)])],
            .string "client"]]))).Accepts
      [TransactionObject.deserialized
        ⟨[("/x", .increment (some 2))], [("/x", .oldNot .null)], "client"⟩] := by
  rfl

end AgencyNode
