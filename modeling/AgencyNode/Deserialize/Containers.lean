import AgencyNode.Deserialize.Deserializer

/-!
# Arrays, maps and fixed orders

`array_deserializer` and `map_deserializer` run one deserializer on every
element or member; `fixed_order_deserializer` runs the n-th deserializer of a
list on the n-th element.  The first error ends the run.
-/

namespace AgencyNode
namespace Deserialize

open Lib

variable {D α β : Type}

/-! ## array.h -/

/-- One round of the loop of the array executor. -/
def arrayStep
    (d : Deserializer D α)
    (index : Nat)
    (member : Json D) : Result α :=
  wrapError
    (fun e => (e.wrap ("at array index " ++ toString index)).traceIndex index)
    (d [] (some member))

/-- `array_deserializer`. -/
def arrayDeserializer (d : Deserializer D α) : Deserializer D (List α) :=
  fun _ slice =>
    if slice.isArray then do
      let members ← slice.arrayElements
      Outcome.collect (arrayStep d) 0 members
    else
      reject "array expected"

theorem arrayDeserializer_array
    (d : Deserializer D α)
    (hints : HintList D)
    (elements : List (Json D)) :
    arrayDeserializer d hints (some (.array elements)) =
      Outcome.collect (arrayStep d) 0 elements := by
  rfl

/-- Nothing but an array is accepted as an array. -/
theorem isArray_of_accepts_arrayDeserializer
    {d : Deserializer D α}
    {hints : HintList D}
    {slice : Slice D}
    {as : List α}
    (h : (arrayDeserializer d hints slice).Accepts as) :
    ∃ elements, slice = some (.array elements) := by
  by_cases harray : slice.isArray = true
  · exact isArray_iff.mp harray
  · simp [arrayDeserializer, harray] at h

theorem accepts_arrayDeserializer
    {d : Deserializer D α}
    {hints : HintList D}
    {elements : List (Json D)}
    {R : Json D → α → Prop}
    (hd : ∀ j ∈ elements, ∀ a, (d [] (some j)).Accepts a ↔ R j a)
    {as : List α} :
    (arrayDeserializer d hints (some (.array elements))).Accepts as ↔
      List.Forall₂ R elements as := by
  rw [arrayDeserializer_array]
  apply Outcome.accepts_collect
  intro j hj index a
  simpa [arrayStep] using hd j hj a

/-- The first element that is rejected is the one that is reported. -/
theorem rejects_arrayDeserializer
    {d : Deserializer D α}
    {hints : HintList D}
    {s : Slice D}
    {e : DeserializeError} :
    (arrayDeserializer d hints s).Rejects e ↔
      (s.isArray = false ∧ .ofMessage "array expected" = e) ∨
      ∃ front x back e', s = some (.array (front ++ x :: back)) ∧
        (∀ y ∈ front, ∃ a, (d [] (some y)).Accepts a) ∧
          (d [] (some x)).Rejects e' ∧
            (e'.wrap ("at array index " ++ toString front.length)).traceIndex
              front.length = e := by
  by_cases harray : s.isArray = true
  · obtain ⟨elements, rfl⟩ := isArray_iff.mp harray
    have hgood : ∀ x ∈ elements, ∀ index,
        (∃ a, (arrayStep d index x).Accepts a) ↔
          ∃ a, (d [] (some x)).Accepts a := by
      simp [arrayStep]
    rw [arrayDeserializer_array, Outcome.rejects_collect hgood]
    simp [harray, arrayStep]
  · have hnot : ∀ elements, s ≠ some (.array elements) := by
      rintro elements rfl
      exact harray rfl
    simp [arrayDeserializer, harray, hnot]

/-- A slice that is no array is rejected without an exception. -/
theorem returns_arrayDeserializer_of_not_array
    {d : Deserializer D α}
    {hints : HintList D}
    {slice : Slice D}
    (h : slice.isArray = false) :
    (arrayDeserializer d hints slice).Returns := by
  simp [arrayDeserializer, h]

theorem returns_arrayDeserializer
    {d : Deserializer D α}
    {hints : HintList D}
    {elements : List (Json D)}
    {good safe : Json D → Prop}
    (hgood : ∀ j ∈ elements, (∃ a, (d [] (some j)).Accepts a) ↔ good j)
    (hsafe : ∀ j ∈ elements, (d [] (some j)).Returns ↔ safe j) :
    (arrayDeserializer d hints (some (.array elements))).Returns ↔
      Outcome.ScanSafe good safe elements := by
  rw [arrayDeserializer_array]
  apply Outcome.returns_collect
  · intro j hj index
    simpa [arrayStep] using hgood j hj
  · intro j hj index
    simpa [arrayStep] using hsafe j hj

/-! ## map.h -/

/--
One round of the loop of the map executor.  The key reader is the one for
strings, which accepts the key of every member.
-/
def mapStep
    (d : Deserializer D α)
    (hints : HintList D)
    (member : String × Json D) : Result (String × α) := do
  let value ←
    wrapError
      (fun e =>
        (e.wrap ("when handling member `" ++ member.1 ++ "`")).traceField
          member.1)
      (d hints.withDefaultState (some member.2))
  return (member.1, value)

/-- `map_deserializer` into a vector of pairs. -/
def mapDeserializer
    (d : Deserializer D α) : Deserializer D (List (String × α)) :=
  fun hints s =>
    if hints.hintIsObject || s.isObject then do
      let members ← s.objectMembers
      Outcome.collect (fun _ member => mapStep d hints member) 0 members
    else
      reject "expected object"

theorem mapDeserializer_object
    (d : Deserializer D α)
    (members : List (String × Json D)) :
    mapDeserializer d [] (some (.object members)) =
      Outcome.collect (fun _ member => mapStep d [] member) 0 members := by
  rfl

theorem isObject_of_accepts_mapDeserializer
    {d : Deserializer D α}
    {s : Slice D}
    {es : List (String × α)}
    (h : (mapDeserializer d [] s).Accepts es) :
    ∃ members, s = some (.object members) := by
  by_cases hobject : s.isObject = true
  · exact isObject_iff.mp hobject
  · simp [mapDeserializer, HintList.hintIsObject, hobject] at h

theorem accepts_mapStep
    {d : Deserializer D α}
    {member : String × Json D}
    {e : String × α} :
    (mapStep d [] member).Accepts e ↔
      e.1 = member.1 ∧ (d [] (some member.2)).Accepts e.2 := by
  simp only [mapStep, HintList.withDefaultState, List.map_nil,
    Outcome.accepts_bind, accepts_wrapError, Outcome.accepts_pure]
  constructor
  · rintro ⟨a, ha, rfl⟩
    exact ⟨rfl, ha⟩
  · rintro ⟨hkey, ha⟩
    exact ⟨e.2, ha, by rw [← hkey]⟩

theorem returns_mapStep
    {d : Deserializer D α}
    {member : String × Json D} :
    (mapStep d [] member).Returns ↔ (d [] (some member.2)).Returns := by
  simp only [mapStep, HintList.withDefaultState, List.map_nil,
    Outcome.returns_bind, returns_wrapError, Outcome.returns_pure,
    implies_true, and_true]

/-- The members keep their keys and their order. -/
theorem accepts_mapDeserializer
    {d : Deserializer D α}
    {members : List (String × Json D)}
    {R : Json D → α → Prop}
    (hd : ∀ m ∈ members, ∀ a, (d [] (some m.2)).Accepts a ↔ R m.2 a)
    {es : List (String × α)} :
    (mapDeserializer d [] (some (.object members))).Accepts es ↔
      List.Forall₂ (fun m e => e.1 = m.1 ∧ R m.2 e.2) members es := by
  rw [mapDeserializer_object]
  apply Outcome.accepts_collect
  intro m hm _ e
  rw [accepts_mapStep, hd m hm]

/-- The first member that is rejected is the one that is reported. -/
theorem rejects_mapDeserializer
    {d : Deserializer D α}
    {hints : HintList D}
    {s : Slice D}
    {e : DeserializeError} :
    (mapDeserializer d hints s).Rejects e ↔
      ((hints.hintIsObject || s.isObject) = false ∧
        .ofMessage "expected object" = e) ∨
      ∃ front m back e', s = some (.object (front ++ m :: back)) ∧
        (∀ y ∈ front, ∃ a, (d hints.withDefaultState (some y.2)).Accepts a) ∧
          (d hints.withDefaultState (some m.2)).Rejects e' ∧
            (e'.wrap ("when handling member `" ++ m.1 ++ "`")).traceField m.1 =
              e := by
  by_cases hobject : s.isObject = true
  · obtain ⟨members, rfl⟩ := isObject_iff.mp hobject
    have hmap : mapDeserializer d hints (some (.object members)) =
        Outcome.collect (fun _ member => mapStep d hints member) 0 members := by
      simp only [mapDeserializer, hobject, Bool.or_true, if_true]
      rfl
    have hgood : ∀ m ∈ members, ∀ _ : Nat,
        (∃ entry, (mapStep d hints m).Accepts entry) ↔
          ∃ a, (d hints.withDefaultState (some m.2)).Accepts a := by
      simp [mapStep]
    rw [hmap, Outcome.rejects_collect hgood]
    simp [hobject, mapStep]
  · have hnot : ∀ members, s ≠ some (.object members) := by
      rintro members rfl
      exact hobject rfl
    have hmembers : ∀ f, s.objectMembers ≠ .ok f := by
      intro f hf
      rcases s with _ | j
      · cases hf
      · cases j with
        | object members => exact hobject rfl
        | _ => cases hf
    cases hhint : hints.hintIsObject <;>
      simp [mapDeserializer, hhint, hobject, hnot, hmembers]

theorem returns_mapDeserializer_of_not_object
    {d : Deserializer D α}
    {s : Slice D}
    (h : s.isObject = false) :
    (mapDeserializer d [] s).Returns := by
  simp [mapDeserializer, HintList.hintIsObject, h]

theorem returns_mapDeserializer
    {d : Deserializer D α}
    {members : List (String × Json D)}
    {good safe : Json D → Prop}
    (hgood : ∀ m ∈ members, (∃ a, (d [] (some m.2)).Accepts a) ↔ good m.2)
    (hsafe : ∀ m ∈ members, (d [] (some m.2)).Returns ↔ safe m.2) :
    (mapDeserializer d [] (some (.object members))).Returns ↔
      Outcome.ScanSafe (fun m => good m.2) (fun m => safe m.2) members := by
  rw [mapDeserializer_object]
  apply Outcome.returns_collect
  · intro m hm _
    rw [← hgood m hm]
    constructor
    · rintro ⟨e, he⟩
      exact ⟨e.2, (accepts_mapStep.mp he).2⟩
    · rintro ⟨a, ha⟩
      exact ⟨(m.1, a), accepts_mapStep.mpr ⟨rfl, ha⟩⟩
  · intro m hm _
    rw [returns_mapStep, hsafe m hm]

/-! ## fixed-order.h -/

/-- The deserializers of a `fixed_order_deserializer`, in order. -/
inductive FixedOrder (D : Type) : Type → Type 1 where
  | nil : FixedOrder D Unit
  | cons
      {α β : Type}
      (d : Deserializer D α)
      (ds : FixedOrder D β) : FixedOrder D (α × β)

namespace FixedOrder

/-- `sizeof...(Ds)`. -/
def length {τ : Type} : FixedOrder D τ → Nat
  | .nil => 0
  | .cons _ ds => ds.length + 1

end FixedOrder

/--
The fold over the deserializers: the iterator afterwards, and the values or the
first error.
-/
def unpackInternal
    (expectedArrayLength : Nat) :
    {τ : Type} → FixedOrder D τ → Nat → ArrayIterator D →
      Exec (ArrayIterator D × Except DeserializeError τ)
  | _, .nil, _, iter => .ok (iter, .ok ())
  | _, .cons d ds, i, iter =>
      -- `iter++` comes first: the iterator has moved on even past the end.
      if iter.notAtEnd then do
        let element ← iter.deref
        let result ← (d [] element).run
        match result with
        | .ok value => do
            let (last, values) ←
              unpackInternal expectedArrayLength ds (i + 1) iter.next
            return (last, values.map fun vs => (value, vs))
        | .error e =>
            return (iter.next,
              .error
                ((e.wrap
                  ("in fixed order array at position " ++ toString i)).traceIndex
                    i))
      else
        .ok (iter.next,
          .error (.ofMessage
            ("bad array length, found: " ++ toString i ++
              ", expected: " ++ toString expectedArrayLength)))

/-- `fixed_order_deserializer`. -/
def fixedOrderDeserializer
    {τ : Type}
    (ds : FixedOrder D τ) : Deserializer D τ :=
  fun _ s =>
    if s.isArray then do
      let iter ← ArrayIterator.ofSlice s
      let (last, result) ← unpackInternal ds.length ds 0 iter
      -- An error found before is overwritten here.
      if last.notAtEnd then
        reject
          ("bad array length, excess elements, expected: " ++
            toString ds.length)
      else
        Outcome.ofExcept result
    else
      reject "expected array"

/-- An iterator that has passed the elements in front of the rest. -/
def iteratorBehind (front rest : List (Json D)) : ArrayIterator D :=
  ⟨front ++ rest, front.length⟩

theorem notAtEnd_iteratorBehind
    (front rest : List (Json D)) :
    (iteratorBehind front rest).notAtEnd = !rest.isEmpty := by
  cases rest with
  | nil =>
      simp [iteratorBehind, ArrayIterator.notAtEnd]
  | cons x xs =>
      simp [iteratorBehind, ArrayIterator.notAtEnd]

theorem deref_iteratorBehind
    (front xs : List (Json D))
    (x : Json D) :
    (iteratorBehind front (x :: xs)).deref = .ok (some x) := by
  simp [iteratorBehind, ArrayIterator.deref]

theorem next_iteratorBehind
    (front xs : List (Json D))
    (x : Json D) :
    (iteratorBehind front (x :: xs)).next = iteratorBehind (front ++ [x]) xs := by
  simp [iteratorBehind, ArrayIterator.next]

namespace FixedOrder

/-- The deserializers accept the elements one by one, as many as there are. -/
def Matches : {τ : Type} → FixedOrder D τ → List (Json D) → τ → Prop
  | _, .nil, elements, _ => elements = []
  | _, .cons _ _, [], _ => False
  | _, .cons d ds, x :: xs, v =>
      (d [] (some x)).Accepts v.1 ∧ ds.Matches xs v.2

/-- No deserializer throws on the element it gets to. -/
def Safe : {τ : Type} → FixedOrder D τ → List (Json D) → Prop
  | _, .nil, _ => True
  | _, .cons _ _, [] => True
  | _, .cons d ds, x :: xs =>
      (d [] (some x)).Returns ∧
        ((∃ a, (d [] (some x)).Accepts a) → ds.Safe xs)

end FixedOrder

/-- One step of the fold on an element that is there. -/
theorem unpackInternal_cons
    {τ : Type}
    (n : Nat)
    (d : Deserializer D α)
    (ds : FixedOrder D τ)
    (i : Nat)
    (front xs : List (Json D))
    (x : Json D) :
    unpackInternal n (.cons d ds) i (iteratorBehind front (x :: xs)) =
      (d [] (some x)).run >>= fun result =>
        match result with
        | .ok value =>
            unpackInternal n ds (i + 1) (iteratorBehind (front ++ [x]) xs) >>=
              fun r => .ok (r.1, r.2.map fun vs => (value, vs))
        | .error e =>
            .ok (iteratorBehind (front ++ [x]) xs,
              .error
                ((e.wrap
                  ("in fixed order array at position " ++ toString i)).traceIndex
                    i)) := by
  rw [unpackInternal, notAtEnd_iteratorBehind, deref_iteratorBehind,
    next_iteratorBehind]
  rfl

/-- The fold succeeds if a front part of what is left matches. -/
theorem unpackInternal_eq_ok
    {τ : Type}
    {n : Nat}
    {ds : FixedOrder D τ}
    {i : Nat}
    {front rest : List (Json D)}
    {last : ArrayIterator D}
    {v : τ} :
    unpackInternal n ds i (iteratorBehind front rest) = .ok (last, .ok v) ↔
      ∃ used unused, rest = used ++ unused ∧ ds.Matches used v ∧
        last = iteratorBehind (front ++ used) unused := by
  induction ds generalizing i front rest last with
  | nil =>
      constructor
      · intro h
        cases h
        exact ⟨[], rest, rfl, rfl, by simp⟩
      · rintro ⟨used, unused, rfl, hused, rfl⟩
        cases hused
        simp [unpackInternal]
  | cons d ds ih =>
      cases rest with
      | nil =>
          constructor
          · intro h
            simp [unpackInternal, notAtEnd_iteratorBehind] at h
          · rintro ⟨used, unused, hsplit, hmatch, _⟩
            obtain ⟨rfl, rfl⟩ := List.append_eq_nil_iff.mp hsplit.symm
            exact hmatch.elim
      | cons x xs =>
          rw [unpackInternal_cons]
          constructor
          · intro h
            obtain ⟨result, hrun, h⟩ := Exec.bind_eq_ok.mp h
            cases result with
            | error e =>
                cases h
            | ok a =>
                obtain ⟨⟨last', values⟩, hfold, h⟩ := Exec.bind_eq_ok.mp h
                cases values with
                | error e =>
                    cases h
                | ok vs =>
                    cases h
                    obtain ⟨used, unused, rfl, hmatch, rfl⟩ := ih.mp hfold
                    exact ⟨x :: used, unused, rfl, ⟨hrun, hmatch⟩, by simp⟩
          · rintro ⟨used, unused, hsplit, hmatch, rfl⟩
            cases used with
            | nil =>
                exact hmatch.elim
            | cons y used =>
                cases hsplit
                obtain ⟨hrun, hmatch⟩ := hmatch
                have hfold :
                    unpackInternal n ds (i + 1)
                        (iteratorBehind (front ++ [x]) (used ++ unused)) =
                      .ok (iteratorBehind (front ++ [x] ++ used) unused,
                        .ok v.2) :=
                  ih.mpr ⟨used, unused, rfl, hmatch, rfl⟩
                have hrun : (d [] (some x)).run = .ok (.ok v.1) := hrun
                simp [hrun, hfold, Except.map]

/-- The fold throws nothing if no deserializer it gets to does. -/
theorem unpackInternal_total_iff
    {τ : Type}
    {n : Nat}
    {ds : FixedOrder D τ}
    {i : Nat}
    {front rest : List (Json D)} :
    (∃ r, unpackInternal n ds i (iteratorBehind front rest) = .ok r) ↔
      ds.Safe rest := by
  induction ds generalizing i front rest with
  | nil =>
      simp [unpackInternal, FixedOrder.Safe]
  | cons d ds ih =>
      cases rest with
      | nil =>
          simp [unpackInternal, notAtEnd_iteratorBehind, FixedOrder.Safe]
      | cons x xs =>
          rw [unpackInternal_cons]
          unfold FixedOrder.Safe Outcome.Returns Outcome.Accepts
          cases (d [] (some x)).run with
          | error f =>
              simp
          | ok result =>
              cases result with
              | error e =>
                  simp
              | ok a =>
                  have hrest :
                      (∃ r, unpackInternal n ds (i + 1)
                          (iteratorBehind (front ++ [x]) xs) = .ok r) ↔
                        ds.Safe xs := ih
                  simp only [← hrest, Exec.ok_bind]
                  constructor
                  · rintro ⟨r, hr⟩
                    obtain ⟨r', hr', _⟩ := Exec.bind_eq_ok.mp hr
                    exact ⟨⟨_, rfl⟩, fun _ => ⟨r', hr'⟩⟩
                  · rintro ⟨_, h⟩
                    obtain ⟨r', hr'⟩ := h ⟨a, rfl⟩
                    exact ⟨_, Exec.bind_eq_ok.mpr ⟨r', hr', rfl⟩⟩

theorem ofSlice_array
    (elements : List (Json D)) :
    ArrayIterator.ofSlice (some (.array elements)) =
      .ok (iteratorBehind [] elements) := by
  rfl

/--
**A fixed order accepts an array that matches from its first to its last
element.**
-/
theorem accepts_fixedOrderDeserializer
    {τ : Type}
    {ds : FixedOrder D τ}
    {hints : HintList D}
    {elements : List (Json D)}
    {v : τ} :
    (fixedOrderDeserializer ds hints (some (.array elements))).Accepts v ↔
      ds.Matches elements v := by
  simp only [fixedOrderDeserializer, Slice.isArray, if_true, ofSlice_array,
    Outcome.accepts_bind, Outcome.accepts_lift, Outcome.accepts_ite,
    not_accepts_reject, and_false, false_or, Outcome.accepts_ofExcept]
  constructor
  · rintro ⟨_, hiter, ⟨last, result⟩, hfold, hend, hresult⟩
    cases hiter
    cases hresult
    obtain ⟨used, unused, rfl, hmatch, rfl⟩ := unpackInternal_eq_ok.mp hfold
    have hunused : unused = [] := by
      simpa [notAtEnd_iteratorBehind] using hend
    simpa [hunused] using hmatch
  · intro hmatch
    refine ⟨_, rfl, (iteratorBehind elements [], .ok v), ?_, ?_, rfl⟩
    · exact unpackInternal_eq_ok.mpr ⟨elements, [], by simp, hmatch, rfl⟩
    · simp [notAtEnd_iteratorBehind]

theorem isArray_of_accepts_fixedOrderDeserializer
    {τ : Type}
    {ds : FixedOrder D τ}
    {hints : HintList D}
    {s : Slice D}
    {v : τ}
    (h : (fixedOrderDeserializer ds hints s).Accepts v) :
    ∃ elements, s = some (.array elements) := by
  by_cases harray : s.isArray = true
  · exact isArray_iff.mp harray
  · simp [fixedOrderDeserializer, harray] at h

theorem returns_fixedOrderDeserializer
    {τ : Type}
    {ds : FixedOrder D τ}
    {hints : HintList D}
    {elements : List (Json D)} :
    (fixedOrderDeserializer ds hints (some (.array elements))).Returns ↔
      ds.Safe elements := by
  rw [← unpackInternal_total_iff]
  simp only [fixedOrderDeserializer, Slice.isArray, if_true, ofSlice_array,
    Outcome.returns_bind, Outcome.returns_lift, Outcome.returns_ite,
    Outcome.accepts_lift, returns_reject, Outcome.returns_ofExcept,
    implies_true, and_true]
  constructor
  · rintro ⟨_, h⟩
    exact h _ rfl
  · intro h
    refine ⟨⟨_, rfl⟩, ?_⟩
    intro iter hiter
    cases hiter
    exact h

theorem returns_fixedOrderDeserializer_of_not_array
    {τ : Type}
    {ds : FixedOrder D τ}
    {hints : HintList D}
    {s : Slice D}
    (h : s.isArray = false) :
    (fixedOrderDeserializer ds hints s).Returns := by
  simp [fixedOrderDeserializer, h]

end Deserialize
end AgencyNode
