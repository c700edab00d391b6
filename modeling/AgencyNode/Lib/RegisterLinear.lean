import AgencyNode.Lib.RegisterOrder

/-!
# The calls of a register in one order

A modifying call takes effect when it is rejected or publishes, a reading call when
it makes its copy.  In this order the calls behave as if each had the register to
itself, and the calls of each client are those of its program, with the results it
has been given.
-/

namespace AgencyNode
namespace Lib
namespace Register

universe u v w x y

variable {C : Type y} {V : Type u} {W : Type v} {R : Type w} {A : Type x}

/-- A call that has taken effect, with its result or with its copy of the register. -/
inductive Record (V : Type u) (W : Type v) (R : Type w) where
  | modified (call : W) (result : Option V)
  | copied (call : R) (value : V)

def Record.call : Record V W R → W ⊕ R
  | .modified call _ => .inl call
  | .copied call _ => .inr call

/-- The calls that have taken effect, in this order. -/
def recordsOf : List (C × Event V W R A) → List (C × Record V W R) :=
  List.filterMap fun e =>
    match e.2 with
    | .rejected call => some (e.1, .modified call none)
    | .published call value => some (e.1, .modified call (some value))
    | .observed call value => some (e.1, .copied call value)
    | _ => none

/-- Executing the calls one after the other leads from `init` to `value`. -/
inductive Linear (G : Register V W R A) (init : V) :
    List (C × Record V W R) → V → Prop
  | nil : Linear G init [] init
  | modified {records : List (C × Record V W R)} {value value' : V} {c : C} {call : W}
      {result : Option V} :
      Linear G init records value → G.execute call value = some (value', result) →
      Linear G init (records ++ [(c, .modified call result)]) value'
  | copied {records : List (C × Record V W R)} {value : V} {c : C} {call : R} :
      Linear G init records value →
      Linear G init (records ++ [(c, .copied call value)]) value

/-- The call that has been taken from the program and has not taken effect. -/
def pendingCall : Phase V W R → List (W ⊕ R)
  | .testing call => [.inl call]
  | .computing call => [.inl call]
  | .computed call _ => [.inl call]
  | .publishing call _ => [.inl call]
  | .reading call => [.inr call]
  | _ => []

/-- The call that has taken effect and has not returned. -/
def pendingRecord : Phase V W R → List (Record V W R)
  | .published call value => [.modified call (some value)]
  | .finishing call result => [.modified call result]
  | .copied call value => [.copied call value]
  | .answering call value => [.copied call value]
  | _ => []

theorem recordsOf_append
    (h h' : List (C × Event V W R A)) :
    recordsOf (h ++ h') = recordsOf h ++ recordsOf h' := by
  exact List.filterMap_append ..

section Linear

variable [DecidableEq C]

/-- The calls from which a client has returned. -/
def returnsOf (c : C) : List (C × Event V W R A) → List (Record V W R) :=
  List.filterMap fun e =>
    match e.2 with
    | .returned call result => if e.1 = c then some (.modified call result) else none
    | .answered call value _ => if e.1 = c then some (.copied call value) else none
    | _ => none

/--
The calls of a client are those of its program: the ones that have taken effect, the
one that it is making, and the ones that it has yet to make.
-/
structure Recorded
    (program : C → List (W ⊕ R))
    (s : State C V W R A)
    (c : C) : Prop where
  calls :
    (callsOf c (recordsOf s.history)).map Record.call ++
        (pendingCall (s.phase c) ++ s.program c) = program c
  returns :
    callsOf c (recordsOf s.history) = returnsOf c s.history ++ pendingRecord (s.phase c)

variable {G : Register V W R A} {s s' : State C V W R A} {c : C}

/-- A step of `c` records calls of `c` only, and returns from those it has recorded. -/
theorem Step.records
    (hstep : Step G c s s') :
    ∃ events, s'.history = s.history ++ events ∧
      (∀ d, d ≠ c →
        callsOf d (recordsOf events) = [] ∧ returnsOf d events = []) ∧
      (callsOf c (recordsOf events)).map Record.call ++
          (pendingCall (s'.phase c) ++ s'.program c) =
        pendingCall (s.phase c) ++ s.program c ∧
      pendingRecord (s.phase c) ++ callsOf c (recordsOf events) =
        returnsOf c events ++ pendingRecord (s'.phase c) := by
  have hown : ∀ (e : Event V W R A) (d : C), d ≠ c →
      callsOf d (recordsOf [(c, e)]) = [] ∧ returnsOf d [(c, e)] = [] := by
    intro e d hdc
    have hcd : ¬ c = d := fun h => hdc h.symm
    cases e <;> simp [callsOf, recordsOf, returnsOf, hcd]
  cases hstep with
  | acquireModify hphase hprogram _ =>
      refine ⟨[_], rfl, hown _, ?_, ?_⟩
      · simp [hphase, hprogram, State.enter, State.emit, State.pop, callsOf, recordsOf,
          pendingCall]
      · simp [hphase, State.enter, State.emit, State.pop, callsOf, recordsOf, returnsOf,
          pendingRecord]
  | acquireShared hphase hprogram _ =>
      refine ⟨[], (List.append_nil _).symm, fun _ _ => ⟨rfl, rfl⟩, ?_, ?_⟩
      · simp [hphase, hprogram, State.enter, State.pop, callsOf, recordsOf, pendingCall]
      · simp [hphase, State.enter, State.pop, callsOf, recordsOf, returnsOf,
          pendingRecord]
  | accept hphase _ | compute hphase _ | acquireExclusive hphase _ _
  | releaseExclusive hphase | releaseShared hphase =>
      refine ⟨[], (List.append_nil _).symm, fun _ _ => ⟨rfl, rfl⟩, ?_, ?_⟩
      · simp [hphase, State.enter, callsOf, recordsOf, pendingCall]
      · simp [hphase, State.enter, callsOf, recordsOf, returnsOf, pendingRecord]
  | reject hphase _ | publish hphase | releaseModify hphase | copy hphase
  | respond hphase _ =>
      refine ⟨[_], rfl, hown _, ?_, ?_⟩
      · simp [hphase, State.enter, State.emit, callsOf, recordsOf, pendingCall,
          Record.call]
      · simp [hphase, State.enter, State.emit, callsOf, recordsOf, returnsOf,
          pendingRecord]

theorem Recorded.step
    {program : C → List (W ⊕ R)}
    {d : C}
    (h : Recorded program s d)
    (hstep : Step G c s s') :
    Recorded program s' d := by
  obtain ⟨events, hhistory, hother, hcalls, hreturns⟩ := hstep.records
  have hrecords : callsOf d (recordsOf s'.history) =
      callsOf d (recordsOf s.history) ++ callsOf d (recordsOf events) := by
    rw [hhistory, recordsOf_append, callsOf_append]
  have hreturned : returnsOf d s'.history =
      returnsOf d s.history ++ returnsOf d events := by
    rw [hhistory]
    exact List.filterMap_append ..
  by_cases hdc : d = c
  · subst hdc
    refine ⟨?_, ?_⟩
    · rw [hrecords, List.map_append, List.append_assoc, hcalls, h.calls]
    · rw [hrecords, hreturned, h.returns, List.append_assoc, List.append_assoc, hreturns]
  · obtain ⟨hnone, hnone'⟩ := hother d hdc
    refine ⟨?_, ?_⟩
    · rw [hrecords, hnone, List.append_nil, hstep.program_of_ne hdc,
        hstep.phase_of_ne hdc, h.calls]
    · rw [hrecords, hreturned, hnone, hnone', List.append_nil, List.append_nil,
        hstep.phase_of_ne hdc, h.returns]

/-- A call takes effect on the value that the calls before it have left. -/
theorem Linear.step
    {init : V}
    (h : Linear G init (recordsOf s.history) s.value)
    (hserialized : Serialized G init s)
    (hstep : Step G c s s') :
    Linear G init (recordsOf s'.history) s'.value := by
  cases hstep with
  | @reject call hphase hguard =>
      change Linear G init (recordsOf (s.history ++ [(c, .rejected call)])) s.value
      rw [recordsOf_append]
      exact h.modified (by simp [execute, hguard])
  | @publish call value hphase =>
      have hc : s.modifier = some c :=
        (hserialized.modifier c).mp (by simp [hphase, Modifying])
      obtain ⟨_, _, before, _, _, hprogress⟩ := hserialized.serial
      simp only [State.Progresses, hc, hphase, Progress] at hprogress
      obtain ⟨hvalue, hexecute⟩ := hprogress
      change Linear G init (recordsOf (s.history ++ [(c, .published call value)])) value
      rw [recordsOf_append]
      exact h.modified (hvalue ▸ hexecute)
  | @copy call hphase =>
      change Linear G init (recordsOf (s.history ++ [(c, .observed call s.value)])) s.value
      rw [recordsOf_append]
      exact h.copied
  | acquireModify | releaseModify | respond =>
      change Linear G init (recordsOf (s.history ++ [_])) s.value
      rw [recordsOf_append]
      exact (List.append_nil (recordsOf s.history)).symm ▸ h
  | accept | compute | acquireExclusive | releaseExclusive | acquireShared
  | releaseShared =>
      exact h

/-- **Every run is linear**: its calls take effect one after the other. -/
theorem linear_of_steps
    {init : V}
    {program : C → List (W ⊕ R)}
    (hs : Steps G (initial init program) s) :
    Linear G init (recordsOf s.history) s.value ∧ ∀ c, Recorded program s c := by
  induction hs with
  | refl =>
      exact ⟨.nil, fun _ => ⟨rfl, rfl⟩⟩
  | tail hs hstep ih =>
      obtain ⟨c, hstep⟩ := hstep
      exact ⟨ih.1.step (serialized_of_steps hs) hstep, fun d => (ih.2 d).step hstep⟩

end Linear

end Register
end Lib
end AgencyNode
