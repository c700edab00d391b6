import Mathlib.Data.List.Basic
import Mathlib.Logic.Function.Basic
import Mathlib.Logic.Relation

/-!
# A register behind two locks

Clients share a register.  A modifying call holds the modify mutex from its
first to its last step: it tests the register, computes a new value from it,
and publishes the value while it holds the value mutex exclusively.  A reading
call copies the register while it holds the value mutex shared.  Testing and
computing read the register without the value mutex.

A `Register` says what the calls compute; a call that does not return has no
step.  `Step` is one atomic step of one client and the clients may be
interleaved in any way.  The history is a ghost variable that nothing reads.

The main result is `Serialized`: what the modifying calls have published and
returned is what they publish and return when they are executed one after the
other, in the order in which they acquired the modify mutex, and a reading call
sees the value that was published last when it made its copy.
-/

namespace AgencyNode
namespace Lib

universe u v w x y

/-- The calls of a register with values `V`: what they test, compute and answer. -/
structure Register (V : Type u) (W : Type v) (R : Type w) (A : Type x) where
  /-- The test a modifying call makes first. -/
  guard : W → V → Option Bool
  /-- The value it publishes if the test succeeds. -/
  update : W → V → Option V
  /-- The answer a reading call gives for its copy of the register. -/
  answer : R → V → Option A

namespace Register

/-- What a client is about to do. -/
inductive Phase (V : Type u) (W : Type v) (R : Type w) where
  | idle
  /-- Holds the modify mutex, about to test the register. -/
  | testing (call : W)
  /-- Holds the modify mutex, about to compute the new value. -/
  | computing (call : W)
  /-- Holds the modify mutex, about to acquire the value mutex exclusively. -/
  | computed (call : W) (value : V)
  /-- Holds both mutexes, about to write the register. -/
  | publishing (call : W) (value : V)
  /-- Holds both mutexes, about to release the value mutex. -/
  | published (call : W) (value : V)
  /-- Holds the modify mutex, about to release it and to return. -/
  | finishing (call : W) (result : Option V)
  /-- Holds the value mutex shared, about to copy the register. -/
  | reading (call : R)
  /-- Holds the value mutex shared, about to release it. -/
  | copied (call : R) (value : V)
  /-- Holds no mutex, about to return. -/
  | answering (call : R) (value : V)

/-- What happens in a run, as far as the results speak about it. -/
inductive Event (V : Type u) (W : Type v) (R : Type w) (A : Type x) where
  /-- The modify mutex has been acquired. -/
  | acquired (call : W)
  | rejected (call : W)
  | published (call : W) (value : V)
  | returned (call : W) (result : Option V)
  /-- The register has been copied. -/
  | observed (call : R) (value : V)
  | answered (call : R) (value : V) (answer : A)

/-- The register, its mutexes, the clients and the history. -/
structure State (C : Type y) (V : Type u) (W : Type v) (R : Type w) (A : Type x) where
  value : V
  /-- The holder of the modify mutex. -/
  modifier : Option C
  /-- The exclusive holder of the value mutex. -/
  writer : Option C
  /-- The shared holders of the value mutex. -/
  readers : C → Prop
  phase : C → Phase V W R
  /-- The calls a client has yet to make. -/
  program : C → List (W ⊕ R)
  history : List (C × Event V W R A)

variable {C : Type y} {V : Type u} {W : Type v} {R : Type w} {A : Type x}

/-- The state before the first call. -/
def initial (value : V) (program : C → List (W ⊕ R)) : State C V W R A where
  value := value
  modifier := none
  writer := none
  readers := fun _ => False
  phase := fun _ => .idle
  program := program
  history := []

section Steps

variable [DecidableEq C]

namespace State

/-- The client enters a phase. -/
def enter (s : State C V W R A) (c : C) (p : Phase V W R) : State C V W R A :=
  { s with phase := Function.update s.phase c p }

/-- The client starts its next call. -/
def pop (s : State C V W R A) (c : C) (rest : List (W ⊕ R)) : State C V W R A :=
  { s with program := Function.update s.program c rest }

/-- Add an event to the history. -/
def emit (s : State C V W R A) (c : C) (e : Event V W R A) : State C V W R A :=
  { s with history := s.history ++ [(c, e)] }

end State

variable (G : Register V W R A)

/-- One atomic step of the client `c`. -/
inductive Step (c : C) : State C V W R A → State C V W R A → Prop
  | acquireModify {s : State C V W R A} {call : W} {rest : List (W ⊕ R)} :
      s.phase c = .idle → s.program c = .inl call :: rest → s.modifier = none →
      Step c s (({ s with modifier := some c }.pop c rest).enter c
        (.testing call) |>.emit c (.acquired call))
  | accept {s : State C V W R A} {call : W} :
      s.phase c = .testing call → G.guard call s.value = some true →
      Step c s (s.enter c (.computing call))
  | reject {s : State C V W R A} {call : W} :
      s.phase c = .testing call → G.guard call s.value = some false →
      Step c s ((s.enter c (.finishing call none)).emit c (.rejected call))
  | compute {s : State C V W R A} {call : W} {value : V} :
      s.phase c = .computing call → G.update call s.value = some value →
      Step c s (s.enter c (.computed call value))
  | acquireExclusive {s : State C V W R A} {call : W} {value : V} :
      s.phase c = .computed call value → s.writer = none →
      (∀ d, ¬ s.readers d) →
      Step c s ({ s with writer := some c }.enter c (.publishing call value))
  | publish {s : State C V W R A} {call : W} {value : V} :
      s.phase c = .publishing call value →
      Step c s (({ s with value := value }.enter c (.published call value)).emit c
        (.published call value))
  | releaseExclusive {s : State C V W R A} {call : W} {value : V} :
      s.phase c = .published call value →
      Step c s ({ s with writer := none }.enter c (.finishing call (some value)))
  | releaseModify {s : State C V W R A} {call : W} {result : Option V} :
      s.phase c = .finishing call result →
      Step c s (({ s with modifier := none }.enter c .idle).emit c
        (.returned call result))
  | acquireShared {s : State C V W R A} {call : R} {rest : List (W ⊕ R)} :
      s.phase c = .idle → s.program c = .inr call :: rest → s.writer = none →
      Step c s (({ s with readers := fun d => d = c ∨ s.readers d }.pop c rest).enter
        c (.reading call))
  | copy {s : State C V W R A} {call : R} :
      s.phase c = .reading call →
      Step c s ((s.enter c (.copied call s.value)).emit c (.observed call s.value))
  | releaseShared {s : State C V W R A} {call : R} {value : V} :
      s.phase c = .copied call value →
      Step c s ({ s with readers := fun d => d ≠ c ∧ s.readers d }.enter c
        (.answering call value))
  | respond {s : State C V W R A} {call : R} {value : V} {a : A} :
      s.phase c = .answering call value → G.answer call value = some a →
      Step c s ((s.enter c .idle).emit c (.answered call value a))

/-- Any number of steps of any clients. -/
def Steps : State C V W R A → State C V W R A → Prop :=
  Relation.ReflTransGen (fun s s' => ∃ c, Step G c s s')

end Steps

/-! ### Serial execution -/

variable (G : Register V W R A)

/-- One modifying call with the register to itself: the new value and the result. -/
def execute (call : W) (value : V) : Option (V × Option V) :=
  match G.guard call value with
  | none => none
  | some false => some (value, none)
  | some true => (G.update call value).map fun value' => (value', some value')

/-- What a modifying call decides, as an event. -/
def decision (call : W) : Option V → Event V W R A
  | none => .rejected call
  | some value => .published call value

/--
Executing the calls of the log one after the other leads from `init` to `value`
and causes these events.
-/
inductive Serial (init : V) :
    List (C × W) → List (C × Event V W R A) → V → Prop
  | nil : Serial init [] [] init
  | call {log : List (C × W)} {events : List (C × Event V W R A)}
      {value value' : V} {c : C} {w : W} {result : Option V} :
      Serial init log events value → G.execute w value = some (value', result) →
      Serial init (log ++ [(c, w)])
        (events ++ [(c, .acquired w), (c, decision w result),
          (c, .returned w result)]) value'

/-- The modifying calls in the order in which they acquired the modify mutex. -/
def acquiredOf : List (C × Event V W R A) → List (C × W) :=
  List.filterMap fun e =>
    match e.2 with
    | .acquired call => some (e.1, call)
    | _ => none

/-- The values published, in order. -/
def publishedOf : List (C × Event V W R A) → List V :=
  List.filterMap fun e =>
    match e.2 with
    | .published _ value => some value
    | _ => none

/-- What the modifying calls have returned, in order. -/
def returnedOf : List (C × Event V W R A) → List (C × Option V) :=
  List.filterMap fun e =>
    match e.2 with
    | .returned _ result => some (e.1, result)
    | _ => none

/-- The events of the modifying calls. -/
def modifyingOf : List (C × Event V W R A) → List (C × Event V W R A) :=
  List.filter fun e =>
    match e.2 with
    | .observed _ _ => false
    | .answered _ _ _ => false
    | _ => true

section Copies

variable [DecidableEq C] (c : C)

/-- The copies a client has made, in order. -/
def observedOf : List (C × Event V W R A) → List (R × V) :=
  List.filterMap fun e =>
    match e.2 with
    | .observed call value => if e.1 = c then some (call, value) else none
    | _ => none

/-- The copies a client has answered from, in order. -/
def answeredOf : List (C × Event V W R A) → List (R × V) :=
  List.filterMap fun e =>
    match e.2 with
    | .answered call value _ => if e.1 = c then some (call, value) else none
    | _ => none

end Copies

/-- The events of the call that holds the modify mutex, so far. -/
def pendingEvents (c : C) : Phase V W R → List (C × Event V W R A)
  | .testing call => [(c, .acquired call)]
  | .computing call => [(c, .acquired call)]
  | .computed call _ => [(c, .acquired call)]
  | .publishing call _ => [(c, .acquired call)]
  | .published call value => [(c, .acquired call), (c, .published call value)]
  | .finishing call result => [(c, .acquired call), (c, decision call result)]
  | _ => []

/-- A copy that has not been answered from yet. -/
def pendingCopy : Phase V W R → List (R × V)
  | .copied call value => [(call, value)]
  | .answering call value => [(call, value)]
  | _ => []

/-- The client holds the modify mutex. -/
def Modifying : Phase V W R → Prop
  | .testing _ => True
  | .computing _ => True
  | .computed _ _ => True
  | .publishing _ _ => True
  | .published _ _ => True
  | .finishing _ _ => True
  | _ => False

/-- The client holds the value mutex exclusively. -/
def Writing : Phase V W R → Prop
  | .publishing _ _ => True
  | .published _ _ => True
  | _ => False

/-- The client holds the value mutex shared. -/
def Reading : Phase V W R → Prop
  | .reading _ => True
  | .copied _ _ => True
  | _ => False

/--
Relates the calls executed so far to the call that holds the modify mutex.
`before` is the value when that call acquired the mutex.
-/
def Progress (before value : V) : Phase V W R → Prop
  | .testing _ => value = before
  | .computing call => value = before ∧ G.guard call before = some true
  | .computed call new =>
      value = before ∧ G.execute call before = some (new, some new)
  | .publishing call new =>
      value = before ∧ G.execute call before = some (new, some new)
  | .published call new =>
      value = new ∧ G.execute call before = some (new, some new)
  | .finishing call result => G.execute call before = some (value, result)
  | _ => False

/-! ### Projections of the history -/

section Projections

variable (h : List (C × Event V W R A))

theorem modifyingOf_append
    (h' : List (C × Event V W R A)) :
    modifyingOf (h ++ h') = modifyingOf h ++ modifyingOf h' := by
  exact List.filter_append ..

theorem acquiredOf_append
    (h' : List (C × Event V W R A)) :
    acquiredOf (h ++ h') = acquiredOf h ++ acquiredOf h' := by
  exact List.filterMap_append ..

theorem publishedOf_append
    (h' : List (C × Event V W R A)) :
    publishedOf (h ++ h') = publishedOf h ++ publishedOf h' := by
  exact List.filterMap_append ..

theorem returnedOf_append
    (h' : List (C × Event V W R A)) :
    returnedOf (h ++ h') = returnedOf h ++ returnedOf h' := by
  exact List.filterMap_append ..

/-- What reads the events of the modifying calls only. -/
theorem filterMap_modifyingOf
    {β : Type*}
    {f : C × Event V W R A → Option β}
    (hobserved : ∀ c call value, f (c, .observed call value) = none)
    (hanswered : ∀ c call value a, f (c, .answered call value a) = none) :
    (modifyingOf h).filterMap f = h.filterMap f := by
  unfold modifyingOf
  rw [List.filterMap_filter]
  apply List.filterMap_congr
  rintro ⟨c, e⟩ _
  cases e with
  | observed call value => exact (hobserved c call value).symm
  | answered call value a => exact (hanswered c call value a).symm
  | _ => rfl

/-- The modifying calls acquire and publish by their own events only. -/
theorem acquiredOf_modifyingOf :
    acquiredOf (modifyingOf h) = acquiredOf h :=
  filterMap_modifyingOf h (fun _ _ _ => rfl) (fun _ _ _ _ => rfl)

theorem publishedOf_modifyingOf :
    publishedOf (modifyingOf h) = publishedOf h :=
  filterMap_modifyingOf h (fun _ _ _ => rfl) (fun _ _ _ _ => rfl)

theorem returnedOf_modifyingOf :
    returnedOf (modifyingOf h) = returnedOf h :=
  filterMap_modifyingOf h (fun _ _ _ => rfl) (fun _ _ _ _ => rfl)

end Projections

/-- A serial history acquires the calls of its log. -/
theorem Serial.acquiredOf
    {init value : V}
    {log : List (C × W)}
    {events : List (C × Event V W R A)}
    (h : Serial G init log events value) :
    Register.acquiredOf events = log := by
  induction h with
  | nil =>
      rfl
  | @call log events value value' c w result _ _ ih =>
      rw [acquiredOf_append, ih]
      cases result <;> rfl

/-! ### The mutexes -/

variable {G}
variable {s s' : State C V W R A}

/-- The modify mutex has the one holder it names. -/
def ModifierHolds (s : State C V W R A) : Prop :=
  ∀ c, Modifying (s.phase c) ↔ s.modifier = some c

/-- The value mutex has the holders it names, one writer or any readers. -/
structure ValueMutexHolds (s : State C V W R A) : Prop where
  writer : ∀ c, Writing (s.phase c) ↔ s.writer = some c
  readers : ∀ c, Reading (s.phase c) ↔ s.readers c
  exclusive : ∀ c, s.writer = some c → ∀ d, ¬ s.readers d

theorem modifierHolds_initial
    (value : V)
    (program : C → List (W ⊕ R)) :
    ModifierHolds (initial value program : State C V W R A) := by
  intro c
  simp [initial, Modifying]

theorem valueMutexHolds_initial
    (value : V)
    (program : C → List (W ⊕ R)) :
    ValueMutexHolds (initial value program : State C V W R A) := by
  constructor <;> simp [initial, Writing, Reading]

/-! ### The modifying calls -/

variable (G)

/-- The events of the holder of the modify mutex, so far. -/
def State.pending (s : State C V W R A) : List (C × Event V W R A) :=
  match s.modifier with
  | none => []
  | some c => pendingEvents c (s.phase c)

/-- How far the holder of the modify mutex has brought the value. -/
def State.Progresses (s : State C V W R A) (before : V) : Prop :=
  match s.modifier with
  | none => s.value = before
  | some c => Progress G before s.value (s.phase c)

/-- The history of the modifying calls is serial, up to the pending call. -/
def SerialSoFar (init : V) (s : State C V W R A) : Prop :=
  ∃ log events before, Serial G init log events before ∧
    modifyingOf s.history = events ++ s.pending ∧ s.Progresses G before

variable {G}

theorem serialSoFar_initial
    (value : V)
    (program : C → List (W ⊕ R)) :
    SerialSoFar G value (initial value program : State C V W R A) := by
  exact ⟨[], [], value, .nil, rfl, rfl⟩

/-- A step of a reading call leaves the modifying calls alone. -/
theorem SerialSoFar.frame
    {init : V}
    (h : SerialSoFar G init s)
    (hmodifier : s'.modifier = s.modifier)
    (hvalue : s'.value = s.value)
    (hphase : ∀ c, s.modifier = some c → s'.phase c = s.phase c)
    (hhistory : modifyingOf s'.history = modifyingOf s.history) :
    SerialSoFar G init s' := by
  obtain ⟨log, events, before, hserial, hevents, hprogress⟩ := h
  refine ⟨log, events, before, hserial, ?_, ?_⟩
  · rw [hhistory, hevents]
    unfold State.pending
    rw [hmodifier]
    cases hc : s.modifier with
    | none => rfl
    | some c => simp only [hphase c hc]
  · unfold State.Progresses at hprogress ⊢
    rw [hmodifier, hvalue]
    cases hc : s.modifier with
    | none => simpa only [hc] using hprogress
    | some c => simpa only [hc, hphase c hc] using hprogress

/-- A step of the holder of the modify mutex, before it releases it. -/
theorem SerialSoFar.advance
    {init : V}
    (h : SerialSoFar G init s)
    (c : C)
    (new : List (C × Event V W R A))
    (hmodifier : s.modifier = some c)
    (hmodifier' : s'.modifier = some c)
    (hhistory : modifyingOf s'.history = modifyingOf s.history ++ new)
    (hpending : pendingEvents c (s'.phase c) = pendingEvents c (s.phase c) ++ new)
    (hprogress : ∀ before, Progress G before s.value (s.phase c) →
      Progress G before s'.value (s'.phase c)) :
    SerialSoFar G init s' := by
  obtain ⟨log, events, before, hserial, hevents, hp⟩ := h
  refine ⟨log, events, before, hserial, ?_, ?_⟩
  · simp only [State.pending, hmodifier, hmodifier'] at hevents ⊢
    rw [hhistory, hevents, hpending, List.append_assoc]
  · simp only [State.Progresses, hmodifier, hmodifier'] at hp ⊢
    exact hprogress before hp

/--
The history of executing `done` one after the other, except that the last call
may not have returned, and of `pending`, which holds the mutex but has not
decided.
-/
structure Decided
    (G : Register V W R A)
    (init value : V)
    (history : List (C × Event V W R A))
    (done pending : List (C × W))
    (events : List (C × Event V W R A)) : Prop where
  serial : Serial G init done events value
  acquired : acquiredOf history = done ++ pending
  published : publishedOf history = publishedOf events
  returned : returnedOf history <+: returnedOf events
  pending_le : pending.length ≤ 1
  unreturned_le : (returnedOf events).length ≤ (returnedOf history).length + 1

section Decided

variable {init value value' : V} {log : List (C × W)}
variable {events : List (C × Event V W R A)}

theorem Serial.decided
    (h : Serial G init log events value) :
    Decided G init value events log [] events where
  serial := h
  acquired := by rw [h.acquiredOf, List.append_nil]
  published := rfl
  returned := List.prefix_rfl
  pending_le := by simp
  unreturned_le := by omega

/-- A call that has not decided has changed nothing. -/
theorem Serial.decided_acquired
    (h : Serial G init log events value)
    (c : C)
    (call : W) :
    Decided G init value (events ++ [(c, .acquired call)]) log [(c, call)]
      events where
  serial := h
  acquired := by
    rw [acquiredOf_append, h.acquiredOf]
    rfl
  published := by
    rw [publishedOf_append]
    exact List.append_nil _
  returned := by
    rw [returnedOf_append]
    simp [returnedOf]
  pending_le := by simp
  unreturned_le := by
    rw [returnedOf_append, List.length_append]
    omega

/-- A call that has decided counts as executed. -/
theorem Serial.decided_decision
    {call : W}
    {result : Option V}
    (h : Serial G init log events value)
    (c : C)
    (hexecute : G.execute call value = some (value', result)) :
    ∃ events', Decided G init value'
      (events ++ [(c, .acquired call), (c, decision call result)])
      (log ++ [(c, call)]) [] events' := by
  refine ⟨_, h.call hexecute, ?_, ?_, ?_, by simp, ?_⟩
  · rw [acquiredOf_append, h.acquiredOf, List.append_nil]
    cases result <;> rfl
  · rw [publishedOf_append, publishedOf_append]
    cases result <;> rfl
  · rw [returnedOf_append, returnedOf_append]
    cases result <;> simp [returnedOf, decision]
  · rw [returnedOf_append, returnedOf_append]
    cases result <;> simp [returnedOf, decision]

end Decided

/--
Counting a call as executed once it has decided, at most one call has acquired
the modify mutex without being executed, and at most one has been executed
without having returned.
-/
theorem SerialSoFar.decided
    {init : V}
    (h : SerialSoFar G init s) :
    ∃ done pending events,
      Decided G init s.value s.history done pending events ∧
        (s.modifier = none →
          pending = [] ∧ returnedOf s.history = returnedOf events) := by
  obtain ⟨log, events, before, hserial, hevents, hprogress⟩ := h
  have hhistory : ∀ {done pending events'},
      Decided G init s.value (events ++ s.pending) done pending events' →
        Decided G init s.value s.history done pending events' := by
    intro done pending events' hdecided
    rw [← hevents] at hdecided
    obtain ⟨hserial, hacquired, hpublished, hreturned, hle, hle'⟩ := hdecided
    rw [acquiredOf_modifyingOf] at hacquired
    rw [publishedOf_modifyingOf] at hpublished
    rw [returnedOf_modifyingOf] at hreturned hle'
    exact ⟨hserial, hacquired, hpublished, hreturned, hle, hle'⟩
  cases hmodifier : s.modifier with
  | none =>
      have hvalue : s.value = before := by
        simpa [State.Progresses, hmodifier] using hprogress
      have hpending : s.pending = [] := by
        simp [State.pending, hmodifier]
      rw [← hvalue] at hserial
      refine ⟨log, [], events, hhistory ?_, ?_⟩
      · rw [hpending, List.append_nil]
        exact hserial.decided
      · intro _
        refine ⟨rfl, ?_⟩
        rw [← returnedOf_modifyingOf, hevents, hpending, List.append_nil]
  | some c =>
      simp only [State.Progresses, hmodifier] at hprogress
      have hundecided : ∀ call, s.pending = [(c, .acquired call)] →
          s.value = before →
            ∃ done pending events',
              Decided G init s.value s.history done pending events' := by
        intro call hpending hvalue
        refine ⟨log, [(c, call)], events, hhistory ?_⟩
        rw [hpending, hvalue]
        exact hserial.decided_acquired c call
      have hdecided : ∀ call result,
          s.pending = [(c, .acquired call), (c, decision call result)] →
          G.execute call before = some (s.value, result) →
            ∃ done pending events',
              Decided G init s.value s.history done pending events' := by
        intro call result hpending hexecute
        obtain ⟨events', h⟩ := hserial.decided_decision c hexecute
        refine ⟨log ++ [(c, call)], [], events', hhistory ?_⟩
        rw [hpending]
        exact h
      have hall : ∃ done pending events',
          Decided G init s.value s.history done pending events' := by
        simp only [State.pending, hmodifier] at hundecided hdecided
        cases hphase : s.phase c with
        | testing call =>
            rw [hphase] at hundecided hprogress
            exact hundecided call rfl hprogress
        | computing call =>
            rw [hphase] at hundecided hprogress
            exact hundecided call rfl hprogress.1
        | computed call value =>
            rw [hphase] at hundecided hprogress
            exact hundecided call rfl hprogress.1
        | publishing call value =>
            rw [hphase] at hundecided hprogress
            exact hundecided call rfl hprogress.1
        | published call value =>
            rw [hphase] at hdecided hprogress
            obtain ⟨hvalue, hexecute⟩ := hprogress
            exact hdecided call (some value) rfl (by rw [hexecute, hvalue])
        | finishing call result =>
            rw [hphase] at hdecided hprogress
            exact hdecided call result rfl hprogress
        | idle | reading | copied | answering =>
            rw [hphase] at hprogress
            exact hprogress.elim
      obtain ⟨done, pending, events', h⟩ := hall
      exact ⟨done, pending, events', h, by rintro ⟨⟩⟩

/-! ### The reading calls -/

/-- The register holds what has been published last. -/
def HoldsLatest (init : V) (s : State C V W R A) : Prop :=
  (init :: publishedOf s.history)[(publishedOf s.history).length]? = some s.value

/-- Every copy is of the value that had been published last when it was made. -/
def CopiesLatest (init : V) (s : State C V W R A) : Prop :=
  ∀ before c call value after,
    s.history = before ++ (c, .observed call value) :: after →
      (init :: publishedOf s.history)[(publishedOf before).length]? = some value

/-- Every answer is from the client's own copy. -/
def AnswersOwnCopy [DecidableEq C] (s : State C V W R A) : Prop :=
  ∀ c, answeredOf c s.history ++ pendingCopy (s.phase c) = observedOf c s.history

/-- Every answer is the answer for the copy. -/
def AnswersCorrectly (G : Register V W R A) (s : State C V W R A) : Prop :=
  ∀ c call value a, (c, Event.answered call value a) ∈ s.history →
    G.answer call value = some a

/-- The calls still to be made and the values on their way to the register. -/
def GoodPhase (allowed : W → Prop) (good : V → Prop) : Phase V W R → Prop
  | .testing call => allowed call
  | .computing call => allowed call
  | .computed _ value => good value
  | .publishing _ value => good value
  | _ => True

/-- Only allowed calls have been and will be made, and all values are good. -/
structure StaysGood
    (allowed : W → Prop)
    (good : V → Prop)
    (s : State C V W R A) : Prop where
  value : good s.value
  published : ∀ v ∈ publishedOf s.history, good v
  acquired : ∀ e ∈ acquiredOf s.history, allowed e.2
  program : ∀ c call, .inl call ∈ s.program c → allowed call
  phase : ∀ c, GoodPhase allowed good (s.phase c)

theorem HoldsLatest.emit
    {init : V}
    {c : C}
    {e : Event V W R A}
    (h : HoldsLatest init s)
    (hhistory : s'.history = s.history ++ [(c, e)])
    (hvalue : (publishedOf [(c, e)] = [] ∧ s'.value = s.value) ∨
      publishedOf [(c, e)] = [s'.value]) :
    HoldsLatest init s' := by
  unfold HoldsLatest at h ⊢
  rw [hhistory, publishedOf_append]
  rcases hvalue with ⟨hnone, hsame⟩ | hone
  · rw [hnone, List.append_nil, hsame]
    exact h
  · rw [hone]
    simp

/-- The version a copy was made of is not overwritten. -/
theorem CopiesLatest.emit
    {init : V}
    {c : C}
    {e : Event V W R A}
    (h : CopiesLatest init s)
    (hlatest : HoldsLatest init s)
    (hhistory : s'.history = s.history ++ [(c, e)])
    (hcopy : ∀ call value, e = .observed call value → value = s.value) :
    CopiesLatest init s' := by
  intro before d call value after hsplit
  have hgrow : ∀ (k : Nat) x, (init :: publishedOf s.history)[k]? = some x →
      (init :: publishedOf s'.history)[k]? = some x := by
    intro k x hx
    obtain ⟨hlt, _⟩ := List.getElem?_eq_some_iff.mp hx
    rw [hhistory, publishedOf_append, ← List.cons_append,
      List.getElem?_append_left hlt, hx]
  apply hgrow
  rw [hhistory] at hsplit
  rcases List.eq_nil_or_concat' after with rfl | ⟨after', last, rfl⟩
  · obtain ⟨hbefore, hlast⟩ := List.append_inj' hsplit rfl
    cases hlast
    rw [← hbefore, hcopy call value rfl]
    exact hlatest
  · rw [← List.cons_append, ← List.append_assoc] at hsplit
    obtain ⟨hbefore, _⟩ := List.append_inj' hsplit rfl
    exact h before d call value after' hbefore

/-! ### The steps -/

variable [DecidableEq C] {c : C}

theorem Step.phase_of_ne
    (hstep : Step G c s s')
    {d : C}
    (hdc : d ≠ c) :
    s'.phase d = s.phase d := by
  cases hstep <;>
    simp [State.enter, State.emit, State.pop, Function.update_of_ne hdc]

/-- What a step of `c` does to a mutex: it takes it, gives it back or leaves it. -/
inductive Handover (c : C) (inside inside' : Prop) (holder holder' : Option C) : Prop
  | acquire
      (hfree : holder = none)
      (hin : inside')
      (hholder : holder' = some c)
  | release
      (hin : inside)
      (hout : ¬ inside')
      (hholder : holder' = none)
  | keep
      (hin : inside' ↔ inside)
      (hholder : holder' = holder)

omit [DecidableEq C] in
/-- The mutex keeps its one holder. -/
theorem Handover.holds
    {P P' : C → Prop}
    {holder holder' : Option C}
    (h : Handover c (P c) (P' c) holder holder')
    (hother : ∀ d, d ≠ c → (P' d ↔ P d))
    (hholds : ∀ d, P d ↔ holder = some d)
    (d : C) :
    P' d ↔ holder' = some d := by
  by_cases hdc : d = c
  · subst hdc
    cases h with
    | acquire _ hin hholder => simp [hin, hholder]
    | release _ hout hholder => simp [hout, hholder]
    | keep hin hholder => rw [hin, hholder, hholds]
  · have hcd : ¬ c = d := fun h => hdc h.symm
    rw [hother d hdc, hholds d]
    cases h with
    | acquire hfree _ hholder => simp [hfree, hholder, hcd]
    | release hin _ hholder => simp [(hholds c).mp hin, hholder, hcd]
    | keep _ hholder => rw [hholder]

/-- The modify mutex is held from the acquisition of a call to its return. -/
theorem Step.modifier
    (hstep : Step G c s s') :
    Handover c (Modifying (s.phase c)) (Modifying (s'.phase c)) s.modifier
      s'.modifier := by
  cases hstep with
  | acquireModify hphase _ hfree =>
      refine .acquire hfree ?_ rfl
      simp [State.enter, State.emit, Modifying]
  | releaseModify hphase =>
      refine .release ?_ ?_ rfl
      · simp [hphase, Modifying]
      · simp [State.enter, State.emit, Modifying]
  | accept hphase _ | reject hphase _ | compute hphase _
  | acquireExclusive hphase _ _ | publish hphase | releaseExclusive hphase
  | acquireShared hphase _ _ | copy hphase | releaseShared hphase
  | respond hphase _ =>
      refine .keep ?_ rfl
      simp [hphase, State.enter, State.emit, Modifying]

/-- The value mutex is held exclusively around the publication. -/
theorem Step.writer
    (hstep : Step G c s s') :
    Handover c (Writing (s.phase c)) (Writing (s'.phase c)) s.writer s'.writer := by
  cases hstep with
  | acquireExclusive hphase hfree _ =>
      refine .acquire hfree ?_ rfl
      simp [State.enter, Writing]
  | releaseExclusive hphase =>
      refine .release ?_ ?_ rfl
      · simp [hphase, Writing]
      · simp [State.enter, Writing]
  | accept hphase _ | reject hphase _ | compute hphase _
  | acquireModify hphase _ _ | publish hphase | releaseModify hphase
  | acquireShared hphase _ _ | copy hphase | releaseShared hphase
  | respond hphase _ =>
      refine .keep ?_ rfl
      simp [hphase, State.enter, State.emit, Writing]

/-- A reader is one from its acquisition to its release, others stay what they are. -/
theorem Step.readers
    (hstep : Step G c s s') :
    (∀ d, d ≠ c → (s'.readers d ↔ s.readers d)) ∧
      ((s.readers c ↔ Reading (s.phase c)) →
        (s'.readers c ↔ Reading (s'.phase c))) := by
  cases hstep with
  | acquireShared hphase _ _ =>
      constructor
      · intro d hdc
        simp [State.enter, State.pop, hdc]
      · simp [State.enter, State.pop, Reading]
  | releaseShared hphase =>
      constructor
      · intro d hdc
        simp [State.enter, hdc]
      · simp [State.enter, Reading]
  | accept hphase _ | reject hphase _ | compute hphase _
  | acquireModify hphase _ _ | acquireExclusive hphase _ _ | publish hphase
  | releaseExclusive hphase | releaseModify hphase | copy hphase
  | respond hphase _ =>
      refine ⟨fun _ _ => Iff.rfl, ?_⟩
      simp [hphase, State.enter, State.emit, State.pop, Reading]

theorem ModifierHolds.step
    (h : ModifierHolds s)
    (hstep : Step G c s s') :
    ModifierHolds s' := by
  apply hstep.modifier.holds (P := fun d => Modifying (s.phase d))
  · intro d hdc
    rw [hstep.phase_of_ne hdc]
  · exact h

theorem ValueMutexHolds.step
    (h : ValueMutexHolds s)
    (hstep : Step G c s s') :
    ValueMutexHolds s' := by
  refine ⟨?_, ?_, ?_⟩
  · apply hstep.writer.holds (P := fun d => Writing (s.phase d))
    · intro d hdc
      rw [hstep.phase_of_ne hdc]
    · exact h.writer
  · intro d
    by_cases hdc : d = c
    · subst hdc
      exact (hstep.readers.2 (h.readers d).symm).symm
    · rw [hstep.phase_of_ne hdc, hstep.readers.1 d hdc]
      exact h.readers d
  · have hexclusive := h.exclusive
    cases hstep <;>
      simp_all [State.enter, State.emit, State.pop]

theorem SerialSoFar.step
    {init : V}
    (h : SerialSoFar G init s)
    (hmutex : ModifierHolds s)
    (hstep : Step G c s s') :
    SerialSoFar G init s' := by
  have hholds := hmutex c
  -- A reading client does not hold the modify mutex.
  have hother : ¬ Modifying (s.phase c) →
      ∀ d, s.modifier = some d → s'.phase d = s.phase d := by
    intro hc d hd
    refine hstep.phase_of_ne ?_
    rintro rfl
    exact hc ((hmutex d).mpr hd)
  cases hstep with
  | @acquireModify call rest hphase hprogram hfree =>
      obtain ⟨log, events, before, hserial, hevents, hprogress⟩ := h
      refine ⟨log, events, before, hserial, ?_, ?_⟩
      · simp only [State.pending, hfree, List.append_nil] at hevents
        change modifyingOf (s.history ++ [(c, .acquired call)]) = _
        rw [modifyingOf_append, hevents]
        simp [State.pending, State.enter, State.emit, State.pop, pendingEvents,
          modifyingOf]
      · simp only [State.Progresses, hfree] at hprogress
        simp [State.Progresses, State.enter, State.emit, State.pop, Progress,
          hprogress]
  | accept hphase hguard =>
      have hc : s.modifier = some c := hholds.mp (by simp [hphase, Modifying])
      refine h.advance c [] hc hc (List.append_nil _).symm ?_ ?_
      · simp [State.enter, hphase, pendingEvents]
      · intro before hbefore
        rw [hphase] at hbefore
        have hbefore : s.value = before := hbefore
        simpa [State.enter, Progress, ← hbefore] using hguard
  | @reject call hphase hguard =>
      have hc : s.modifier = some c := hholds.mp (by simp [hphase, Modifying])
      refine h.advance c [(c, .rejected call)] hc hc (modifyingOf_append _ _) ?_ ?_
      · simp [State.enter, State.emit, hphase, pendingEvents, decision]
      · intro before hbefore
        rw [hphase] at hbefore
        have hbefore : s.value = before := hbefore
        simp [State.enter, State.emit, Progress, execute, ← hbefore, hguard]
  | compute hphase hupdate =>
      have hc : s.modifier = some c := hholds.mp (by simp [hphase, Modifying])
      refine h.advance c [] hc hc (List.append_nil _).symm ?_ ?_
      · simp [State.enter, hphase, pendingEvents]
      · intro before hbefore
        rw [hphase] at hbefore
        obtain ⟨hvalue, hguard⟩ := hbefore
        rw [hvalue] at hupdate
        simp [State.enter, Progress, hvalue, execute, hguard, hupdate]
  | acquireExclusive hphase hwriter hreaders =>
      have hc : s.modifier = some c := hholds.mp (by simp [hphase, Modifying])
      refine h.advance c [] hc hc (List.append_nil _).symm ?_ ?_
      · simp [State.enter, hphase, pendingEvents]
      · intro before hbefore
        rw [hphase] at hbefore
        simpa [State.enter, Progress] using hbefore
  | @publish call value hphase =>
      have hc : s.modifier = some c := hholds.mp (by simp [hphase, Modifying])
      refine h.advance c [(c, .published call value)] hc hc
        (modifyingOf_append _ _) ?_ ?_
      · simp [State.enter, State.emit, hphase, pendingEvents]
      · intro before hbefore
        rw [hphase] at hbefore
        obtain ⟨_, hexecute⟩ := hbefore
        simpa [State.enter, State.emit, Progress] using hexecute
  | releaseExclusive hphase =>
      have hc : s.modifier = some c := hholds.mp (by simp [hphase, Modifying])
      refine h.advance c [] hc hc (List.append_nil _).symm ?_ ?_
      · simp [State.enter, hphase, pendingEvents, decision]
      · intro before hbefore
        rw [hphase] at hbefore
        obtain ⟨hvalue, hexecute⟩ := hbefore
        simpa [State.enter, Progress, hvalue] using hexecute
  | @releaseModify call result hphase =>
      have hc : s.modifier = some c := hholds.mp (by simp [hphase, Modifying])
      obtain ⟨log, events, before, hserial, hevents, hprogress⟩ := h
      simp only [State.Progresses, hc, hphase] at hprogress
      refine ⟨_, _, s.value, hserial.call (c := c) hprogress, ?_, ?_⟩
      · simp only [State.pending, hc, hphase, pendingEvents] at hevents
        change modifyingOf (s.history ++ [(c, .returned call result)]) = _
        rw [modifyingOf_append, hevents]
        simp [State.pending, State.enter, State.emit, modifyingOf]
      · simp [State.Progresses, State.enter, State.emit]
  | acquireShared hphase hprogram hwriter =>
      exact h.frame rfl rfl (hother (by simp [hphase, Modifying])) rfl
  | copy hphase =>
      refine h.frame rfl rfl (hother (by simp [hphase, Modifying])) ?_
      simp [State.enter, State.emit, modifyingOf]
  | releaseShared hphase =>
      exact h.frame rfl rfl (hother (by simp [hphase, Modifying])) rfl
  | respond hphase hanswer =>
      refine h.frame rfl rfl (hother (by simp [hphase, Modifying])) ?_
      simp [State.enter, State.emit, modifyingOf]

theorem HoldsLatest.step
    {init : V}
    (h : HoldsLatest init s)
    (hstep : Step G c s s') :
    HoldsLatest init s' := by
  cases hstep with
  | accept | compute | acquireExclusive | releaseExclusive | acquireShared
  | releaseShared =>
      exact h
  | @publish call value hphase =>
      exact h.emit (e := .published call value) rfl (Or.inr rfl)
  | acquireModify | reject | releaseModify | copy | respond =>
      exact h.emit rfl (Or.inl ⟨rfl, rfl⟩)

theorem CopiesLatest.step
    {init : V}
    (h : CopiesLatest init s)
    (hlatest : HoldsLatest init s)
    (hstep : Step G c s s') :
    CopiesLatest init s' := by
  cases hstep with
  | accept | compute | acquireExclusive | releaseExclusive | acquireShared
  | releaseShared =>
      exact h
  | publish | acquireModify | reject | releaseModify | respond =>
      refine h.emit hlatest rfl ?_
      rintro call value ⟨⟩
  | copy hphase =>
      refine h.emit hlatest rfl ?_
      rintro call value ⟨⟩
      rfl

/-- A step of `c` adds events of `c` only, and a copy is kept until it is answered. -/
theorem Step.copies
    (hstep : Step G c s s') :
    ∃ events, s'.history = s.history ++ events ∧
      (∀ d, d ≠ c → observedOf d events = [] ∧ answeredOf d events = []) ∧
        pendingCopy (s.phase c) ++ observedOf c events =
          answeredOf c events ++ pendingCopy (s'.phase c) := by
  have hown : ∀ (e : Event V W R A) (d : C), d ≠ c →
      observedOf d [(c, e)] = [] ∧ answeredOf d [(c, e)] = [] := by
    intro e d hdc
    have hcd : ¬ c = d := fun h => hdc h.symm
    cases e <;> simp [observedOf, answeredOf, hcd]
  cases hstep with
  | accept hphase _ | compute hphase _ | acquireExclusive hphase _ _
  | releaseExclusive hphase | acquireShared hphase _ _ | releaseShared hphase =>
      refine ⟨[], (List.append_nil _).symm, fun _ _ => ⟨rfl, rfl⟩, ?_⟩
      simp [hphase, State.enter, pendingCopy, observedOf, answeredOf]
  | acquireModify hphase _ _ | reject hphase _ | publish hphase
  | releaseModify hphase | copy hphase | respond hphase _ =>
      refine ⟨[_], rfl, hown _, ?_⟩
      simp [hphase, State.enter, State.emit, pendingCopy, observedOf, answeredOf]

theorem AnswersOwnCopy.step
    (h : AnswersOwnCopy s)
    (hstep : Step G c s s') :
    AnswersOwnCopy s' := by
  intro d
  obtain ⟨events, hhistory, hother, hown⟩ := hstep.copies
  have hobserved : observedOf d s'.history =
      observedOf d s.history ++ observedOf d events := by
    rw [hhistory]
    exact List.filterMap_append ..
  have hanswered : answeredOf d s'.history =
      answeredOf d s.history ++ answeredOf d events := by
    rw [hhistory]
    exact List.filterMap_append ..
  rw [hobserved, hanswered, ← h d]
  by_cases hdc : d = c
  · subst hdc
    rw [List.append_assoc, List.append_assoc, hown]
  · rw [(hother d hdc).1, (hother d hdc).2, hstep.phase_of_ne hdc,
      List.append_nil, List.append_nil]

theorem AnswersCorrectly.step
    (h : AnswersCorrectly G s)
    (hstep : Step G c s s') :
    AnswersCorrectly G s' := by
  intro d call value a hmem
  have hd := h d call value a
  cases hstep with
  | respond hphase hanswer =>
      rcases List.mem_append.mp hmem with hmem | hmem
      · exact hd hmem
      · cases List.mem_singleton.mp hmem
        exact hanswer
  | accept | compute | acquireExclusive | releaseExclusive | acquireShared
  | releaseShared =>
      exact hd hmem
  | publish | acquireModify | reject | releaseModify | copy =>
      rcases List.mem_append.mp hmem with hmem | hmem
      · exact hd hmem
      · cases List.mem_singleton.mp hmem

/-- No call is added to a program. -/
theorem Step.mem_program
    (hstep : Step G c s s')
    {d : C}
    {call : W ⊕ R}
    (hcall : call ∈ s'.program d) :
    call ∈ s.program d := by
  cases hstep with
  | acquireModify _ hprogram _ | acquireShared _ hprogram _ =>
      by_cases hdc : d = c
      · subst hdc
        rw [hprogram]
        apply List.mem_cons_of_mem
        simpa [State.enter, State.emit, State.pop] using hcall
      · simpa [State.enter, State.emit, State.pop, hdc] using hcall
  | _ => exact hcall

/-- What a step publishes is the new value, and what it acquires was to be called. -/
theorem Step.events
    (hstep : Step G c s s') :
    ∃ events, s'.history = s.history ++ events ∧
      (∀ v ∈ publishedOf events, v = s'.value) ∧
        ∀ e ∈ acquiredOf events, .inl e.2 ∈ s.program c := by
  cases hstep with
  | accept | compute | acquireExclusive | releaseExclusive | acquireShared
  | releaseShared =>
      exact ⟨[], (List.append_nil _).symm, by simp [publishedOf], by simp [acquiredOf]⟩
  | @publish call value hpublishing =>
      refine ⟨[_], rfl, ?_, by simp [acquiredOf]⟩
      intro v hv
      exact List.mem_singleton.mp hv
  | @acquireModify call rest hidle hcalls hfree =>
      refine ⟨[_], rfl, by simp [publishedOf], ?_⟩
      intro e he
      rw [List.mem_singleton.mp he, hcalls]
      exact List.mem_cons_self
  | reject | releaseModify | copy | respond =>
      exact ⟨[_], rfl, by simp [publishedOf], by simp [acquiredOf]⟩

theorem StaysGood.step
    {allowed : W → Prop}
    {good : V → Prop}
    (hgood : ∀ call, allowed call → ∀ value value', good value →
      G.update call value = some value' → good value')
    (h : StaysGood allowed good s)
    (hstep : Step G c s s') :
    StaysGood allowed good s' := by
  have hphase : ∀ d, d ≠ c → GoodPhase allowed good (s'.phase d) := by
    intro d hdc
    rw [hstep.phase_of_ne hdc]
    exact h.phase d
  have hc := h.phase c
  have hvalue : good s'.value := by
    cases hstep with
    | publish hpublishing =>
        rw [hpublishing] at hc
        exact hc
    | _ => exact h.value
  obtain ⟨events, hhistory, hpublished, hacquired⟩ := hstep.events
  refine ⟨hvalue, ?_, ?_, ?_, ?_⟩
  · intro v hv
    rw [hhistory, publishedOf_append] at hv
    rcases List.mem_append.mp hv with hold | hnew
    · exact h.published v hold
    · rw [hpublished v hnew]
      exact hvalue
  · intro e he
    rw [hhistory, acquiredOf_append] at he
    rcases List.mem_append.mp he with hold | hnew
    · exact h.acquired e hold
    · exact h.program c e.2 (hacquired e hnew)
  · exact fun d call hcall => h.program d call (hstep.mem_program hcall)
  · intro d
    by_cases hdc : d = c
    · subst hdc
      have hprogram := h.program d
      have hvalue := h.value
      cases hstep with
      | acquireModify hidle hcalls hfree =>
          have := hprogram _ (by rw [hcalls]; exact List.mem_cons_self)
          simpa [State.enter, State.emit, State.pop, GoodPhase] using this
      | compute hcomputing hupdate =>
          rw [hcomputing] at hc
          have := hgood _ hc _ _ hvalue hupdate
          simpa [State.enter, GoodPhase] using this
      | accept hold hguard =>
          rw [hold] at hc
          simpa [State.enter, GoodPhase] using hc
      | acquireExclusive hold hwriter hreaders =>
          rw [hold] at hc
          simpa [State.enter, GoodPhase] using hc
      | reject | publish | releaseExclusive | releaseModify | acquireShared
      | copy | releaseShared | respond =>
          simp [State.enter, State.emit, State.pop, GoodPhase]
    · exact hphase d hdc

/-! ### Runs -/

/-- What holds in every state that a run reaches. -/
structure Serialized (G : Register V W R A) (init : V) (s : State C V W R A) :
    Prop where
  modifier : ModifierHolds s
  valueMutex : ValueMutexHolds s
  serial : SerialSoFar G init s
  latest : HoldsLatest init s
  copies : CopiesLatest init s
  ownCopy : AnswersOwnCopy s
  correct : AnswersCorrectly G s

theorem serialized_initial
    (init : V)
    (program : C → List (W ⊕ R)) :
    Serialized G init (initial init program : State C V W R A) where
  modifier := modifierHolds_initial init program
  valueMutex := valueMutexHolds_initial init program
  serial := serialSoFar_initial init program
  latest := rfl
  copies := by
    intro before c call value after h
    simp [initial] at h
  ownCopy := fun _ => rfl
  correct := by
    intro c call value a h
    simp [initial] at h

theorem Serialized.step
    {init : V}
    (h : Serialized G init s)
    (hstep : Step G c s s') :
    Serialized G init s' where
  modifier := h.modifier.step hstep
  valueMutex := h.valueMutex.step hstep
  serial := h.serial.step h.modifier hstep
  latest := h.latest.step hstep
  copies := h.copies.step h.latest hstep
  ownCopy := h.ownCopy.step hstep
  correct := h.correct.step hstep

/-- **Every run is serialized**, whatever the interleaving. -/
theorem serialized_of_steps
    {init : V}
    {program : C → List (W ⊕ R)}
    (hs : Steps G (initial init program) s) :
    Serialized G init s := by
  induction hs with
  | refl =>
      exact serialized_initial init program
  | tail _ hstep ih =>
      obtain ⟨c, hstep⟩ := hstep
      exact ih.step hstep

/-- **Values stay good** along every run of allowed calls. -/
theorem staysGood_of_steps
    {allowed : W → Prop}
    {good : V → Prop}
    (hgood : ∀ call, allowed call → ∀ value value', good value →
      G.update call value = some value' → good value')
    {init : V}
    {program : C → List (W ⊕ R)}
    (hinit : good init)
    (hprogram : ∀ c call, .inl call ∈ program c → allowed call)
    (hs : Steps G (initial init program) s) :
    StaysGood allowed good s := by
  induction hs with
  | refl =>
      exact ⟨hinit, by simp [initial, publishedOf], by simp [initial, acquiredOf],
        hprogram, fun _ => trivial⟩
  | tail _ hstep ih =>
      obtain ⟨c, hstep⟩ := hstep
      exact ih.step hgood hstep

end Register

end Lib
end AgencyNode
