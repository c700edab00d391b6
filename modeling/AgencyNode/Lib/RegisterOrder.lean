import AgencyNode.Lib.LockedRegister
import Mathlib.Data.List.Induction

/-!
# The order of the calls of a register

Serial execution says that the modifying calls take effect one after the other
in some order.  That order is the program order for the calls of each client,
and a copy is of the value after some of the calls have taken effect.
-/

namespace AgencyNode
namespace Lib
namespace Register

universe u v w x y

variable {C : Type y} {V : Type u} {W : Type v} {R : Type w} {A : Type x}

/-! ### Program order -/

/-- The modifying calls of a program. -/
def modifyingCalls : List (W ⊕ R) → List W :=
  List.filterMap Sum.getLeft?

@[simp] theorem modifyingCalls_inl
    (call : W)
    (rest : List (W ⊕ R)) :
    modifyingCalls (.inl call :: rest) = call :: modifyingCalls rest := by
  rfl

@[simp] theorem modifyingCalls_inr
    (call : R)
    (rest : List (W ⊕ R)) :
    modifyingCalls (.inr call :: rest) = modifyingCalls rest := by
  rfl

theorem mem_modifyingCalls
    {call : W}
    {calls : List (W ⊕ R)} :
    call ∈ modifyingCalls calls ↔ .inl call ∈ calls := by
  simp [modifyingCalls]

/-- The program in which modifying calls are given by their descriptions. -/
def describedProgram
    {W' : Type*}
    (f : W' → W)
    (program : C → List (W' ⊕ R))
    (c : C) : List (W ⊕ R) :=
  (program c).map (Sum.map f id)

theorem modifyingCalls_describedProgram
    {W' : Type*}
    (f : W' → W)
    (program : C → List (W' ⊕ R))
    (c : C) :
    modifyingCalls (describedProgram f program c) =
      (modifyingCalls (program c)).map f := by
  unfold describedProgram modifyingCalls
  rw [List.filterMap_map, List.map_filterMap]
  refine List.filterMap_congr fun call _ => ?_
  cases call <;> rfl

section Order

variable [DecidableEq C]

/-- The calls of one client in a log. -/
def callsOf (c : C) : List (C × W) → List W :=
  List.filterMap fun e => if e.1 = c then some e.2 else none

theorem callsOf_append
    (c : C)
    (log log' : List (C × W)) :
    callsOf c (log ++ log') = callsOf c log ++ callsOf c log' := by
  exact List.filterMap_append ..

theorem mem_callsOf
    {c : C}
    {call : W}
    {log : List (C × W)} :
    call ∈ callsOf c log ↔ (c, call) ∈ log := by
  simp [callsOf]

theorem callsOf_map
    {W' : Type*}
    (f : W' → W)
    (c : C)
    (log : List (C × W')) :
    callsOf c (log.map (Prod.map id f)) = (callsOf c log).map f := by
  simp only [callsOf, List.filterMap_map, List.map_filterMap]
  refine List.filterMap_congr fun e _ => ?_
  by_cases he : e.1 = c <;> simp [he]

/-- The images of calls in program order come from calls in program order. -/
theorem exists_log_of_map
    {W' : Type*}
    {f : W' → W}
    {calls : C → List W'}
    {log : List (C × W)}
    (h : ∀ c, callsOf c log <+: (calls c).map f) :
    ∃ log' : List (C × W'), log = log'.map (Prod.map id f) ∧
      ∀ c, callsOf c log' <+: calls c := by
  induction log using List.reverseRecOn with
  | nil =>
      exact ⟨[], rfl, fun _ => List.nil_prefix⟩
  | append_singleton log e ih =>
      obtain ⟨c, w⟩ := e
      obtain ⟨log', rfl, hlog'⟩ := ih fun d =>
        (List.prefix_append _ _).trans (callsOf_append d log [(c, w)] ▸ h d)
      -- The next call of `c` in program order is the one that `w` comes from.
      obtain ⟨after, hafter⟩ := hlog' c
      have hnext := h c
      rw [callsOf_append, callsOf_map, ← hafter, List.map_append,
        List.prefix_append_right_inj] at hnext
      cases after with
      | nil => simp [callsOf] at hnext
      | cons w' after =>
          have hw : w = f w' := by simpa [callsOf] using hnext
          refine ⟨log' ++ [(c, w')], by simp [hw], ?_⟩
          intro d
          rw [callsOf_append]
          by_cases hcd : c = d
          · subst hcd
            refine ⟨after, ?_⟩
            rw [← hafter]
            simp [callsOf]
          · simpa [callsOf, hcd] using hlog' d

/--
The modifying calls a client has made and the ones it has yet to make are those of
its program, in order.
-/
def InProgramOrder
    (program : C → List (W ⊕ R))
    (s : State C V W R A)
    (c : C) : Prop :=
  callsOf c (acquiredOf s.history) ++ modifyingCalls (s.program c) =
    modifyingCalls (program c)

variable {G : Register V W R A} {s s' : State C V W R A} {c : C}

theorem Step.program_of_ne
    (hstep : Step G c s s')
    {d : C}
    (hdc : d ≠ c) :
    s'.program d = s.program d := by
  cases hstep <;>
    simp [State.enter, State.emit, State.pop, Function.update_of_ne hdc]

/-- A step of `c` acquires for `c` only, and for the call it takes from the program. -/
theorem Step.calls
    (hstep : Step G c s s') :
    ∃ events, s'.history = s.history ++ events ∧
      (∀ d, d ≠ c → callsOf d (acquiredOf events) = []) ∧
      callsOf c (acquiredOf events) ++ modifyingCalls (s'.program c) =
        modifyingCalls (s.program c) := by
  have hown : ∀ (e : Event V W R A) (d : C), d ≠ c →
      callsOf d (acquiredOf [(c, e)]) = [] := by
    intro e d hdc
    have hcd : ¬ c = d := fun h => hdc h.symm
    cases e <;> simp [callsOf, acquiredOf, hcd]
  cases hstep with
  | acquireModify hphase hprogram _ =>
      refine ⟨[_], rfl, hown _, ?_⟩
      simp [hprogram, State.enter, State.emit, State.pop, callsOf, acquiredOf]
  | acquireShared hphase hprogram _ =>
      refine ⟨[], (List.append_nil _).symm, fun _ _ => rfl, ?_⟩
      simp [hprogram, State.enter, State.pop, callsOf, acquiredOf]
  | accept | compute | acquireExclusive | releaseExclusive | releaseShared =>
      refine ⟨[], (List.append_nil _).symm, fun _ _ => rfl, ?_⟩
      simp [State.enter, callsOf, acquiredOf]
  | reject | publish | releaseModify | copy | respond =>
      refine ⟨[_], rfl, hown _, ?_⟩
      simp [State.enter, State.emit, callsOf, acquiredOf]

theorem InProgramOrder.step
    {program : C → List (W ⊕ R)}
    {d : C}
    (h : InProgramOrder program s d)
    (hstep : Step G c s s') :
    InProgramOrder program s' d := by
  obtain ⟨events, hhistory, hother, hcalls⟩ := hstep.calls
  have hacquired : callsOf d (acquiredOf s'.history) =
      callsOf d (acquiredOf s.history) ++ callsOf d (acquiredOf events) := by
    rw [hhistory, acquiredOf_append, callsOf_append]
  unfold InProgramOrder
  by_cases hdc : d = c
  · subst hdc
    rw [hacquired, List.append_assoc, hcalls, h]
  · rw [hacquired, hother d hdc, List.append_nil, hstep.program_of_ne hdc, h]

/-- **Every client makes its modifying calls in the order of its program.** -/
theorem inProgramOrder_of_steps
    {init : V}
    {program : C → List (W ⊕ R)}
    (hs : Steps G (initial init program) s)
    (c : C) :
    InProgramOrder program s c := by
  induction hs with
  | refl =>
      rfl
  | tail _ hstep ih =>
      obtain ⟨d, hstep⟩ := hstep
      exact ih.step hstep

/-! ### The calls that have taken effect -/

omit [DecidableEq C] in
/-- The holder of the modify mutex has acquired it last. -/
theorem SerialSoFar.acquired_last
    {init : V}
    (h : SerialSoFar G init s)
    (hc : s.modifier = some c) :
    ∃ log call, acquiredOf s.history = log ++ [(c, call)] := by
  obtain ⟨log, events, before, hserial, hevents, hprogress⟩ := h
  simp only [State.Progresses, hc] at hprogress
  have hlog : ∀ call, acquiredOf s.pending = [(c, call)] →
      ∃ log call, acquiredOf s.history = log ++ [(c, call)] := by
    intro call hpending
    refine ⟨acquiredOf events, call, ?_⟩
    rw [← acquiredOf_modifyingOf, hevents, acquiredOf_append, hpending]
  simp only [State.pending, hc] at hlog
  cases hp : s.phase c with
  | testing call | computing call | computed call value | publishing call value
  | published call value =>
      exact hlog call (by rw [hp]; rfl)
  | finishing call result =>
      refine hlog call ?_
      rw [hp]
      cases result <;> rfl
  | idle | reading | copied | answering =>
      rw [hp] at hprogress
      exact hprogress.elim

/--
The calls of `log` have taken effect in a state of a run, one after the other
and those of each client in the order of its program.  A client that is not
inside a modifying call has no other calls than these and the ones to come.
-/
structure Executed
    (G : Register V W R A)
    (init : V)
    (program : C → List (W ⊕ R))
    (s : State C V W R A)
    (log : List (C × W))
    (events : List (C × Event V W R A)) : Prop where
  serial : Serial G init log events s.value
  published : publishedOf s.history = publishedOf events
  returned : returnedOf s.history <+: returnedOf events
  order : ∀ c, callsOf c log <+: modifyingCalls (program c)
  outside : ∀ c, ¬ Modifying (s.phase c) →
    callsOf c log ++ modifyingCalls (s.program c) = modifyingCalls (program c)

/-- The client has returned from all its calls. -/
def State.Done (s : State C V W R A) (c : C) : Prop :=
  s.phase c = .idle ∧ s.program c = []

/-- When a client is done, all its modifying calls have taken effect. -/
theorem Executed.of_done
    {init : V}
    {program : C → List (W ⊕ R)}
    {log : List (C × W)}
    {events : List (C × Event V W R A)}
    (h : Executed G init program s log events)
    (hc : s.Done c) :
    callsOf c log = modifyingCalls (program c) := by
  have hout : ¬ Modifying (s.phase c) := by
    rw [hc.1]
    exact id
  have hcalls := h.outside c hout
  rw [hc.2] at hcalls
  simpa [modifyingCalls] using hcalls

/-- The log can be read as one of the descriptions of the calls. -/
theorem Executed.described
    {W' : Type*}
    {f : W' → W}
    {init : V}
    {program : C → List (W' ⊕ R)}
    {log : List (C × W)}
    {events : List (C × Event V W R A)}
    (h : Executed G init (describedProgram f program) s log events) :
    ∃ log' : List (C × W'), log = log'.map (Prod.map id f) ∧
      (∀ c, callsOf c log' <+: modifyingCalls (program c)) ∧
      ∀ c, s.Done c → callsOf c log' = modifyingCalls (program c) := by
  obtain ⟨log', rfl, horder⟩ := exists_log_of_map
    (fun c => modifyingCalls_describedProgram f program c ▸ h.order c)
  refine ⟨log', rfl, horder, ?_⟩
  intro c hc
  -- The prefix is as long as the program.
  refine (horder c).eq_of_length ?_
  have hall := congrArg List.length (h.of_done hc)
  rw [callsOf_map, modifyingCalls_describedProgram] at hall
  simpa using hall

/-- **The calls take effect in program order**, in every state of every run. -/
theorem executed_of_steps
    {init : V}
    {program : C → List (W ⊕ R)}
    (hs : Steps G (initial init program) s) :
    ∃ log events, Executed G init program s log events ∧
      (s.modifier = none → returnedOf s.history = returnedOf events) := by
  have hserialized := serialized_of_steps hs
  have horder := inProgramOrder_of_steps hs
  obtain ⟨log, pending, events, hdecided, hfree⟩ := hserialized.serial.decided
  have hcalls : ∀ c, callsOf c log ++ (callsOf c pending ++
      modifyingCalls (s.program c)) = modifyingCalls (program c) := by
    intro c
    rw [← List.append_assoc, ← callsOf_append, ← hdecided.acquired]
    exact horder c
  refine ⟨log, events, ⟨hdecided.serial, hdecided.published, hdecided.returned,
    fun c => ⟨_, hcalls c⟩, ?_⟩, fun h => (hfree h).2⟩
  intro c hc
  -- The one call that has not taken effect is another client's.
  have hpending : callsOf c pending = [] := by
    cases hmodifier : s.modifier with
    | none =>
        rw [(hfree hmodifier).1]
        rfl
    | some d =>
        have hdc : ¬ d = c := by
          rintro rfl
          exact hc ((hserialized.modifier d).mpr hmodifier)
        obtain ⟨before, call, hlast⟩ := hserialized.serial.acquired_last hmodifier
        rcases List.eq_nil_or_concat' pending with rfl | ⟨front, e, rfl⟩
        · rfl
        · have hle := hdecided.pending_le
          have hfront : front = [] := by
            rw [List.length_append, List.length_singleton] at hle
            exact List.eq_nil_of_length_eq_zero (by omega)
          have hacquired := hdecided.acquired
          rw [hlast, ← List.append_assoc] at hacquired
          obtain ⟨_, he⟩ := List.append_inj' hacquired rfl
          rw [hfront, ← he]
          simp [callsOf, hdc]
  have hc := hcalls c
  rw [hpending, List.nil_append] at hc
  exact hc

end Order

/-! ### Versions -/

section Versions

variable {G : Register V W R A} {init value value' : V}
variable {log : List (C × W)} {events : List (C × Event V W R A)}

/-- A call that returns has been rejected, or it has published the new value. -/
theorem execute_cases
    {call : W}
    {result : Option V}
    (h : G.execute call value = some (value', result)) :
    (G.guard call value = some false ∧ value' = value ∧ result = none) ∨
      (G.guard call value = some true ∧ G.update call value = some value' ∧
        result = some value') := by
  unfold execute at h
  cases hguard : G.guard call value with
  | none =>
      simp [hguard] at h
  | some b =>
      cases b with
      | false =>
          simp only [hguard, Option.some.injEq, Prod.mk.injEq] at h
          exact Or.inl ⟨rfl, h.1.symm, h.2.symm⟩
      | true =>
          simp only [hguard, Option.map_eq_some_iff, Prod.mk.injEq] at h
          obtain ⟨new, hnew, rfl, rfl⟩ := h
          exact Or.inr ⟨rfl, hnew, rfl⟩

theorem publishedOf_call
    (events : List (C × Event V W R A))
    (c : C)
    (call : W)
    (result : Option V) :
    publishedOf (events ++ [(c, .acquired call), (c, decision call result),
      (c, .returned call result)]) = publishedOf events ++ result.toList := by
  rw [publishedOf_append]
  cases result <;> rfl

theorem returnedOf_call
    (events : List (C × Event V W R A))
    (c : C)
    (call : W)
    (result : Option V) :
    returnedOf (events ++ [(c, .acquired call), (c, decision call result),
      (c, .returned call result)]) = returnedOf events ++ [(c, result)] := by
  rw [returnedOf_append]
  cases result <;> rfl

/-- Every value the register has had is the result of a prefix of the log. -/
theorem Serial.version
    (h : Serial G init log events value)
    {k : Nat}
    {v : V}
    (hk : (init :: publishedOf events)[k]? = some v) :
    ∃ log' events', log' <+: log ∧ Serial G init log' events' v ∧
      (publishedOf events').length = k := by
  induction h generalizing k v with
  | nil =>
      cases k with
      | zero =>
          cases hk
          exact ⟨[], [], List.prefix_rfl, .nil, rfl⟩
      | succ k => simp [publishedOf] at hk
  | @call log events value value' c w result hserial hexecute ih =>
      have hprefix : ∀ {v : V}, (init :: publishedOf events)[k]? = some v →
          ∃ log' events', log' <+: log ++ [(c, w)] ∧
            Serial G init log' events' v ∧ (publishedOf events').length = k := by
        intro v hv
        obtain ⟨log', events', hlog, h⟩ := ih hv
        exact ⟨log', events', hlog.trans (List.prefix_append _ _), h⟩
      rw [publishedOf_call, ← List.cons_append] at hk
      rcases execute_cases hexecute with ⟨_, _, rfl⟩ | ⟨_, _, rfl⟩
      · exact hprefix (by simpa using hk)
      · by_cases hlt : k < (init :: publishedOf events).length
        · rw [List.getElem?_append_left hlt] at hk
          exact hprefix hk
        · -- The last version is the result of the whole log.
          have hlength : k = (publishedOf events).length + 1 ∧ v = value' := by
            obtain ⟨hbound, _⟩ := List.getElem?_eq_some_iff.mp hk
            have hlast : k = (publishedOf events).length + 1 := by
              simp at hbound hlt
              omega
            rw [hlast] at hk
            exact ⟨hlast, by simpa [eq_comm] using hk⟩
          obtain ⟨rfl, rfl⟩ := hlength
          refine ⟨_, _, List.prefix_rfl, hserial.call hexecute, ?_⟩
          rw [publishedOf_call]
          simp

/--
Calls of which each makes the test of all of them fail: at most one of them
publishes, and the others are rejected.
-/
inductive AtMostOne
    (G : Register V W R A)
    (init value : V)
    (log : List (C × W))
    (events : List (C × Event V W R A)) : Prop
  | none
      (hvalue : value = init)
      (hrejected : ∀ e ∈ log, G.guard e.2 init = some false)
      (hpublished : publishedOf events = [])
      (hreturned : returnedOf events = log.map fun e => (e.1, none))
  | one {before after : List (C × W)} {c : C} {call : W}
      (hlog : log = before ++ (c, call) :: after)
      (haccepted : G.guard call init = some true)
      (hvalue : G.update call init = some value)
      (hpublished : publishedOf events = [value])
      (hreturned : returnedOf events = before.map (fun e => (e.1, none)) ++
        (c, some value) :: after.map (fun e => (e.1, none)))

/-- **At most one** of calls that exclude each other takes effect. -/
theorem Serial.atMostOne
    {allowed : W → Prop}
    (hexclusive : ∀ call call', allowed call → allowed call' → ∀ v v',
      G.guard call v = some true → G.update call v = some v' →
        G.guard call' v' = some false)
    (h : Serial G init log events value)
    (hallowed : ∀ e ∈ log, allowed e.2) :
    AtMostOne G init value log events := by
  induction h with
  | nil =>
      exact .none rfl (by simp) rfl rfl
  | @call log events value value' c w result hserial hexecute ih =>
      have hw : allowed w := hallowed (c, w) (List.mem_append_right _ List.mem_cons_self)
      have hlog : ∀ e ∈ log, allowed e.2 :=
        fun e he => hallowed e (List.mem_append_left _ he)
      cases ih hlog with
      | none hvalue hrejected hpublished hreturned =>
          subst hvalue
          rcases execute_cases hexecute with ⟨hw, rfl, rfl⟩ | ⟨haccepted, hvalue, rfl⟩
          · refine .none rfl ?_ ?_ ?_
            · intro e he
              rcases List.mem_append.mp he with he | he
              · exact hrejected e he
              · cases List.mem_singleton.mp he
                exact hw
            · rw [publishedOf_call, hpublished]
              rfl
            · rw [returnedOf_call, hreturned, List.map_append]
              rfl
          · refine .one rfl haccepted hvalue ?_ ?_
            · rw [publishedOf_call, hpublished]
              rfl
            · rw [returnedOf_call, hreturned]
              rfl
      | @one before after d call hsplit haccepted hvalue hpublished hreturned =>
          -- The call that has taken effect excludes this one.
          have hcall : allowed call :=
            hlog (d, call) (by rw [hsplit]; simp)
          have hrejected := hexclusive call w hcall hw init value haccepted hvalue
          rcases execute_cases hexecute with ⟨_, rfl, rfl⟩ | ⟨haccepted', _, _⟩
          · have hsplit' : log ++ [(c, w)] =
                before ++ (d, call) :: (after ++ [(c, w)]) := by
              rw [hsplit, List.append_assoc, List.cons_append]
            refine .one hsplit' haccepted hvalue ?_ ?_
            · rw [publishedOf_call, hpublished]
              rfl
            · rw [returnedOf_call, hreturned]
              simp
          · rw [hrejected] at haccepted'
            cases haccepted'

end Versions

end Register
end Lib
end AgencyNode
