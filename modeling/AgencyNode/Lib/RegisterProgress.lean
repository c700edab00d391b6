import AgencyNode.Lib.RegisterLinear
import Mathlib.Algebra.Order.BigOperators.Group.Finset
import Mathlib.Algebra.Order.Ring.Int
import Mathlib.Algebra.Ring.Nat
import Mathlib.Data.Fintype.Basic

/-!
# Progress of a register behind two locks

The locks serialise the clients of a `Register` without stopping them.  As long
as every call returns on every value the register can have, a client that is
not done can take a step or waits for one that can, and it takes a bounded
number of steps for a call.  A run that cannot be continued has therefore made
every call, and each client has made its calls in the order of its program.
-/

namespace AgencyNode
namespace Lib
namespace Register

universe u v w x y

variable {C : Type y} {V : Type u} {W : Type v} {R : Type w} {A : Type x}

/-! ### Bounded steps -/

/-- The steps a client takes to leave a phase, at most. -/
def Phase.cost : Phase V W R → Nat
  | .idle => 0
  | .testing _ => 6
  | .computing _ => 5
  | .computed _ _ => 4
  | .publishing _ _ => 3
  | .published _ _ => 2
  | .finishing _ _ => 1
  | .reading _ => 3
  | .copied _ _ => 2
  | .answering _ _ => 1

/-- The steps of a call, at most. -/
def callCost : W ⊕ R → Nat
  | .inl _ => 7
  | .inr _ => 4

/-- The steps of a program, at most. -/
def programCost (program : List (W ⊕ R)) : Nat :=
  (program.map callCost).sum

/-- The steps a client still has to take, at most. -/
def State.remaining (s : State C V W R A) (c : C) : Nat :=
  (s.phase c).cost + programCost (s.program c)

section Run

variable [DecidableEq C]

/-- A run of so many steps. -/
inductive Run (G : Register V W R A) :
    Nat → State C V W R A → State C V W R A → Prop
  | refl {s : State C V W R A} : Run G 0 s s
  | tail {n : Nat} {s s' s'' : State C V W R A} {c : C} :
      Run G n s s' → Step G c s' s'' → Run G (n + 1) s s''

variable {G : Register V W R A} {s s' : State C V W R A} {c : C}

theorem Run.steps
    {n : Nat}
    (h : Run G n s s') :
    Steps G s s' := by
  induction h with
  | refl =>
      exact Relation.ReflTransGen.refl
  | tail _ hstep ih =>
      exact ih.tail ⟨_, hstep⟩

/-- A step of `c` brings `c` closer to its end and the others no further from it. -/
theorem Step.remaining
    (hstep : Step G c s s') :
    s'.remaining c < s.remaining c ∧
      ∀ d, d ≠ c → s'.remaining d = s.remaining d := by
  refine ⟨?_, ?_⟩
  · cases hstep with
    | acquireModify hphase hprogram _ | acquireShared hphase hprogram _ =>
        simp [State.remaining, State.enter, State.emit, State.pop, hphase, hprogram,
          programCost, callCost, Phase.cost]
    | accept hphase _ | compute hphase _ | acquireExclusive hphase _ _
    | releaseExclusive hphase | releaseShared hphase | reject hphase _
    | publish hphase | releaseModify hphase | copy hphase | respond hphase _ =>
        simp [State.remaining, State.enter, State.emit, hphase, Phase.cost]
  · intro d hdc
    unfold State.remaining
    rw [hstep.phase_of_ne hdc, hstep.program_of_ne hdc]

/-- **A run is bounded** by the calls of its clients. -/
theorem Run.bounded
    [Fintype C]
    {n : Nat}
    (h : Run G n s s') :
    n + ∑ c, s'.remaining c ≤ ∑ c, s.remaining c := by
  induction h with
  | refl =>
      omega
  | @tail n s s' s'' c _ hstep ih =>
      obtain ⟨hlt, hsame⟩ := hstep.remaining
      have hsum : ∑ d, s''.remaining d < ∑ d, s'.remaining d := by
        refine Finset.sum_lt_sum ?_ ⟨c, Finset.mem_univ c, hlt⟩
        intro d _
        by_cases hdc : d = c
        · subst hdc
          exact hlt.le
        · exact (hsame d hdc).le
      omega

end Run

/-! ### No deadlock -/

/-- Every allowed call returns on every good value and leaves a good one. -/
structure Returns
    (G : Register V W R A)
    (allowed : W ⊕ R → Prop)
    (good : V → Prop) : Prop where
  guard : ∀ call, allowed (.inl call) → ∀ value, good value →
    ∃ b, G.guard call value = some b
  update : ∀ call, allowed (.inl call) → ∀ value, good value →
    G.guard call value = some true →
      ∃ value', G.update call value = some value' ∧ good value'
  answer : ∀ call, allowed (.inr call) → ∀ value, good value →
    ∃ a, G.answer call value = some a

/-- The call of a phase is allowed, and its copy or its new value is good. -/
def SoundPhase (allowed : W ⊕ R → Prop) (good : V → Prop) : Phase V W R → Prop
  | .testing call => allowed (.inl call)
  | .computing call => allowed (.inl call)
  | .computed _ value => good value
  | .publishing _ value => good value
  | .reading call => allowed (.inr call)
  | .copied call value => allowed (.inr call) ∧ good value
  | .answering call value => allowed (.inr call) ∧ good value
  | _ => True

/-- Only allowed calls are and will be made, and all values are good. -/
structure Sound
    (allowed : W ⊕ R → Prop)
    (good : V → Prop)
    (s : State C V W R A) : Prop where
  value : good s.value
  program : ∀ c, ∀ call ∈ s.program c, allowed call
  phase : ∀ c, SoundPhase allowed good (s.phase c)

section Progress

variable {G : Register V W R A} {s s' : State C V W R A} {c : C}
variable {allowed : W ⊕ R → Prop} {good : V → Prop} {init : V}

/-- The call that computes a new value has accepted the value it reads. -/
theorem SerialSoFar.accepted
    {call : W}
    (h : SerialSoFar G init s)
    (hmutex : ModifierHolds s)
    (hphase : s.phase c = .computing call) :
    G.guard call s.value = some true := by
  obtain ⟨_, _, before, _, _, hprogress⟩ := h
  have hc : s.modifier = some c := (hmutex c).mp (by simp [hphase, Modifying])
  simp only [State.Progresses, hc, hphase, Progress] at hprogress
  obtain ⟨hvalue, hguard⟩ := hprogress
  rw [hvalue]
  exact hguard

/-- The exclusive holder of the value mutex holds the modify mutex as well. -/
theorem ModifierHolds.of_writer
    (h : ModifierHolds s)
    (hmutex : ValueMutexHolds s)
    (hc : s.writer = some c) :
    s.modifier = some c := by
  refine (h c).mp ?_
  have hwriting := (hmutex.writer c).mpr hc
  cases hp : s.phase c <;> simp_all [Writing, Modifying]

variable [DecidableEq C]

theorem Sound.step
    (hreturns : Returns G allowed good)
    (h : Sound allowed good s)
    (hserialized : Serialized G init s)
    (hstep : Step G c s s') :
    Sound allowed good s' := by
  have hc := h.phase c
  have hvalue := h.value
  have hprogram := h.program c
  refine ⟨?_, fun d call hcall => h.program d call (hstep.mem_program hcall), ?_⟩
  · cases hstep with
    | publish hphase =>
        rw [hphase] at hc
        exact hc
    | _ => exact hvalue
  · intro d
    by_cases hdc : d = c
    · subst hdc
      cases hstep with
      | acquireModify _ hcalls _ =>
          have := hprogram _ (by rw [hcalls]; exact List.mem_cons_self)
          simpa [State.enter, State.emit, State.pop, SoundPhase] using this
      | acquireShared _ hcalls _ =>
          have := hprogram _ (by rw [hcalls]; exact List.mem_cons_self)
          simpa [State.enter, State.pop, SoundPhase] using this
      | compute hphase hupdate =>
          have haccepted := hserialized.serial.accepted hserialized.modifier hphase
          rw [hphase] at hc
          obtain ⟨value', hvalue', hgood⟩ := hreturns.update _ hc _ hvalue haccepted
          rw [hupdate] at hvalue'
          cases hvalue'
          simpa [State.enter, SoundPhase] using hgood
      | accept hphase _ | acquireExclusive hphase _ _ | releaseShared hphase =>
          rw [hphase] at hc
          simpa [State.enter, SoundPhase] using hc
      | copy hphase =>
          rw [hphase] at hc
          simpa [State.enter, State.emit, SoundPhase] using ⟨hc, hvalue⟩
      | reject | publish | releaseExclusive | releaseModify | respond =>
          simp [State.enter, State.emit, SoundPhase]
    · rw [hstep.phase_of_ne hdc]
      exact h.phase d

theorem sound_of_steps
    {program : C → List (W ⊕ R)}
    (hreturns : Returns G allowed good)
    (hinit : good init)
    (hprogram : ∀ c, ∀ call ∈ program c, allowed call)
    (hs : Steps G (initial init program) s) :
    Sound allowed good s := by
  induction hs with
  | refl =>
      exact ⟨hinit, hprogram, fun _ => trivial⟩
  | tail hs hstep ih =>
      obtain ⟨c, hstep⟩ := hstep
      exact ih.step hreturns (serialized_of_steps hs) hstep

/-- A client that holds no mutex and waits for none is not stuck. -/
theorem Sound.reader_step
    (hreturns : Returns G allowed good)
    (h : Sound allowed good s)
    (hphase : ¬ Modifying (s.phase c))
    (hidle : s.phase c ≠ .idle) :
    ∃ s', Step G c s s' := by
  have hc := h.phase c
  cases hp : s.phase c with
  | reading call =>
      exact ⟨_, .copy hp⟩
  | copied call value =>
      exact ⟨_, .releaseShared hp⟩
  | answering call value =>
      rw [hp] at hc
      obtain ⟨a, ha⟩ := hreturns.answer call hc.1 value hc.2
      exact ⟨_, .respond hp ha⟩
  | idle => exact absurd hp hidle
  | testing | computing | computed | publishing | published | finishing =>
      rw [hp] at hphase
      exact absurd trivial hphase

/-- The holder of the modify mutex can take a step or waits for a reader that can. -/
theorem Sound.modifier_step
    (hreturns : Returns G allowed good)
    (h : Sound allowed good s)
    (hmutex : ValueMutexHolds s)
    (hmodifier : ModifierHolds s)
    (hserial : SerialSoFar G init s)
    (hc : s.modifier = some c) :
    ∃ d s', Step G d s s' := by
  have hmodifying := (hmodifier c).mpr hc
  have hsound := h.phase c
  cases hp : s.phase c with
  | testing call =>
      rw [hp] at hsound
      obtain ⟨b, hb⟩ := hreturns.guard call hsound s.value h.value
      cases b with
      | true => exact ⟨c, _, .accept hp hb⟩
      | false => exact ⟨c, _, .reject hp hb⟩
  | computing call =>
      have haccepted := hserial.accepted hmodifier hp
      rw [hp] at hsound
      obtain ⟨value, hvalue, _⟩ := hreturns.update call hsound s.value h.value haccepted
      exact ⟨c, _, .compute hp hvalue⟩
  | computed call value =>
      by_cases hreaders : ∃ d, s.readers d
      · obtain ⟨d, hd⟩ := hreaders
        have hreading := (hmutex.readers d).mpr hd
        refine ⟨d, h.reader_step hreturns ?_ ?_⟩
        · cases hq : s.phase d <;> simp_all [Reading, Modifying]
        · intro hidle
          rw [hidle] at hreading
          exact hreading
      · refine ⟨c, _, .acquireExclusive hp ?_ (fun d hd => hreaders ⟨d, hd⟩)⟩
        -- A writer would be `c` itself, which has not acquired the value mutex.
        rw [Option.eq_none_iff_forall_ne_some]
        intro d hwriter
        have hd := hmodifier.of_writer hmutex hwriter
        rw [hc] at hd
        cases hd
        have hwriting := (hmutex.writer c).mpr hwriter
        rw [hp] at hwriting
        exact hwriting
  | publishing call value =>
      exact ⟨c, _, .publish hp⟩
  | published call value =>
      exact ⟨c, _, .releaseExclusive hp⟩
  | finishing call result =>
      exact ⟨c, _, .releaseModify hp⟩
  | idle | reading | copied | answering =>
      rw [hp] at hmodifying
      exact hmodifying.elim

/-- **No deadlock**: as long as a client is not done, some client can take a step. -/
theorem Sound.exists_step
    (hreturns : Returns G allowed good)
    (h : Sound allowed good s)
    (hserialized : Serialized G init s)
    (hc : ¬ s.Done c) :
    ∃ d s', Step G d s s' := by
  cases hholder : s.modifier with
  | some d =>
      exact h.modifier_step hreturns hserialized.valueMutex hserialized.modifier
        hserialized.serial hholder
  | none =>
      have hout : ¬ Modifying (s.phase c) := by
        rw [hserialized.modifier c, hholder]
        simp
      have hwriter : s.writer = none := by
        rw [Option.eq_none_iff_forall_ne_some]
        intro d hd
        have hmodifier := hserialized.modifier.of_writer hserialized.valueMutex hd
        rw [hholder] at hmodifier
        cases hmodifier
      cases hp : s.phase c with
      | idle =>
          cases hprogram : s.program c with
          | nil =>
              exact absurd ⟨hp, hprogram⟩ hc
          | cons call rest =>
              cases call with
              | inl call => exact ⟨c, _, .acquireModify hp hprogram hholder⟩
              | inr call => exact ⟨c, _, .acquireShared hp hprogram hwriter⟩
      | reading | copied | answering =>
          exact ⟨c, h.reader_step hreturns hout (by simp [hp])⟩
      | testing | computing | computed | publishing | published | finishing =>
          rw [hp] at hout
          exact absurd trivial hout

/--
What a run has done when all its clients are done: the calls of all clients have been
executed one after the other, those of each client in the order of its program, and
each has returned what it has returned there.
-/
structure Completed
    (G : Register V W R A)
    (init : V)
    (program : C → List (W ⊕ R))
    (s : State C V W R A) : Prop where
  done : ∀ c, s.Done c
  linear : ∃ records, Linear G init records s.value ∧
    ∀ c, (callsOf c records).map Record.call = program c ∧
      callsOf c records = returnsOf c s.history
  correct : AnswersCorrectly G s

theorem completed_of_done
    {program : C → List (W ⊕ R)}
    (hs : Steps G (initial init program) s)
    (hdone : ∀ c, s.Done c) :
    Completed G init program s := by
  obtain ⟨hlinear, hrecorded⟩ := linear_of_steps hs
  refine ⟨hdone, ⟨_, hlinear, fun c => ?_⟩, (serialized_of_steps hs).correct⟩
  obtain ⟨hidle, hprogram⟩ := hdone c
  have hcalls := (hrecorded c).calls
  have hreturns := (hrecorded c).returns
  rw [hidle, hprogram] at hcalls
  rw [hidle] at hreturns
  simp only [pendingCall, pendingRecord, List.append_nil] at hcalls hreturns
  exact ⟨hcalls, hreturns⟩

/--
**Every run completes**: it takes a bounded number of steps, and in a state in
which no client can take a step all of them are done.
-/
theorem Run.completes
    [Fintype C]
    {program : C → List (W ⊕ R)}
    {n : Nat}
    (hreturns : Returns G allowed good)
    (hinit : good init)
    (hprogram : ∀ c, ∀ call ∈ program c, allowed call)
    (hrun : Run G n (initial init program) s) :
    n ≤ ∑ c, programCost (program c) ∧
      ((∃ c s', Step G c s s') ∨ Completed G init program s) := by
  have hs := hrun.steps
  have hbounded := hrun.bounded
  refine ⟨?_, ?_⟩
  · have hinitial : ∑ c, (initial init program : State C V W R A).remaining c =
        ∑ c, programCost (program c) := by
      simp [State.remaining, initial, Phase.cost]
    omega
  · by_cases hdone : ∀ c, s.Done c
    · exact Or.inr (completed_of_done hs hdone)
    · push Not at hdone
      obtain ⟨c, hc⟩ := hdone
      have hsound := sound_of_steps hreturns hinit hprogram hs
      exact Or.inl (hsound.exists_step hreturns (serialized_of_steps hs) hc)

end Progress

end Register
end Lib
end AgencyNode
