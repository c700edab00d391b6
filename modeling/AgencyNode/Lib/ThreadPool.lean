import Mathlib.Data.List.Perm.Basic
import Mathlib.Logic.Relation

/-!
# Pools of threads

A thread is the list of the commands it has yet to execute.  Executing a command
changes the shared state, replaces the command by others of the same thread, and
may start new threads.  Any thread that has a command may execute it next, so
the runs of a pool are all interleavings.

An invariant that looks at the shared state and at the pending commands, but not
at the thread they belong to, is kept by every run if executing one command
keeps it, whatever the other pending commands are.
-/

namespace AgencyNode
namespace Lib

universe u v

/-- The shared state and the threads, each with its pending commands. -/
structure ThreadPool (S : Type u) (C : Type v) where
  shared : S
  threads : List (List C)

/-- What a command does. -/
structure Effect (S : Type u) (C : Type v) where
  shared : S
  /-- What the thread goes on with. -/
  next : List C := []
  /-- The threads that are started. -/
  spawned : List (List C) := []

namespace ThreadPool

variable {S : Type u} {C : Type v}

/-- The commands of all threads. -/
def pending (s : ThreadPool S C) : List C :=
  s.threads.flatten

/-- No thread has anything left to do. -/
def Quiescent (s : ThreadPool S C) : Prop :=
  s.pending = []

section Runs

variable (exec : S → C → Effect S C)

/-- One of the threads executes its next command. -/
inductive Step : ThreadPool S C → ThreadPool S C → Prop
  | exec
      (shared : S)
      (before after : List (List C))
      (c : C)
      (rest : List C) :
      Step ⟨shared, before ++ (c :: rest) :: after⟩
        ⟨(exec shared c).shared,
          before ++ ((exec shared c).next ++ rest) :: after ++
            (exec shared c).spawned⟩

/-- Any number of steps. -/
def Reaches : ThreadPool S C → ThreadPool S C → Prop :=
  Relation.ReflTransGen (Step exec)

variable {exec}

variable (exec) in
/-- Thread `i` executes its next command. -/
def run (s : ThreadPool S C) (i : Nat) : Option (ThreadPool S C) :=
  match s.threads.drop i with
  | (c :: rest) :: after =>
      some ⟨(exec s.shared c).shared,
        s.threads.take i ++ ((exec s.shared c).next ++ rest) :: after ++
          (exec s.shared c).spawned⟩
  | _ => none

variable (exec) in
/-- The run in which the threads take their turns in the given order. -/
def schedule (s : ThreadPool S C) : List Nat → Option (ThreadPool S C)
  | [] => some s
  | i :: turns => do
      let s' ← s.run exec i
      s'.schedule turns

theorem step_run
    {s s' : ThreadPool S C}
    {i : Nat}
    (h : s.run exec i = some s') :
    Step exec s s' := by
  unfold run at h
  split at h
  · next c rest after hdrop =>
      cases h
      have hthreads : s.threads = s.threads.take i ++ (c :: rest) :: after := by
        rw [← hdrop, List.take_append_drop]
      have hstep : Step exec ⟨s.shared, s.threads.take i ++ (c :: rest) :: after⟩ _ :=
        .exec s.shared (s.threads.take i) after c rest
      rwa [← hthreads] at hstep
  · cases h

theorem reaches_schedule
    {s s' : ThreadPool S C}
    {turns : List Nat}
    (h : s.schedule exec turns = some s') :
    Reaches exec s s' := by
  induction turns generalizing s with
  | nil =>
      cases h
      exact .refl
  | cons i turns ih =>
      obtain ⟨t, hrun, hrest⟩ := Option.bind_eq_some_iff.mp h
      exact .head (step_run hrun) (ih hrest)

/-- A step as it appears to an invariant: one pending command is executed. -/
theorem Step.pending
    {s s' : ThreadPool S C}
    (h : Step exec s s') :
    ∃ c R, s.pending.Perm (c :: R) ∧
      s'.shared = (exec s.shared c).shared ∧
        s'.pending.Perm
          ((exec s.shared c).next ++ (exec s.shared c).spawned.flatten ++ R) := by
  cases h with
  | exec shared before after c rest =>
      refine ⟨c, before.flatten ++ (rest ++ after.flatten), ?_, rfl, ?_⟩
      · simp only [ThreadPool.pending, List.flatten_append, List.flatten_cons,
          List.cons_append]
        exact List.perm_middle
      · simp only [ThreadPool.pending, List.flatten_append, List.flatten_cons,
          List.append_assoc]
        generalize (exec shared c).next = next
        generalize (exec shared c).spawned.flatten = spawned
        refine (List.perm_append_comm_assoc _ _ _).trans
          (List.Perm.append_left next ?_)
        have hlast : (before.flatten ++ (rest ++ (after.flatten ++ spawned))) =
            (before.flatten ++ (rest ++ after.flatten)) ++ spawned := by
          simp only [List.append_assoc]
        rw [hlast]
        exact List.perm_append_comm

/-- **The invariant rule**: what one command keeps, every interleaving keeps. -/
theorem Reaches.invariant
    {I : S → List C → Prop}
    (hperm : ∀ shared R R', R.Perm R' → I shared R → I shared R')
    (hexec : ∀ shared c R, I shared (c :: R) →
      I (exec shared c).shared
        ((exec shared c).next ++ (exec shared c).spawned.flatten ++ R))
    {s s' : ThreadPool S C}
    (h : Reaches exec s s')
    (hs : I s.shared s.pending) :
    I s'.shared s'.pending := by
  induction h with
  | refl =>
      exact hs
  | tail _ hstep ih =>
      obtain ⟨c, R, hbefore, hshared, hafter⟩ := hstep.pending
      rw [hshared]
      exact hperm _ _ _ hafter.symm (hexec _ c R (hperm _ _ _ hbefore ih))

end Runs

end ThreadPool

end Lib
end AgencyNode
