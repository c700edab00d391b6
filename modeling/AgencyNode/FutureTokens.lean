import AgencyNode.Futures
import Mathlib.Algebra.BigOperators.Group.Finset.Basic

/-!
# What remains to be done with a `shared_state`

Every promise, every future and every step of `transit` that is still to be
made belongs to exactly one place: a command of some thread, or a callback that
is stored and has not been called.  A step of a thread moves a few of them, all
of one `shared_state`.
-/

namespace AgencyNode
namespace Futures

open Lib

variable {V E : Type}

/-- What may remain to be done with a `shared_state`. -/
inductive Part where
  | promise
  | future
  | first (side : Side)
  | second (side : Side)
  | call
deriving DecidableEq, Repr

/-- A part that remains to be done with some `shared_state`. -/
inductive Token where
  | on (c : StateId) (part : Part)
  /-- The future at the end of the chain is to be kept. -/
  | last
deriving DecidableEq, Repr

/-- The promises a callback has captured. -/
def Callback.tokens : Callback V E → List Token
  | .thenValue p _ _ => [.on p .promise]
  | .thenVoid p _ => [.on p .promise]
  | .thenFuture p _ _ => [.on p .promise]
  | .forward p q => [.on p .promise, .on q .promise]

def Rest.tokens : Rest V E → List Token
  | .last => [.last]
  | .forward p => [.on p .promise]
  | .thenValue _ _ k => k.tokens
  | .thenVoid _ k => k.tokens
  | .thenFuture _ _ k => k.tokens

def Command.tokens : Command V E → List Token
  | .setValue c _ => [.on c .promise]
  | .setCallback c cb => .on c .future :: cb.tokens
  | .transit c side => [.on c (.first side)]
  | .transitDone c side => [.on c (.second side)]
  | .call c => [.on c .call]
  | .build _ k => k.tokens
  | .attach c k => .on c .future :: k.tokens

/-- What the stored callback will still do. -/
def SharedState.tokens (cell : SharedState V E) : List Token :=
  if cell.calls = 0 then cell.callback.elim [] Callback.tokens else []

/-- How often a token is held by the pending commands and the stored callbacks. -/
def held (m : Memory V E) (R : List (Command V E)) (t : Token) : Nat :=
  (R.flatMap Command.tokens).count t +
    ∑ c ∈ Finset.range m.size, (m.cells c).tokens.count t

/-! ## Reading the memory -/

namespace Memory

variable (m : Memory V E)

@[simp] theorem update_self
    (c : StateId)
    (cell : SharedState V E) :
    (m.update c cell).cells c = cell := by
  simp [update]

theorem update_of_ne
    {c d : StateId}
    (h : d ≠ c)
    (cell : SharedState V E) :
    (m.update c cell).cells d = m.cells d := by
  simp [update, h]

theorem update_eq_self
    (c : StateId) :
    m.update c (m.cells c) = m := by
  simp [update]

/-- An update that keeps a field keeps it everywhere. -/
theorem update_congr
    {α : Type}
    (field : SharedState V E → α)
    {c : StateId}
    {cell : SharedState V E}
    (h : field cell = field (m.cells c))
    (d : StateId) :
    field ((m.update c cell).cells d) = field (m.cells d) := by
  by_cases hd : d = c
  · rw [hd, update_self, h]
  · rw [m.update_of_ne hd]

@[simp] theorem make_self
    (cell : SharedState V E) :
    (m.make cell).cells m.size = cell := by
  simp [make, update]

theorem make_of_ne
    {d : StateId}
    (h : d ≠ m.size)
    (cell : SharedState V E) :
    (m.make cell).cells d = m.cells d := by
  simp [make, update, h]

@[simp] theorem make_size
    (cell : SharedState V E) :
    (m.make cell).size = m.size + 1 :=
  rfl

/-- A sum over all `shared_state`s, when one of them changes. -/
theorem sum_update
    {A : Type}
    [AddCommMonoid A]
    (g : StateId → SharedState V E → A)
    {c : StateId}
    (hc : c < m.size)
    (cell : SharedState V E) :
    ∑ d ∈ Finset.range m.size, g d ((m.update c cell).cells d) + g c (m.cells c) =
      ∑ d ∈ Finset.range m.size, g d (m.cells d) + g c cell := by
  have hmem : c ∈ Finset.range m.size := Finset.mem_range.mpr hc
  have hrest : ∑ d ∈ (Finset.range m.size).erase c, g d ((m.update c cell).cells d) =
      ∑ d ∈ (Finset.range m.size).erase c, g d (m.cells d) := by
    apply Finset.sum_congr rfl
    intro d hd
    rw [m.update_of_ne (Finset.ne_of_mem_erase hd)]
  rw [← Finset.sum_erase_add _ _ hmem, hrest, update_self, add_right_comm,
    Finset.sum_erase_add _ _ hmem]

theorem sum_make
    {A : Type}
    [AddCommMonoid A]
    (g : StateId → SharedState V E → A)
    (cell : SharedState V E) :
    ∑ d ∈ Finset.range (m.make cell).size, g d ((m.make cell).cells d) =
      ∑ d ∈ Finset.range m.size, g d (m.cells d) + g m.size cell := by
  rw [make_size, Finset.sum_range_succ, make_self]
  congr 1
  apply Finset.sum_congr rfl
  intro d hd
  rw [m.make_of_ne (Nat.ne_of_lt (Finset.mem_range.mp hd))]

end Memory

/-! ## Counting -/

section Counting

variable {m : Memory V E} {R : List (Command V E)}

theorem held_perm
    {R' : List (Command V E)}
    (h : R.Perm R')
    (t : Token) :
    held m R t = held m R' t := by
  unfold held
  rw [(h.flatMap_right Command.tokens).count_eq t]

theorem held_append
    (S : List (Command V E))
    (t : Token) :
    held m (S ++ R) t = (S.flatMap Command.tokens).count t + held m R t := by
  unfold held
  rw [List.flatMap_append, List.count_append, Nat.add_assoc]

theorem held_cons
    (cmd : Command V E)
    (t : Token) :
    held m (cmd :: R) t = cmd.tokens.count t + held m R t := by
  unfold held
  rw [List.flatMap_cons, List.count_append, Nat.add_assoc]

theorem count_le_held
    {c : StateId}
    (hc : c < m.size)
    (t : Token) :
    (m.cells c).tokens.count t ≤ held m R t := by
  have hsum := Finset.add_sum_erase (Finset.range m.size)
    (fun d => (m.cells d).tokens.count t) (Finset.mem_range.mpr hc)
  unfold held
  omega

/-- A step on one `shared_state` changes what its callback holds. -/
theorem held_update
    {c : StateId}
    (hc : c < m.size)
    (cell : SharedState V E)
    (t : Token) :
    held (m.update c cell) R t + (m.cells c).tokens.count t =
      held m R t + cell.tokens.count t := by
  have hsum := m.sum_update (fun _ cell => cell.tokens.count t) hc cell
  unfold held
  change _ + ∑ d ∈ Finset.range m.size, _ + _ = _
  omega

/-- A new `shared_state` has no callback. -/
theorem held_make
    {cell : SharedState V E}
    (hcell : cell.callback = none)
    (t : Token) :
    held (m.make cell) R t = held m R t := by
  have hsum := m.sum_make (fun _ cell => cell.tokens.count t) cell
  have hempty : cell.tokens.count t = 0 := by
    simp [SharedState.tokens, hcell]
  unfold held
  omega

end Counting

end Futures

end AgencyNode
