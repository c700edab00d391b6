import AgencyNode.FutureDelivery
import Mathlib.Algebra.Order.Group.Multiset
import Mathlib.Tactic.Abel

/-!
# What the continuations do

A chain stands for one value and for a number of calls: its continuations are
called one after the other, each with what the one before it has returned.  The
calls that are still to come belong to the pending commands and to the callbacks
that are stored and have not been called.
-/

namespace AgencyNode
namespace Futures

open Lib

variable {V E : Type} [HasUnit V]

/-! ## Values and calls -/

/-- The continuations of a chain, applied to its source value. -/
def Chain.result : Chain V E → V
  | .makeFuture v => v
  | .makePromise v => v
  | .thenValue chain _ f => f chain.result
  | .thenVoid _ _ => HasUnit.unit
  | .thenFuture chain _ f => (f chain.result).result

/-- The calls of the continuations of a chain. -/
def Chain.trace : Chain V E → List E
  | .makeFuture _ => []
  | .makePromise _ => []
  | .thenValue chain e _ => chain.trace ++ [e chain.result]
  | .thenVoid chain e => chain.trace ++ [e chain.result]
  | .thenFuture chain e f => chain.trace ++ e chain.result :: (f chain.result).trace

/-- The remaining continuations, applied to a value. -/
def Rest.result (u : V) : Rest V E → V
  | .last => u
  | .forward _ => u
  | .thenValue _ f k => k.result (f u)
  | .thenVoid _ k => k.result HasUnit.unit
  | .thenFuture _ f k => k.result (f u).result

/-- The calls of the remaining continuations. -/
def Rest.trace (u : V) : Rest V E → List E
  | .last => []
  | .forward _ => []
  | .thenValue e f k => e u :: k.trace (f u)
  | .thenVoid e k => e u :: k.trace HasUnit.unit
  | .thenFuture e f k => e u :: (f u).trace ++ k.trace (f u).result

/-- The calls that a call of the callback with `u` leads to. -/
def Callback.trace (u : V) : Callback V E → List E
  | .thenValue _ e _ => [e u]
  | .thenVoid _ e => [e u]
  | .thenFuture _ e f => e u :: (f u).trace
  | .forward _ _ => []

/-- The calls a command leads to, if `val` gives the values of the futures. -/
def Command.trace (val : StateId → V) : Command V E → List E
  | .setCallback c cb => cb.trace (val c)
  | .build chain k => chain.trace ++ k.trace chain.result
  | .attach c k => k.trace (val c)
  | _ => []

/-- The calls a stored callback leads to. -/
def SharedState.trace (u : V) (cell : SharedState V E) : List E :=
  if cell.calls = 0 then cell.callback.elim [] (Callback.trace u) else []

/-! ## The calls that are still to come -/

/-- The calls that the pending commands and the stored callbacks lead to. -/
def toCome (val : StateId → V) (m : Memory V E) (R : List (Command V E)) : Multiset E :=
  (R.flatMap (Command.trace val) : Multiset E) +
    ∑ c ∈ Finset.range m.size, ((m.cells c).trace (val c) : Multiset E)

section ToCome

variable {val : StateId → V} {m : Memory V E} {R : List (Command V E)} {c : StateId}

theorem toCome_perm
    {R' : List (Command V E)}
    (h : R.Perm R') :
    toCome val m R = toCome val m R' := by
  unfold toCome
  rw [Multiset.coe_eq_coe.mpr (h.flatMap_right (Command.trace val))]

theorem toCome_append
    (S : List (Command V E)) :
    toCome val m (S ++ R) = (S.flatMap (Command.trace val) : Multiset E) + toCome val m R := by
  unfold toCome
  rw [List.flatMap_append, ← Multiset.coe_add, add_assoc]

theorem toCome_cons
    (cmd : Command V E) :
    toCome val m (cmd :: R) = (cmd.trace val : Multiset E) + toCome val m R := by
  rw [← List.singleton_append, toCome_append, List.flatMap_singleton]

/-- A command on one `shared_state`: what it records is no longer to come. -/
theorem toCome_update_record
    {cmd : Command V E}
    {next : List (Command V E)}
    {cell : SharedState V E}
    {events : List E}
    (hc : c < m.size)
    (hbalance : (cmd.trace val ++ (m.cells c).trace (val c)).Perm
      (events ++ next.flatMap (Command.trace val) ++ cell.trace (val c))) :
    (events : Multiset E) + toCome val (m.update c cell) (next ++ R) =
      toCome val m (cmd :: R) := by
  have hsum := m.sum_update (fun d cell => (cell.trace (val d) : Multiset E)) hc cell
  have hcoe := Multiset.coe_eq_coe.mpr hbalance
  rw [← Multiset.coe_add, ← Multiset.coe_add, ← Multiset.coe_add] at hcoe
  rw [toCome_append, toCome_cons]
  unfold toCome
  generalize (R.flatMap (Command.trace val) : Multiset E) = r
  change _ + (_ + (r + ∑ d ∈ Finset.range m.size, _)) = _
  generalize ∑ d ∈ Finset.range m.size,
    (((m.update c cell).cells d).trace (val d) : Multiset E) = after at hsum ⊢
  generalize ∑ d ∈ Finset.range m.size,
    ((m.cells d).trace (val d) : Multiset E) = before at hsum ⊢
  apply add_right_cancel (b := ((m.cells c).trace (val c) : Multiset E))
  calc (events : Multiset E) + (next.flatMap (Command.trace val) + (r + after)) +
        (m.cells c).trace (val c)
      = events + next.flatMap (Command.trace val) + r +
          (after + (m.cells c).trace (val c)) := by abel
    _ = events + next.flatMap (Command.trace val) + cell.trace (val c) + (r + before) := by
        rw [hsum]
        abel
    _ = cmd.trace val + (r + before) + (m.cells c).trace (val c) := by
        rw [← hcoe]
        abel

/-- A command that records nothing. -/
theorem toCome_update
    {cmd : Command V E}
    {next : List (Command V E)}
    {cell : SharedState V E}
    (hc : c < m.size)
    (hbalance : (cmd.trace val ++ (m.cells c).trace (val c)).Perm
      (next.flatMap (Command.trace val) ++ cell.trace (val c))) :
    toCome val (m.update c cell) (next ++ R) = toCome val m (cmd :: R) := by
  have hrecord : (([] : List E) : Multiset E) + toCome val (m.update c cell) (next ++ R) =
      toCome val m (cmd :: R) := toCome_update_record hc hbalance
  rwa [Multiset.coe_nil, zero_add] at hrecord

/-- Only the values of the `shared_state`s that have been made matter. -/
theorem toCome_congr
    {val' : StateId → V}
    {cmd : Command V E}
    (hI : Inv m (cmd :: R))
    (hval : ∀ d < m.size, val' d = val d) :
    toCome val' m R = toCome val m R := by
  have hpending : R.flatMap (Command.trace val') = R.flatMap (Command.trace val) := by
    apply List.flatMap_congr
    intro cmd' hmem
    have hcmd := List.mem_cons_of_mem cmd hmem
    cases cmd' with
    | setCallback d cb =>
        have hd := hI.lt_size_of_mem (c := d) hcmd List.mem_cons_self
        rw [Command.trace, Command.trace, hval d hd]
    | attach d k =>
        have hd := hI.lt_size_of_mem (c := d) hcmd List.mem_cons_self
        rw [Command.trace, Command.trace, hval d hd]
    | _ => rfl
  have hstored : ∀ d ∈ Finset.range m.size,
      ((m.cells d).trace (val' d) : Multiset E) = (m.cells d).trace (val d) := by
    intro d hd
    rw [hval d (Finset.mem_range.mp hd)]
  unfold toCome
  rw [hpending, Finset.sum_congr rfl hstored]

/-- A command that makes a `shared_state`, whose value is `v`. -/
theorem toCome_make
    {cmd : Command V E}
    {next : List (Command V E)}
    {cell : SharedState V E}
    {v : V}
    (hI : Inv m (cmd :: R))
    (hcell : cell.callback = none)
    (hbalance : next.flatMap (Command.trace (Function.update val m.size v)) =
      cmd.trace val) :
    toCome (Function.update val m.size v) (m.make cell) (next ++ R) =
      toCome val m (cmd :: R) := by
  have hval : ∀ d < m.size, Function.update val m.size v d = val d := by
    intro d hd
    exact Function.update_of_ne (Nat.ne_of_lt hd) _ _
  have hempty : cell.trace v = [] := by
    simp [SharedState.trace, hcell]
  have hmake : toCome (Function.update val m.size v) (m.make cell) R =
      toCome (Function.update val m.size v) m R := by
    unfold toCome
    rw [m.sum_make (fun d cell =>
        (cell.trace (Function.update val m.size v d) : Multiset E)) cell,
      Function.update_self, hempty, Multiset.coe_nil, add_zero]
  rw [toCome_append, toCome_cons, hbalance, hmake, toCome_congr hI hval]

end ToCome

end Futures
end AgencyNode
