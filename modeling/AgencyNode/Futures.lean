import AgencyNode.Lib.ThreadPool

/-!
# futures.h

Promises and futures as threads see them.  A promise and its future share a
`shared_state`; whoever comes second, the promise with its value or the future
with its callback, runs the callback.  A write of `_value` or `_callback` and
each compare-exchange of `transit` are one step.

A chain of `then` calls is built by one thread.  Every promise that is not set
by a callback is set by a thread of its own.  A callback is run by the thread
that completes the `shared_state`, before that thread goes on with its work.
All types of values are merged into one type `V`, which has a value for
`unit_type{}`.  A continuation is given by what a call of it does, an event of the
type `E`, and by what it returns.
-/

namespace AgencyNode
namespace Futures

open Lib

/-- The values of the futures, with `unit_type{}` among them. -/
class HasUnit (V : Type) where
  unit : V

/--
A chain: the future of `make_future(v)`, the future of a `make_promise()` whose
promise is set to `v`, or a `then` call on the future of a chain, with a
continuation that returns a value, nothing, or the future of a chain.  The call
of a continuation with `t` does `e t`.
-/
inductive Chain (V E : Type) where
  | makeFuture (v : V)
  | makePromise (v : V)
  | thenValue (c : Chain V E) (e : V → E) (f : V → V)
  | thenVoid (c : Chain V E) (e : V → E)
  | thenFuture (c : Chain V E) (e : V → E) (f : V → Chain V E)

/-- The identity of a `shared_state`. -/
abbrev StateId := Nat

/-- The callbacks `then` passes to `setCallback`, with the promise they capture. -/
inductive Callback (V E : Type) where
  /-- `p.set(f(t))`. -/
  | thenValue (p : StateId) (e : V → E) (f : V → V)
  /-- `f(t); p.set(unit_type{})`. -/
  | thenVoid (p : StateId) (e : V → E)
  /-- `f(t).then([p](R&& r) { p.set(r); })`. -/
  | thenFuture (p : StateId) (e : V → E) (f : V → Chain V E)
  /-- `p.set(t)` inside of the void continuation whose own promise is `q`. -/
  | forward (p q : StateId)

/-- `shared_state::state`. -/
inductive State where
  | empty
  | callback
  | value
  | done
deriving DecidableEq, Repr

/-- `shared_state`. -/
structure SharedState (V E : Type) where
  state : State := .empty
  callback : Option (Callback V E) := none
  value : Option V := none
  /-- How often `_callback` has been called. -/
  calls : Nat := 0

/-- What must not happen. -/
inductive Fault where
  /-- An assertion of `transit` fails. -/
  | assertion
  /-- `_callback(std::move(*_value))` without a callback or without a value. -/
  | prematureCall
deriving DecidableEq, Repr

/-- The side of a `shared_state` on which `transit` runs. -/
inductive Side where
  | value
  | callback
deriving DecidableEq, Repr

namespace Side

/-- The template argument `A` of `transit`. -/
def own : Side → State
  | value => .value
  | callback => .callback

/-- The template argument `B` of `transit`. -/
def other : Side → State
  | value => .callback
  | callback => .value

end Side

/-- The `then` calls that remain to be made on a future. -/
inductive Rest (V E : Type) where
  /-- None: the future is kept. -/
  | last
  /-- The `then` of a callback made by `thenFuture`; its future is dropped. -/
  | forward (p : StateId)
  | thenValue (e : V → E) (f : V → V) (k : Rest V E)
  | thenVoid (e : V → E) (k : Rest V E)
  | thenFuture (e : V → E) (f : V → Chain V E) (k : Rest V E)

/-- What a thread has to do. -/
inductive Command (V E : Type) where
  /-- The write of `_value` in `setValue`. -/
  | setValue (c : StateId) (v : V)
  /-- The write of `_callback` in `setCallback`. -/
  | setCallback (c : StateId) (cb : Callback V E)
  /-- The first compare-exchange of `transit`. -/
  | transit (c : StateId) (side : Side)
  /-- The second compare-exchange of `transit`. -/
  | transitDone (c : StateId) (side : Side)
  /-- The call of `_callback`, up to where its continuation returns. -/
  | call (c : StateId)
  /-- Make a chain, and then the remaining `then` calls on its future. -/
  | build (chain : Chain V E) (k : Rest V E)
  /-- Make the remaining `then` calls on the future of `c`. -/
  | attach (c : StateId) (k : Rest V E)

/-- All `shared_state`s that have been made, and what the continuations have done. -/
structure Memory (V E : Type) where
  cells : StateId → SharedState V E := fun _ => {}
  size : Nat := 0
  /-- The future at the end of the chain, once it has been built. -/
  last : Option StateId := none
  /-- The calls of continuations, in their order. -/
  log : List E := []
  fault : Option Fault := none

variable {V E : Type}

namespace Memory

/-- Change one `shared_state`. -/
def update (m : Memory V E) (c : StateId) (cell : SharedState V E) : Memory V E :=
  { m with cells := Function.update m.cells c cell }

/-- `std::make_shared<shared_state<T>>`; the new identity is `m.size`. -/
def make (m : Memory V E) (cell : SharedState V E) : Memory V E :=
  { m.update m.size cell with size := m.size + 1 }

/-- Add calls of continuations to the log. -/
def record (m : Memory V E) (events : List E) : Memory V E :=
  { m with log := m.log ++ events }

end Memory

section Semantics

variable [HasUnit V]

omit [HasUnit V] in
/-- The call of the continuation in the body of a callback. -/
def Callback.invoked (v : V) : Callback V E → List E
  | .thenValue _ e _ => [e v]
  | .thenVoid _ e => [e v]
  | .thenFuture _ e _ => [e v]
  | .forward _ _ => []

/-- What the body of a callback does with the result of the continuation. -/
def Callback.run (v : V) : Callback V E → List (Command V E)
  | .thenValue p _ f => [.setValue p (f v)]
  | .thenVoid p _ => [.setValue p HasUnit.unit]
  | .thenFuture p _ f => [.build (f v) (.forward p)]
  | .forward p q => [.setValue p v, .setValue q HasUnit.unit]

/-- `future::then` on the future of `c`, and the `then` calls after it. -/
def attach (m : Memory V E) (c : StateId) : Rest V E → Effect (Memory V E) (Command V E)
  | .last => { shared := { m with last := some c } }
  | .forward p =>
      { shared := m.make {}
        next := [.setCallback c (.forward p m.size)] }
  | .thenValue e f k =>
      { shared := m.make {}
        next := [.setCallback c (.thenValue m.size e f), .attach m.size k] }
  | .thenVoid e k =>
      { shared := m.make {}
        next := [.setCallback c (.thenVoid m.size e), .attach m.size k] }
  | .thenFuture e f k =>
      { shared := m.make {}
        next := [.setCallback c (.thenFuture m.size e f), .attach m.size k] }

/-- The expressions a chain is made of, from the innermost one. -/
def build (m : Memory V E) (k : Rest V E) : Chain V E → Effect (Memory V E) (Command V E)
  | .makeFuture v =>
      { shared := m.make { state := .value, value := some v }
        next := [.attach m.size k] }
  | .makePromise v =>
      { shared := m.make {}
        next := [.attach m.size k]
        spawned := [[.setValue m.size v]] }
  | .thenValue chain e f => { shared := m, next := [.build chain (.thenValue e f k)] }
  | .thenVoid chain e => { shared := m, next := [.build chain (.thenVoid e k)] }
  | .thenFuture chain e f => { shared := m, next := [.build chain (.thenFuture e f k)] }

/-- One step of a thread. -/
def exec (m : Memory V E) : Command V E → Effect (Memory V E) (Command V E)
  | .setValue c v =>
      { shared := m.update c { m.cells c with value := some v }
        next := [.transit c .value] }
  | .setCallback c cb =>
      { shared := m.update c { m.cells c with callback := some cb }
        next := [.transit c .callback] }
  | .transit c side =>
      if (m.cells c).state = .empty then
        { shared := m.update c { m.cells c with state := side.own } }
      else if (m.cells c).state = side.other then
        { shared := m, next := [.transitDone c side] }
      else
        { shared := { m with fault := some .assertion } }
  | .transitDone c side =>
      if (m.cells c).state = side.other then
        { shared := m.update c { m.cells c with state := .done }
          next := [.call c] }
      else
        { shared := { m with fault := some .assertion } }
  | .call c =>
      match (m.cells c).callback, (m.cells c).value with
      | some cb, some v =>
          { shared := (m.update c { m.cells c with calls := (m.cells c).calls + 1 }).record
              (cb.invoked v)
            next := cb.run v }
      | _, _ => { shared := { m with fault := some .prematureCall } }
  | .build chain k => build m k chain
  | .attach c k => attach m c k

/-- A program that builds the chain. -/
def start (chain : Chain V E) : ThreadPool (Memory V E) (Command V E) where
  shared := {}
  threads := [[.build chain .last]]

end Semantics

end Futures

end AgencyNode
