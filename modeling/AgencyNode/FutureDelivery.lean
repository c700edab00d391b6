import AgencyNode.FutureTokens

/-!
# Delivery of promises

The two sides of a `shared_state` hand over to each other without ever getting
in a third state, so the assertions of `transit` hold and `_callback` is called
once, with a value.
-/

namespace AgencyNode
namespace Futures

open Lib

variable {V E : Type}

/-! ## Moving parts -/

/-- What remains to be done with the `shared_state` of `c`. -/
def share (m : Memory V E) (R : List (Command V E)) (c : StateId) (part : Part) : Nat :=
  held m R (.on c part)

/-- Only parts of `c` are moved: `removed` is replaced by `added`. -/
structure Moves
    (m : Memory V E)
    (R : List (Command V E))
    (m' : Memory V E)
    (R' : List (Command V E))
    (c : StateId)
    (removed added : List Part) : Prop where
  here : ∀ part,
    share m' R' c part + removed.count part = share m R c part + added.count part
  other : ∀ d, d ≠ c → share m' R' d = share m R d
  last : held m' R' .last = held m R .last

section Moving

variable {m m' : Memory V E} {R R' : List (Command V E)} {c : StateId}

theorem count_map_on
    (parts : List Part)
    (part : Part) :
    (parts.map (Token.on c)).count (.on c part) = parts.count part := by
  have hinj : Function.Injective (Token.on c) := by
    intro a b hab
    exact (Token.on.inj hab).2
  exact List.count_map_of_injective _ _ hinj _

theorem count_map_on_of_ne
    (parts : List Part)
    {t : Token}
    (ht : ∀ part, t ≠ .on c part) :
    (parts.map (Token.on c)).count t = 0 := by
  apply List.count_eq_zero_of_not_mem
  intro hmem
  obtain ⟨part, _, rfl⟩ := List.mem_map.mp hmem
  exact ht part rfl

theorem Moves.of_held
    {removed added : List Part}
    (hh : ∀ t, held m' R' t + (removed.map (Token.on c)).count t =
      held m R t + (added.map (Token.on c)).count t) :
    Moves m R m' R' c removed added := by
  refine ⟨fun part => ?_, fun d hd => funext fun part => ?_, ?_⟩
  · have heq := hh (.on c part)
    rwa [count_map_on, count_map_on] at heq
  · have heq := hh (.on d part)
    have hne : ∀ part', Token.on d part ≠ .on c part' := by
      intro part' hpart
      exact hd (Token.on.inj hpart).1
    rw [count_map_on_of_ne removed hne, count_map_on_of_ne added hne] at heq
    exact heq
  · have heq := hh .last
    rw [count_map_on_of_ne removed (by simp), count_map_on_of_ne added (by simp)] at heq
    exact heq

end Moving

/-! ## The invariant -/

/-- Whether a value is there, as a number. -/
def written {α : Type} (o : Option α) : Nat :=
  o.isSome.toNat

@[simp] theorem written_some {α : Type} (a : α) : written (some a) = 1 := rfl

@[simp] theorem written_none {α : Type} : written (none : Option α) = 0 := rfl

/-- Whether a `shared_state` has been made, as a number. -/
def Memory.made (m : Memory V E) (c : StateId) : Nat :=
  if c < m.size then 1 else 0

/--
What remains to be done with a `shared_state`, by its `state`.  As long as it is
`EMPTY`, both sides are on their own; the side that comes second finds what the
first one has written.
-/
def CellInv
    (n : Part → Nat)
    (made : Nat)
    (cell : SharedState V E) : Prop :=
  match cell.state with
  | .empty =>
      n .promise + n (.first .value) = made ∧
      n (.first .value) = written cell.value ∧
      n .future + n (.first .callback) ≤ made ∧
      n (.first .callback) = written cell.callback ∧
      n (.second .value) = 0 ∧ n (.second .callback) = 0 ∧
      n .call = 0 ∧ cell.calls = 0
  | .callback =>
      made = 1 ∧
      n .promise + n (.first .value) + n (.second .value) = 1 ∧
      n (.first .value) + n (.second .value) = written cell.value ∧
      written cell.callback = 1 ∧
      n .future = 0 ∧ n (.first .callback) = 0 ∧ n (.second .callback) = 0 ∧
      n .call = 0 ∧ cell.calls = 0
  | .value =>
      made = 1 ∧
      n .promise = 0 ∧ n (.first .value) = 0 ∧ n (.second .value) = 0 ∧
      written cell.value = 1 ∧
      n .future + n (.first .callback) + n (.second .callback) ≤ 1 ∧
      n (.first .callback) + n (.second .callback) = written cell.callback ∧
      n .call = 0 ∧ cell.calls = 0
  | .done =>
      made = 1 ∧
      n .promise = 0 ∧ n (.first .value) = 0 ∧ n (.second .value) = 0 ∧
      n .future = 0 ∧ n (.first .callback) = 0 ∧ n (.second .callback) = 0 ∧
      written cell.value = 1 ∧ written cell.callback = 1 ∧
      n .call + cell.calls = 1

/-- What holds of the memory and of the pending commands in every state. -/
structure Inv (m : Memory V E) (R : List (Command V E)) : Prop where
  cells : ∀ c, CellInv (share m R c) (m.made c) (m.cells c)
  last : held m R .last + written m.last = 1
  fault : m.fault = none

section Facts

variable {m : Memory V E} {R : List (Command V E)} {c : StateId}

theorem eq_none_of_written
    {α : Type}
    {o : Option α}
    (h : written o = 0) :
    o = none := by
  cases o with
  | none => rfl
  | some a => simp at h

theorem exists_of_written
    {α : Type}
    {o : Option α}
    (h : 0 < written o) :
    ∃ a, o = some a := by
  cases o with
  | none => simp at h
  | some a => exact ⟨a, rfl⟩

theorem Memory.made_le_one
    (m : Memory V E)
    (c : StateId) :
    m.made c ≤ 1 := by
  unfold Memory.made
  split <;> omega

/-- Something remains to be done only with a `shared_state` that has been made. -/
theorem Inv.lt_size
    (hI : Inv m R)
    {part : Part}
    (h : 0 < share m R c part) :
    c < m.size := by
  by_contra hc
  have hcell := hI.cells c
  have hmade : m.made c = 0 := by
    simp [Memory.made, hc]
  unfold CellInv at hcell
  rw [hmade] at hcell
  cases part with
  | promise => split at hcell <;> omega
  | future => split at hcell <;> omega
  | first side => cases side <;> split at hcell <;> omega
  | second side => cases side <;> split at hcell <;> omega
  | call => split at hcell <;> omega

/-- A promise is there as long as the value is not. -/
theorem Inv.promise_add_value
    (hI : Inv m R)
    (c : StateId) :
    share m R c .promise + written (m.cells c).value = m.made c := by
  have hcell := hI.cells c
  unfold CellInv at hcell
  split at hcell <;> omega

/-- A future is there before a callback is stored. -/
theorem Inv.future_add_callback
    (hI : Inv m R)
    (c : StateId) :
    share m R c .future + written (m.cells c).callback ≤ m.made c := by
  have hcell := hI.cells c
  unfold CellInv at hcell
  split at hcell <;> omega

/-- `_callback` is called once, and after both writes. -/
theorem Inv.calls_le
    (hI : Inv m R)
    (c : StateId) :
    (m.cells c).calls ≤ written (m.cells c).callback ∧
      (m.cells c).calls ≤ written (m.cells c).value := by
  have hcell := hI.cells c
  unfold CellInv at hcell
  split at hcell <;> omega

end Facts

/-! ## One step -/

section Step

variable {m m' : Memory V E} {R R' : List (Command V E)} {c : StateId}

/-- A step on one `shared_state` has to be checked there only. -/
theorem Inv.step
    {removed added : List Part}
    (hI : Inv m R)
    (hmoves : Moves m R m' R' c removed added)
    (hcells : ∀ d, d ≠ c → m'.cells d = m.cells d)
    (hmade : ∀ d, d ≠ c → m'.made d = m.made d)
    (hlast : m'.last = m.last)
    (hfault : m'.fault = m.fault)
    (hcell : CellInv (share m' R' c) (m'.made c) (m'.cells c)) :
    Inv m' R' := by
  refine ⟨fun d => ?_, ?_, ?_⟩
  · by_cases hd : d = c
    · rw [hd]
      exact hcell
    · rw [hmoves.other d hd, hcells d hd, hmade d hd]
      exact hI.cells d
  · rw [hmoves.last, hlast]
    exact hI.last
  · rw [hfault]
    exact hI.fault

theorem made_of_lt
    (hc : c < m.size) :
    m.made c = 1 := by
  simp [Memory.made, hc]

theorem share_cons
    (cmd : Command V E)
    (c : StateId)
    (part : Part) :
    share m (cmd :: R) c part =
      cmd.tokens.count (.on c part) + share m R c part :=
  held_cons cmd _

/-- What a pending command holds remains to be done. -/
theorem share_pos_of_mem
    {cmd : Command V E}
    {part : Part}
    (hcmd : cmd ∈ R)
    (htoken : .on c part ∈ cmd.tokens) :
    0 < share m R c part := by
  have hmem : Token.on c part ∈ R.flatMap Command.tokens :=
    List.mem_flatMap.mpr ⟨cmd, hcmd, htoken⟩
  have hcount := List.count_pos_iff.mpr hmem
  unfold share held
  omega

theorem Inv.lt_size_of_mem
    (hI : Inv m R)
    {cmd : Command V E}
    {part : Part}
    (hcmd : cmd ∈ R)
    (htoken : .on c part ∈ cmd.tokens) :
    c < m.size :=
  hI.lt_size (share_pos_of_mem hcmd htoken)

/-- The `shared_state` of a command that is to be executed has been made. -/
theorem Inv.of_head
    {cmd : Command V E}
    {part : Part}
    (hI : Inv m (cmd :: R))
    (htoken : .on c part ∈ cmd.tokens) :
    c < m.size ∧ 0 < share m (cmd :: R) c part ∧
      CellInv (share m (cmd :: R) c) 1 (m.cells c) := by
  have hpos : 0 < share m (cmd :: R) c part :=
    share_pos_of_mem List.mem_cons_self htoken
  have hc : c < m.size := hI.lt_size hpos
  have hcell := hI.cells c
  rw [made_of_lt hc] at hcell
  exact ⟨hc, hpos, hcell⟩

theorem forall_part
    {P : Part → Prop}
    (h : ∀ part, P part) :
    P .promise ∧ P .future ∧ P (.first .value) ∧ P (.first .callback) ∧
      P (.second .value) ∧ P (.second .callback) ∧ P .call :=
  ⟨h _, h _, h _, h _, h _, h _, h _⟩

/-- A command that changes one `shared_state`. -/
theorem Inv.update
    {cmd : Command V E}
    {next : List (Command V E)}
    {cell : SharedState V E}
    (removed added : List Part)
    (hI : Inv m (cmd :: R))
    (hc : c < m.size)
    (hcount : ∀ t,
      (next.flatMap Command.tokens).count t + cell.tokens.count t +
          (removed.map (Token.on c)).count t =
        cmd.tokens.count t + (m.cells c).tokens.count t +
          (added.map (Token.on c)).count t)
    (hcell : ∀ n : Part → Nat,
      (∀ part, n part + removed.count part =
        share m (cmd :: R) c part + added.count part) →
      CellInv n 1 cell) :
    Inv (m.update c cell) (next ++ R) := by
  have hmoves : Moves m (cmd :: R) (m.update c cell) (next ++ R) c removed added := by
    apply Moves.of_held
    intro t
    have hupdate := held_update (R := R) hc cell t
    have htokens := hcount t
    rw [held_append, held_cons]
    omega
  apply hI.step hmoves (fun d hd => m.update_of_ne hd _) (fun _ _ => rfl) rfl rfl
  rw [m.update_self, made_of_lt (m := m.update c cell) hc]
  exact hcell _ hmoves.here

/-- A command that makes a `shared_state`. -/
theorem Inv.make
    {cmd : Command V E}
    {next : List (Command V E)}
    {cell : SharedState V E}
    (added : List Part)
    (hI : Inv m (cmd :: R))
    (hcallback : cell.callback = none)
    (hcount : ∀ t,
      (next.flatMap Command.tokens).count t =
        cmd.tokens.count t + (added.map (Token.on m.size)).count t)
    (hcell : CellInv added.count 1 cell) :
    Inv (m.make cell) (next ++ R) := by
  have hmoves : Moves m (cmd :: R) (m.make cell) (next ++ R) m.size [] added := by
    apply Moves.of_held
    intro t
    rw [held_append, held_cons, held_make hcallback, hcount]
    simp only [List.map_nil, List.count_nil]
    omega
  have hnew : share (m.make cell) (next ++ R) m.size = added.count := by
    funext part
    have hnone : ¬ 0 < share m (cmd :: R) m.size part := fun hpos =>
      Nat.lt_irrefl _ (hI.lt_size hpos)
    have hhere := hmoves.here part
    simp only [List.count_nil] at hhere
    omega
  have hmade : ∀ d, d ≠ m.size → (m.make cell).made d = m.made d := by
    intro d hd
    have hiff : d < m.size + 1 ↔ d < m.size := by omega
    simp [Memory.made, hiff]
  apply hI.step hmoves (fun d hd => m.make_of_ne hd _) hmade rfl rfl
  rw [m.make_self, made_of_lt (m := m.make cell) (Nat.lt_succ_self m.size), hnew]
  exact hcell

/-- What the pending commands hold matters, not which they are. -/
theorem Inv.of_held
    (hI : Inv m R)
    (hheld : ∀ t, held m R' t = held m R t) :
    Inv m R' := by
  refine ⟨fun d => ?_, ?_, hI.fault⟩
  · have hshare : share m R' d = share m R d := by
      funext part
      exact hheld _
    rw [hshare]
    exact hI.cells d
  · rw [hheld]
    exact hI.last

/-- A command that is replaced by another with the same parts. -/
theorem Inv.rename
    {cmd cmd' : Command V E}
    (hI : Inv m (cmd :: R))
    (htokens : cmd'.tokens = cmd.tokens) :
    Inv m (cmd' :: R) := by
  apply hI.of_held
  intro t
  rw [held_cons, held_cons, htokens]

/-- No value is written twice. -/
theorem Inv.value_of_setValue
    {v : V}
    (hI : Inv m R)
    (hcmd : .setValue c v ∈ R) :
    (m.cells c).value = none := by
  have hpos : 0 < share m R c .promise := share_pos_of_mem hcmd List.mem_cons_self
  have hbalance := hI.promise_add_value c
  have hmade := m.made_le_one c
  exact eq_none_of_written (by omega)

/-- No callback is written twice. -/
theorem Inv.callback_of_setCallback
    {cb : Callback V E}
    (hI : Inv m R)
    (hcmd : .setCallback c cb ∈ R) :
    (m.cells c).callback = none := by
  have hpos : 0 < share m R c .future := share_pos_of_mem hcmd List.mem_cons_self
  have hbalance := hI.future_add_callback c
  have hmade := m.made_le_one c
  exact eq_none_of_written (by omega)

/-- What is not there has not been called. -/
theorem Inv.calls_of_callback
    (hI : Inv m R)
    (hnone : (m.cells c).callback = none) :
    (m.cells c).calls = 0 := by
  have hcalls := hI.calls_le c
  rw [hnone, written_none] at hcalls
  omega

/-! ### `setValue`, `setCallback` and `transit` -/

theorem Inv.setValue
    {v : V}
    (hI : Inv m (.setValue c v :: R)) :
    Inv (m.update c { m.cells c with value := some v })
      ([.transit c .value] ++ R) := by
  obtain ⟨hc, hpos, hcell⟩ := hI.of_head List.mem_cons_self
  apply hI.update [.promise] [.first .value] hc
  · intro t
    simp [Command.tokens, SharedState.tokens]
    omega
  · intro n hn
    have hparts := forall_part hn
    simp at hparts
    cases hstate : (m.cells c).state with
    | empty =>
        simp only [CellInv, hstate, written_some] at hcell ⊢
        omega
    | callback =>
        simp only [CellInv, hstate, written_some, true_and] at hcell ⊢
        omega
    | value =>
        simp only [CellInv, hstate] at hcell
        omega
    | done =>
        simp only [CellInv, hstate] at hcell
        omega

theorem Inv.setCallback
    {cb : Callback V E}
    (hI : Inv m (.setCallback c cb :: R)) :
    Inv (m.update c { m.cells c with callback := some cb })
      ([.transit c .callback] ++ R) := by
  obtain ⟨hc, hpos, hcell⟩ := hI.of_head List.mem_cons_self
  have hnone := hI.callback_of_setCallback List.mem_cons_self
  have hcalls := hI.calls_of_callback hnone
  apply hI.update [.future] [.first .callback] hc
  · intro t
    simp [Command.tokens, SharedState.tokens, hnone, hcalls, List.count_cons]
    omega
  · intro n hn
    have hparts := forall_part hn
    simp at hparts
    cases hstate : (m.cells c).state with
    | empty =>
        simp only [CellInv, hstate, hnone, written_none, written_some] at hcell ⊢
        omega
    | callback =>
        simp only [CellInv, hstate] at hcell
        omega
    | value =>
        simp only [CellInv, hstate, hnone, written_none, written_some,
          true_and] at hcell ⊢
        omega
    | done =>
        simp only [CellInv, hstate] at hcell
        omega

/-- The assertion of `transit` holds. -/
theorem Inv.state_of_transit
    {side : Side}
    (hI : Inv m (.transit c side :: R)) :
    (m.cells c).state = .empty ∨ (m.cells c).state = side.other := by
  obtain ⟨_, hpos, hcell⟩ := hI.of_head List.mem_cons_self
  cases hstate : (m.cells c).state with
  | empty =>
      exact Or.inl rfl
  | callback =>
      cases side with
      | value => exact Or.inr rfl
      | callback =>
          simp only [CellInv, hstate] at hcell
          omega
  | value =>
      cases side with
      | value =>
          simp only [CellInv, hstate] at hcell
          omega
      | callback => exact Or.inr rfl
  | done =>
      simp only [CellInv, hstate] at hcell
      cases side <;> omega

/-- The second compare-exchange finds what the first one has found. -/
theorem Inv.state_of_transitDone
    {side : Side}
    (hI : Inv m (.transitDone c side :: R)) :
    (m.cells c).state = side.other := by
  obtain ⟨_, hpos, hcell⟩ := hI.of_head List.mem_cons_self
  cases hstate : (m.cells c).state with
  | empty =>
      simp only [CellInv, hstate] at hcell
      cases side <;> omega
  | callback =>
      cases side with
      | value => rfl
      | callback =>
          simp only [CellInv, hstate] at hcell
          omega
  | value =>
      cases side with
      | value =>
          simp only [CellInv, hstate] at hcell
          omega
      | callback => rfl
  | done =>
      simp only [CellInv, hstate] at hcell
      cases side <;> omega

theorem Inv.transit_empty
    {side : Side}
    (hI : Inv m (.transit c side :: R))
    (hstate : (m.cells c).state = .empty) :
    Inv (m.update c { m.cells c with state := side.own }) ([] ++ R) := by
  obtain ⟨hc, hpos, hcell⟩ := hI.of_head List.mem_cons_self
  apply hI.update [.first side] [] hc
  · intro t
    simp [Command.tokens, SharedState.tokens]
    omega
  · intro n hn
    have hparts := forall_part hn
    cases side with
    | value =>
        simp at hparts
        simp only [CellInv, hstate, Side.own, true_and] at hcell ⊢
        omega
    | callback =>
        simp at hparts
        simp only [CellInv, hstate, Side.own, true_and] at hcell ⊢
        omega

theorem Inv.transit_other
    {side : Side}
    (hI : Inv m (.transit c side :: R))
    (hstate : (m.cells c).state = side.other) :
    Inv m ([.transitDone c side] ++ R) := by
  obtain ⟨hc, hpos, hcell⟩ := hI.of_head List.mem_cons_self
  rw [← m.update_eq_self c]
  apply hI.update [.first side] [.second side] hc
  · intro t
    simp [Command.tokens]
    omega
  · intro n hn
    have hparts := forall_part hn
    cases side with
    | value =>
        simp at hparts
        simp only [CellInv, hstate, Side.other, true_and] at hcell ⊢
        omega
    | callback =>
        simp at hparts
        simp only [CellInv, hstate, Side.other, true_and] at hcell ⊢
        omega

theorem Inv.transitDone
    {side : Side}
    (hI : Inv m (.transitDone c side :: R)) :
    Inv (m.update c { m.cells c with state := .done }) ([.call c] ++ R) := by
  have hstate := hI.state_of_transitDone
  obtain ⟨hc, hpos, hcell⟩ := hI.of_head List.mem_cons_self
  apply hI.update [.second side] [.call] hc
  · intro t
    simp [Command.tokens, SharedState.tokens]
    omega
  · intro n hn
    have hparts := forall_part hn
    cases side with
    | value =>
        simp at hparts
        simp only [CellInv, hstate, Side.other, true_and] at hcell ⊢
        omega
    | callback =>
        simp at hparts
        simp only [CellInv, hstate, Side.other, true_and] at hcell ⊢
        omega

/-- When `_callback` is to be called, it and `_value` have been written. -/
theorem Inv.ready_of_call
    (hI : Inv m (.call c :: R)) :
    (m.cells c).state = .done ∧ (m.cells c).calls = 0 ∧
      ∃ cb v, (m.cells c).callback = some cb ∧ (m.cells c).value = some v := by
  obtain ⟨_, hpos, hcell⟩ := hI.of_head List.mem_cons_self
  cases hstate : (m.cells c).state with
  | empty =>
      simp only [CellInv, hstate] at hcell
      omega
  | callback =>
      simp only [CellInv, hstate] at hcell
      omega
  | value =>
      simp only [CellInv, hstate] at hcell
      omega
  | done =>
      simp only [CellInv, hstate] at hcell
      obtain ⟨cb, hcb⟩ := exists_of_written (o := (m.cells c).callback) (by omega)
      obtain ⟨v, hv⟩ := exists_of_written (o := (m.cells c).value) (by omega)
      exact ⟨rfl, by omega, cb, v, hcb, hv⟩

/-! ### `then`, `make_promise` and `make_future` -/

/-- The last future of the chain is kept. -/
theorem Inv.attach_last
    (hI : Inv m (.attach c .last :: R)) :
    Inv { m with last := some c } R := by
  have hshare : ∀ d part,
      share m (.attach c .last :: R) d part =
        (if d = c ∧ part = .future then 1 else 0) + share m R d part := by
    intro d part
    rw [share_cons]
    by_cases h : d = c ∧ part = .future
    · simp [Command.tokens, Rest.tokens, h]
    · have hne : ¬ (Token.on c .future = .on d part) := by
        intro heq
        obtain ⟨hd, hpart⟩ := Token.on.inj heq
        exact h ⟨hd.symm, hpart.symm⟩
      simp [Command.tokens, Rest.tokens, h, hne]
  refine ⟨fun d => ?_, ?_, hI.fault⟩
  · have hcell := hI.cells d
    have hparts := forall_part (hshare d)
    simp only [reduceCtorEq, and_false, and_true, if_false] at hparts
    change CellInv (share m R d) (m.made d) (m.cells d)
    cases hstate : (m.cells d).state <;>
      simp only [CellInv, hstate] at hcell ⊢ <;>
        omega
  · have hlast := hI.last
    rw [held_cons] at hlast
    simp [Command.tokens, Rest.tokens] at hlast
    change held m R .last + written (some c) = 1
    simp only [written_some]
    omega

/-- A `then` whose future is used further. -/
theorem Inv.attach_then
    {k k' : Rest V E}
    {cb : Callback V E}
    (hI : Inv m (.attach c k :: R))
    (hrest : k'.tokens = k.tokens)
    (hcb : cb.tokens = [.on m.size .promise]) :
    Inv (m.make {}) ([.setCallback c cb, .attach m.size k'] ++ R) := by
  apply hI.make [.promise, .future] rfl
  · intro t
    simp [Command.tokens, hrest, hcb, List.count_cons]
    omega
  · simp [CellInv]

theorem Inv.attach
    {k : Rest V E}
    (hI : Inv m (.attach c k :: R)) :
    Inv (attach m c k).shared
      ((attach m c k).next ++ (attach m c k).spawned.flatten ++ R) := by
  cases k with
  | last =>
      exact hI.attach_last
  | forward p =>
      apply hI.make [.promise] rfl
      · intro t
        simp [Futures.attach, Command.tokens, Callback.tokens, Rest.tokens,
          List.count_cons]
        omega
      · simp [CellInv]
  | thenValue e f k =>
      exact hI.attach_then rfl rfl
  | thenVoid e k =>
      exact hI.attach_then rfl rfl
  | thenFuture e f k =>
      exact hI.attach_then rfl rfl

theorem Inv.build
    {chain : Chain V E}
    {k : Rest V E}
    (hI : Inv m (.build chain k :: R)) :
    Inv (build m k chain).shared
      ((build m k chain).next ++ (build m k chain).spawned.flatten ++ R) := by
  cases chain with
  | makeFuture v =>
      apply hI.make [.future] rfl
      · intro t
        simp [Futures.build, Command.tokens, List.count_cons]
      · simp [CellInv]
  | makePromise v =>
      apply hI.make [.promise, .future] rfl
      · intro t
        simp [Futures.build, Command.tokens, List.count_cons]
        omega
      · simp [CellInv]
  | thenValue chain e f =>
      exact hI.rename rfl
  | thenVoid chain e =>
      exact hI.rename rfl
  | thenFuture chain e f =>
      exact hI.rename rfl

end Step

section Semantics

variable [HasUnit V]
variable {m : Memory V E} {R : List (Command V E)} {c : StateId}

/-- A callback that runs sets the promises it has captured, now or later. -/
theorem Callback.run_tokens
    (cb : Callback V E)
    (v : V) :
    (cb.run v).flatMap Command.tokens = cb.tokens := by
  cases cb <;> rfl

omit [HasUnit V] in
/-- The log is only written. -/
theorem Inv.record
    (hI : Inv m R)
    (events : List E) :
    Inv (m.record events) R :=
  ⟨hI.cells, hI.last, hI.fault⟩

theorem Inv.call
    {cb : Callback V E}
    {v : V}
    (hI : Inv m (.call c :: R))
    (hcb : (m.cells c).callback = some cb) :
    Inv (m.update c { m.cells c with calls := (m.cells c).calls + 1 })
      (cb.run v ++ R) := by
  obtain ⟨hstate, hcalls, _⟩ := hI.ready_of_call
  obtain ⟨hc, hpos, hcell⟩ := hI.of_head List.mem_cons_self
  apply hI.update [.call] [] hc
  · intro t
    rw [Callback.run_tokens]
    simp [Command.tokens, SharedState.tokens, hcb, hcalls]
    omega
  · intro n hn
    have hparts := forall_part hn
    simp at hparts
    simp only [CellInv, hstate, true_and] at hcell ⊢
    omega

end Semantics

end Futures

end AgencyNode
