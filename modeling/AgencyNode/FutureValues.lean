import AgencyNode.FutureTraces

/-!
# The values that are delivered

A promise that has not been set will be set with a value that is determined by
the commands and the stored callbacks from which it can be reached.  Since every
`shared_state` is reached in this way, nothing remains undelivered when no
thread has anything left to do.
-/

namespace AgencyNode
namespace Futures

open Lib

variable {V E : Type} [HasUnit V]

omit [HasUnit V] in
/-- The promise that is set in the end, if the last future is not kept. -/
def Rest.target : Rest V E → Option StateId
  | .last => none
  | .forward p => some p
  | .thenValue _ _ k => k.target
  | .thenVoid _ k => k.target
  | .thenFuture _ _ k => k.target

/-- A callback that is called with `u` will set the promise `c` to `v`. -/
def Callback.Delivers (u : V) (c : StateId) (v : V) : Callback V E → Prop
  | .thenValue p _ f => c = p ∧ v = f u
  | .thenVoid p _ => c = p ∧ v = HasUnit.unit
  | .thenFuture p _ f => c = p ∧ v = (f u).result
  | .forward p q => (c = p ∧ v = u) ∨ (c = q ∧ v = HasUnit.unit)

/--
`Fed m R (some c) v`: the value of `c` is `v`, or will be.  `Fed m R none v`: the
last future of the chain will have the value `v`.
-/
inductive Fed (m : Memory V E) (R : List (Command V E)) : Option StateId → V → Prop
  | value
      {c : StateId}
      {v : V}
      (h : (m.cells c).value = some v) :
      Fed m R (some c) v
  | setValue
      {c : StateId}
      {v : V}
      (h : .setValue c v ∈ R) :
      Fed m R (some c) v
  | stored
      {d c : StateId}
      {cb : Callback V E}
      {u v : V}
      (hd : d < m.size)
      (hcalls : (m.cells d).calls = 0)
      (hcb : (m.cells d).callback = some cb)
      (hsource : Fed m R (some d) u)
      (h : cb.Delivers u c v) :
      Fed m R (some c) v
  | setCallback
      {d c : StateId}
      {cb : Callback V E}
      {u v : V}
      (hcmd : .setCallback d cb ∈ R)
      (hsource : Fed m R (some d) u)
      (h : cb.Delivers u c v) :
      Fed m R (some c) v
  | attach
      {d : StateId}
      {k : Rest V E}
      {u : V}
      (hcmd : .attach d k ∈ R)
      (hsource : Fed m R (some d) u) :
      Fed m R k.target (k.result u)
  | build
      {chain : Chain V E}
      {k : Rest V E}
      (hcmd : .build chain k ∈ R) :
      Fed m R k.target (k.result chain.result)
  | kept
      {c : StateId}
      {v : V}
      (hlast : m.last = some c)
      (hsource : Fed m R (some c) v) :
      Fed m R none v

section Facts

variable {m : Memory V E} {R : List (Command V E)} {c : StateId}

omit [HasUnit V] in
theorem Rest.mem_tokens_of_target
    {k : Rest V E}
    (h : k.target = some c) :
    .on c .promise ∈ k.tokens := by
  induction k with
  | last => simp [Rest.target] at h
  | forward p => simpa [Rest.target, Rest.tokens, eq_comm] using h
  | thenValue e f k ih => exact ih h
  | thenVoid e k ih => exact ih h
  | thenFuture e f k ih => exact ih h

theorem Callback.Delivers.mem_tokens
    {cb : Callback V E}
    {u v : V}
    (h : cb.Delivers u c v) :
    .on c .promise ∈ cb.tokens := by
  cases cb with
  | thenValue p e f => simp [Callback.tokens, h.1]
  | thenVoid p e => simp [Callback.tokens, h.1]
  | thenFuture p e f => simp [Callback.tokens, h.1]
  | forward p q =>
      rcases h with h | h
      · simp [Callback.tokens, h.1]
      · simp [Callback.tokens, h.1]

omit [HasUnit V] in
/-- What a stored callback holds remains to be done. -/
theorem share_pos_of_stored
    {d : StateId}
    {cb : Callback V E}
    {part : Part}
    (hd : d < m.size)
    (hcalls : (m.cells d).calls = 0)
    (hcb : (m.cells d).callback = some cb)
    (htoken : .on c part ∈ cb.tokens) :
    0 < share m R c part := by
  have hone : 0 < (m.cells d).tokens.count (.on c part) := by
    rw [List.count_pos_iff]
    simpa [SharedState.tokens, hcalls, hcb] using htoken
  exact Nat.lt_of_lt_of_le hone (count_le_held hd _)

/-- A value that has been written is the one that was to be delivered. -/
theorem Fed.eq_of_value
    {u v : V}
    (hfed : Fed m R (some c) u)
    (hnone : share m R c .promise = 0)
    (hvalue : (m.cells c).value = some v) :
    u = v := by
  have habsurd : ¬ 0 < share m R c .promise := by omega
  generalize hplace : some c = place at hfed
  cases hfed with
  | value h =>
      obtain rfl := Option.some.inj hplace
      exact Option.some.inj (h.symm.trans hvalue)
  | setValue h =>
      obtain rfl := Option.some.inj hplace
      exact absurd (share_pos_of_mem h List.mem_cons_self) habsurd
  | stored hd hcalls hcb _ h =>
      obtain rfl := Option.some.inj hplace
      exact absurd (share_pos_of_stored hd hcalls hcb h.mem_tokens) habsurd
  | setCallback hcmd _ h =>
      obtain rfl := Option.some.inj hplace
      exact absurd (share_pos_of_mem hcmd (List.mem_cons_of_mem _ h.mem_tokens))
        habsurd
  | attach hcmd _ =>
      have htoken := Rest.mem_tokens_of_target hplace.symm
      exact absurd (share_pos_of_mem hcmd (List.mem_cons_of_mem _ htoken)) habsurd
  | build hcmd =>
      have htoken := Rest.mem_tokens_of_target hplace.symm
      exact absurd (share_pos_of_mem hcmd htoken) habsurd
  | kept _ _ =>
      cases hplace

end Facts

/-! ## One step -/

section Step

variable {m m' : Memory V E} {R R' : List (Command V E)} {c : StateId}

/-- What the executed command delivers is still to be delivered after it. -/
theorem Fed.transfer
    {cmd : Command V E}
    (hpending : ∀ cmd' ∈ R, cmd' ∈ R')
    (hvalue : ∀ c v, (m.cells c).value = some v → (m'.cells c).value = some v)
    (hlast : ∀ c, m.last = some c → m'.last = some c)
    (hstored : ∀ d cb u c v, d < m.size → (m.cells d).calls = 0 →
      (m.cells d).callback = some cb → Fed m (cmd :: R) (some d) u →
        Fed m' R' (some d) u → cb.Delivers u c v → Fed m' R' (some c) v)
    (hsetValue : ∀ c v, cmd = .setValue c v → Fed m' R' (some c) v)
    (hsetCallback : ∀ d cb u c v, cmd = .setCallback d cb →
      Fed m' R' (some d) u → cb.Delivers u c v → Fed m' R' (some c) v)
    (hattach : ∀ d k u, cmd = .attach d k →
      Fed m' R' (some d) u → Fed m' R' k.target (k.result u))
    (hbuild : ∀ chain k, cmd = .build chain k →
      Fed m' R' k.target (k.result chain.result))
    {place : Option StateId}
    {v : V}
    (h : Fed m (cmd :: R) place v) :
    Fed m' R' place v := by
  induction h with
  | value h =>
      exact .value (hvalue _ _ h)
  | setValue h =>
      rcases List.mem_cons.mp h with heq | hmem
      · exact hsetValue _ _ heq.symm
      · exact .setValue (hpending _ hmem)
  | stored hd hcalls hcb hsource h ih =>
      exact hstored _ _ _ _ _ hd hcalls hcb hsource ih h
  | setCallback hcmd _ h ih =>
      rcases List.mem_cons.mp hcmd with heq | hmem
      · exact hsetCallback _ _ _ _ _ heq.symm ih h
      · exact .setCallback (hpending _ hmem) ih h
  | attach hcmd _ ih =>
      rcases List.mem_cons.mp hcmd with heq | hmem
      · exact hattach _ _ _ heq.symm ih
      · exact .attach (hpending _ hmem) ih
  | build hcmd =>
      rcases List.mem_cons.mp hcmd with heq | hmem
      · exact hbuild _ _ heq.symm
      · exact .build (hpending _ hmem)
  | kept h _ ih =>
      exact .kept (hlast _ h) ih

/--
What holds in every state of a run that builds `top`: the values of all
`shared_state`s are on their way, and with these values the calls that are still to
come complete the log.
-/
structure Flow (top : Chain V E) (m : Memory V E) (R : List (Command V E)) : Prop where
  inv : Inv m R
  made : ∃ val : StateId → V, (∀ c < m.size, Fed m R (some c) (val c)) ∧
    (m.log : Multiset E) + toCome val m R = top.trace
  result : Fed m R none top.result

theorem Flow.exists_fed
    {top : Chain V E}
    (h : Flow top m R)
    (hc : c < m.size) :
    ∃ v, Fed m R (some c) v := by
  obtain ⟨val, hfed, _⟩ := h.made
  exact ⟨val c, hfed c hc⟩

/-- A step that makes no `shared_state`. -/
theorem Flow.of_transfer
    {top : Chain V E}
    (h : Flow top m R)
    (hinv : Inv m' R')
    (hsize : m'.size = m.size)
    (hcalls : ∀ val : StateId → V, (∀ c < m.size, Fed m R (some c) (val c)) →
      (m'.log : Multiset E) + toCome val m' R' = m.log + toCome val m R)
    (htransfer : ∀ place v, Fed m R place v → Fed m' R' place v) :
    Flow top m' R' := by
  obtain ⟨val, hfed, htrace⟩ := h.made
  refine ⟨hinv, ⟨val, fun c hc => htransfer _ _ (hfed c (hsize ▸ hc)), ?_⟩,
    htransfer _ _ h.result⟩
  rw [hcalls val hfed, htrace]

/-- A step that makes a `shared_state`. -/
theorem Flow.of_transfer_make
    {top : Chain V E}
    {cell : SharedState V E}
    (h : Flow top m R)
    (hinv : Inv (m.make cell) R')
    (htransfer : ∀ place v, Fed m R place v → Fed (m.make cell) R' place v)
    (hnew : ∀ val : StateId → V, (∀ c < m.size, Fed m R (some c) (val c)) →
      ∃ v, Fed (m.make cell) R' (some m.size) v ∧
        toCome (Function.update val m.size v) (m.make cell) R' = toCome val m R) :
    Flow top (m.make cell) R' := by
  obtain ⟨val, hfed, htrace⟩ := h.made
  obtain ⟨v, hv, hcalls⟩ := hnew val hfed
  refine ⟨hinv, ⟨Function.update val m.size v, fun c hc => ?_, ?_⟩, htransfer _ _ h.result⟩
  · rw [m.make_size] at hc
    by_cases heq : c = m.size
    · rw [heq, Function.update_self]
      exact hv
    · rw [Function.update_of_ne heq]
      exact htransfer _ _ (hfed c (by omega))
  · rw [hcalls]
    exact htrace

theorem Flow.setValue
    {top : Chain V E}
    {v : V}
    (h : Flow top m (.setValue c v :: R)) :
    Flow top (m.update c { m.cells c with value := some v })
      ([.transit c .value] ++ R) := by
  have hc : c < m.size := h.inv.lt_size_of_mem List.mem_cons_self List.mem_cons_self
  have hnone := h.inv.value_of_setValue List.mem_cons_self
  apply h.of_transfer h.inv.setValue rfl
  · exact fun val _ => congrArg _ (toCome_update hc (.refl _))
  intro place w
  apply Fed.transfer
  · exact fun _ hmem => List.mem_append_right _ hmem
  · intro d u hu
    by_cases hd : d = c
    · rw [hd, hnone] at hu
      cases hu
    · rw [m.update_of_ne hd]
      exact hu
  · exact fun _ hlast => hlast
  · intro d cb u e w hd hcalls hcb _ hfed hdelivers
    refine .stored hd ?_ ?_ hfed hdelivers
    · rw [← hcalls]
      exact m.update_congr SharedState.calls (by rfl) d
    · rw [← hcb]
      exact m.update_congr SharedState.callback (by rfl) d
  · intro d u heq
    cases heq
    exact .value (by rw [m.update_self])
  · simp
  · simp
  · simp

theorem Flow.setCallback
    {top : Chain V E}
    {cb : Callback V E}
    (h : Flow top m (.setCallback c cb :: R)) :
    Flow top (m.update c { m.cells c with callback := some cb })
      ([.transit c .callback] ++ R) := by
  have hc : c < m.size := h.inv.lt_size_of_mem List.mem_cons_self List.mem_cons_self
  have hnone := h.inv.callback_of_setCallback List.mem_cons_self
  have hcalls := h.inv.calls_of_callback hnone
  apply h.of_transfer h.inv.setCallback rfl
  · intro val _
    apply congrArg _ (toCome_update hc _)
    simp [Command.trace, SharedState.trace, hcalls, hnone]
  intro place w
  apply Fed.transfer
  · exact fun _ hmem => List.mem_append_right _ hmem
  · intro d u hu
    rw [← hu]
    exact m.update_congr SharedState.value (by rfl) d
  · exact fun _ hlast => hlast
  · intro d cb' u e w hd hcalls hcb _ hfed hdelivers
    have hne : d ≠ c := by
      rintro rfl
      rw [hnone] at hcb
      cases hcb
    rw [← m.update_of_ne hne] at hcalls hcb
    exact .stored hd hcalls hcb hfed hdelivers
  · simp
  · intro d cb' u e w heq hfed hdelivers
    cases heq
    refine .stored hc ?_ ?_ hfed hdelivers
    · rw [m.update_self]
      exact hcalls
    · rw [m.update_self]
  · simp
  · simp

/-- The compare-exchanges of `transit` deliver nothing. -/
theorem Flow.of_state
    {top : Chain V E}
    {cmd : Command V E}
    {next : List (Command V E)}
    {cell : SharedState V E}
    (h : Flow top m (cmd :: R))
    (hinv : Inv (m.update c cell) (next ++ R))
    (hcmd : ∃ side, cmd = .transit c side ∨ cmd = .transitDone c side)
    (hnext : ∀ val : StateId → V, next.flatMap (Command.trace val) = [])
    (hvalue : cell.value = (m.cells c).value)
    (hcallback : cell.callback = (m.cells c).callback)
    (hcalls : cell.calls = (m.cells c).calls) :
    Flow top (m.update c cell) (next ++ R) := by
  obtain ⟨side, hcmd⟩ := hcmd
  have hc : c < m.size := by
    rcases hcmd with rfl | rfl
    · exact h.inv.lt_size_of_mem List.mem_cons_self List.mem_cons_self
    · exact h.inv.lt_size_of_mem List.mem_cons_self List.mem_cons_self
  apply h.of_transfer hinv rfl
  · intro val _
    have htrace : cmd.trace val = [] := by
      rcases hcmd with rfl | rfl <;> rfl
    apply congrArg _ (toCome_update hc _)
    rw [htrace, hnext, SharedState.trace, SharedState.trace, hcallback, hcalls]
  intro place w
  apply Fed.transfer
  · exact fun _ hmem => List.mem_append_right _ hmem
  · intro d u hu
    rw [← hu]
    exact m.update_congr SharedState.value hvalue d
  · exact fun _ hlast => hlast
  · intro d cb u e w hd hzero hcb _ hfed hdelivers
    refine .stored hd ?_ ?_ hfed hdelivers
    · rw [← hzero]
      exact m.update_congr SharedState.calls hcalls d
    · rw [← hcb]
      exact m.update_congr SharedState.callback hcallback d
  · rintro d u rfl
    simp at hcmd
  · rintro d cb u e w rfl
    simp at hcmd
  · rintro d k u rfl
    simp at hcmd
  · rintro chain k rfl
    simp at hcmd

/-- A callback that runs delivers what it was to deliver. -/
theorem Callback.Delivers.run
    {cb : Callback V E}
    {u v : V}
    {d : StateId}
    (h : cb.Delivers u d v) :
    Fed m (cb.run u ++ R) (some d) v := by
  cases cb with
  | thenValue p e f =>
      obtain ⟨rfl, rfl⟩ := h
      exact .setValue (by simp [Callback.run])
  | thenVoid p e =>
      obtain ⟨rfl, rfl⟩ := h
      exact .setValue (by simp [Callback.run])
  | thenFuture p e f =>
      obtain ⟨rfl, rfl⟩ := h
      have hmem : Command.build (f u) (.forward d) ∈
          Callback.run u (.thenFuture d e f) ++ R := by
        simp [Callback.run]
      exact .build hmem
  | forward p q =>
      rcases h with ⟨rfl, rfl⟩ | ⟨rfl, rfl⟩
      · exact .setValue (by simp [Callback.run])
      · exact .setValue (by simp [Callback.run])

/-- The call of a continuation is followed by those of the chain it returns. -/
theorem Callback.invoked_run
    (cb : Callback V E)
    (u : V)
    (val : StateId → V) :
    cb.invoked u ++ (cb.run u).flatMap (Command.trace val) = cb.trace u := by
  cases cb with
  | thenFuture p e f => simp [Callback.invoked, Callback.run, Callback.trace, Command.trace,
      Rest.trace]
  | _ => rfl

theorem Flow.call
    {top : Chain V E}
    {v : V}
    {cb : Callback V E}
    (h : Flow top m (.call c :: R))
    (hcb : (m.cells c).callback = some cb)
    (hv : (m.cells c).value = some v) :
    Flow top ((m.update c { m.cells c with calls := (m.cells c).calls + 1 }).record
      (cb.invoked v)) (cb.run v ++ R) := by
  have hc : c < m.size := h.inv.lt_size_of_mem List.mem_cons_self List.mem_cons_self
  have hbalance := h.inv.promise_add_value c
  rw [made_of_lt hc, hv, written_some] at hbalance
  have hzero := h.inv.ready_of_call.2.1
  apply h.of_transfer ((h.inv.call hcb).record _) rfl
  · intro val hfed
    have hval : val c = v := (hfed c hc).eq_of_value (by omega) hv
    have hrecord : (cb.invoked v : Multiset E) +
        toCome val (m.update c { m.cells c with calls := (m.cells c).calls + 1 })
          (cb.run v ++ R) = toCome val m (.call c :: R) := by
      apply toCome_update_record hc
      simp [Command.trace, SharedState.trace, hzero, hcb, hval, cb.invoked_run]
    rw [← hrecord]
    change ((m.log ++ cb.invoked v : List E) : Multiset E) + _ = _
    rw [← Multiset.coe_add, add_assoc]
    rfl
  intro place w
  apply Fed.transfer
  · exact fun _ hmem => List.mem_append_right _ hmem
  · intro d u hu
    rw [← hu]
    exact m.update_congr SharedState.value (by rfl) d
  · exact fun _ hlast => hlast
  · intro d cb' u e w hd hcalls hcb' hsource hfed hdelivers
    by_cases hne : d = c
    · subst hne
      have hu : u = v := hsource.eq_of_value (by omega) hv
      obtain rfl := Option.some.inj (hcb'.symm.trans hcb)
      rw [hu] at hdelivers
      exact hdelivers.run
    · rw [← m.update_of_ne hne] at hcalls hcb'
      exact .stored hd hcalls hcb' hfed hdelivers
  · simp
  · simp
  · simp
  · simp

/-- A command that makes a `shared_state` erases nothing. -/
theorem Fed.transfer_make
    {cmd : Command V E}
    {cell : SharedState V E}
    (hinv : Inv m (cmd :: R))
    (hpending : ∀ cmd' ∈ R, cmd' ∈ R')
    (hsetValue : ∀ c v, cmd ≠ .setValue c v)
    (hsetCallback : ∀ c cb, cmd ≠ .setCallback c cb)
    (hattach : ∀ d k u, cmd = .attach d k →
      Fed (m.make cell) R' (some d) u → Fed (m.make cell) R' k.target (k.result u))
    (hbuild : ∀ chain k, cmd = .build chain k →
      Fed (m.make cell) R' k.target (k.result chain.result))
    {place : Option StateId}
    {v : V}
    (h : Fed m (cmd :: R) place v) :
    Fed (m.make cell) R' place v := by
  have hlast : ∀ c, m.last = some c → (m.make cell).last = some c :=
    fun _ hu => hu
  refine Fed.transfer hpending ?_ hlast ?_ ?_ ?_ hattach hbuild h
  · intro d u hu
    have hbalance := hinv.promise_add_value d
    rw [hu, written_some] at hbalance
    have hne : d ≠ m.size := by
      rintro rfl
      simp [Memory.made] at hbalance
    rw [m.make_of_ne hne]
    exact hu
  · intro d cb u e w hd hcalls hcb _ hfed hdelivers
    rw [← m.make_of_ne (Nat.ne_of_lt hd) cell] at hcalls hcb
    exact .stored (Nat.lt_succ_of_lt hd) hcalls hcb hfed hdelivers
  · intro d u heq
    exact absurd heq (hsetValue d u)
  · intro d cb u e w heq
    exact absurd heq (hsetCallback d cb)

theorem Flow.attach_last
    {top : Chain V E}
    (h : Flow top m (.attach c .last :: R)) :
    Flow top { m with last := some c } R := by
  have hend := h.inv.last
  rw [held_cons] at hend
  simp [Command.tokens, Rest.tokens] at hend
  have hnone : m.last = none := eq_none_of_written (by omega)
  apply h.of_transfer h.inv.attach_last rfl
  · intro val _
    rw [toCome_cons]
    exact congrArg _ (zero_add _).symm
  intro place w
  apply Fed.transfer
  · exact fun _ hmem => hmem
  · exact fun _ _ hu => hu
  · intro d hlast
    rw [hnone] at hlast
    cases hlast
  · intro d cb u e w hd hcalls hcb _ hfed hdelivers
    exact .stored hd hcalls hcb hfed hdelivers
  · simp
  · simp
  · intro d k u heq hfed
    cases heq
    exact .kept rfl hfed
  · simp

theorem Flow.attach_forward
    {top : Chain V E}
    {p : StateId}
    (h : Flow top m (.attach c (.forward p) :: R)) :
    Flow top (m.make {}) ([.setCallback c (.forward p m.size)] ++ R) := by
  have hcmd : Command.setCallback c (.forward p m.size) ∈
      [.setCallback c (.forward p m.size)] ++ R :=
    List.mem_cons_self
  have htransfer : ∀ place w, Fed m (.attach c (.forward p) :: R) place w →
      Fed (m.make {}) ([.setCallback c (.forward p m.size)] ++ R) place w := by
    intro place w
    apply Fed.transfer_make h.inv
    · exact fun _ hmem => List.mem_append_right _ hmem
    · simp
    · simp
    · intro d k u heq hfed
      cases heq
      exact .setCallback hcmd hfed (Or.inl ⟨rfl, rfl⟩)
    · simp
  have hc : c < m.size := h.inv.lt_size_of_mem List.mem_cons_self List.mem_cons_self
  refine h.of_transfer_make h.inv.attach htransfer fun val hfed => ?_
  have hnew : Fed (m.make {}) ([.setCallback c (.forward p m.size)] ++ R) (some m.size)
      HasUnit.unit :=
    .setCallback hcmd (htransfer _ _ (hfed c hc)) (Or.inr ⟨rfl, rfl⟩)
  exact ⟨_, hnew, toCome_make h.inv rfl rfl⟩

/-- A `then` whose future is used further; `g` is its continuation. -/
theorem Flow.attach_then
    {top : Chain V E}
    {k k' : Rest V E}
    {cb : Callback V E}
    {g : V → V}
    (h : Flow top m (.attach c k :: R))
    (hinv : Inv (m.make {}) ([.setCallback c cb, .attach m.size k'] ++ R))
    (htarget : k.target = k'.target)
    (hresult : ∀ u, k.result u = k'.result (g u))
    (htrace : ∀ u, cb.trace u ++ k'.trace (g u) = k.trace u)
    (hcb : ∀ u, cb.Delivers u m.size (g u)) :
    Flow top (m.make {}) ([.setCallback c cb, .attach m.size k'] ++ R) := by
  have hcmd : Command.setCallback c cb ∈
      [.setCallback c cb, .attach m.size k'] ++ R :=
    List.mem_cons_self
  have hcmd' : Command.attach m.size k' ∈
      [.setCallback c cb, .attach m.size k'] ++ R :=
    List.mem_cons_of_mem _ List.mem_cons_self
  have htransfer : ∀ place w, Fed m (.attach c k :: R) place w →
      Fed (m.make {}) ([.setCallback c cb, .attach m.size k'] ++ R) place w := by
    intro place w
    apply Fed.transfer_make h.inv
    · exact fun _ hmem => List.mem_append_right _ hmem
    · simp
    · simp
    · intro d k u heq hfed
      cases heq
      rw [htarget, hresult]
      exact .attach hcmd' (.setCallback hcmd hfed (hcb u))
    · simp
  have hc : c < m.size := h.inv.lt_size_of_mem List.mem_cons_self List.mem_cons_self
  refine h.of_transfer_make hinv htransfer fun val hfed => ?_
  have hnew : Fed (m.make {}) ([.setCallback c cb, .attach m.size k'] ++ R) (some m.size)
      (g (val c)) :=
    .setCallback hcmd (htransfer _ _ (hfed c hc)) (hcb _)
  refine ⟨_, hnew, toCome_make h.inv rfl ?_⟩
  simp [Command.trace, Function.update_of_ne (Nat.ne_of_lt hc), htrace]

theorem Flow.attach
    {top : Chain V E}
    {k : Rest V E}
    (h : Flow top m (.attach c k :: R)) :
    Flow top (attach m c k).shared
      ((attach m c k).next ++ (attach m c k).spawned.flatten ++ R) := by
  cases k with
  | last =>
      exact h.attach_last
  | forward p =>
      exact h.attach_forward
  | thenValue e f k =>
      exact h.attach_then (g := f) h.inv.attach rfl (fun _ => rfl)
        (fun _ => rfl) (fun _ => ⟨rfl, rfl⟩)
  | thenVoid e k =>
      exact h.attach_then (g := fun _ => HasUnit.unit) h.inv.attach rfl
        (fun _ => rfl) (fun _ => rfl) (fun _ => ⟨rfl, rfl⟩)
  | thenFuture e f k =>
      exact h.attach_then (g := fun u => (f u).result) h.inv.attach rfl
        (fun _ => rfl) (fun _ => rfl) (fun _ => ⟨rfl, rfl⟩)

/-- A `then` call on a chain is made after the chain. -/
theorem Flow.build_then
    {top : Chain V E}
    {chain chain' : Chain V E}
    {k k' : Rest V E}
    (h : Flow top m (.build chain k :: R))
    (hinv : Inv m (.build chain' k' :: R))
    (htarget : k.target = k'.target)
    (hresult : k.result chain.result = k'.result chain'.result)
    (htrace : chain'.trace ++ k'.trace chain'.result = chain.trace ++ k.trace chain.result) :
    Flow top m (.build chain' k' :: R) := by
  apply h.of_transfer hinv rfl
  · intro val _
    rw [toCome_cons, toCome_cons, Command.trace, Command.trace, htrace]
  intro place w
  apply Fed.transfer
  · exact fun _ hmem => List.mem_cons_of_mem _ hmem
  · exact fun _ _ hu => hu
  · exact fun _ hlast => hlast
  · intro d cb u e w hd hcalls hcb _ hfed hdelivers
    exact .stored hd hcalls hcb hfed hdelivers
  · simp
  · simp
  · simp
  · intro chain k heq
    cases heq
    rw [htarget, hresult]
    exact .build List.mem_cons_self

theorem Flow.build
    {top : Chain V E}
    {chain : Chain V E}
    {k : Rest V E}
    (h : Flow top m (.build chain k :: R)) :
    Flow top (build m k chain).shared
      ((build m k chain).next ++ (build m k chain).spawned.flatten ++ R) := by
  have hinv := h.inv.build
  cases chain with
  | makeFuture v =>
      have hnew : Fed (m.make { state := .value, value := some v })
          ([.attach m.size k] ++ R) (some m.size) v :=
        .value (by rw [m.make_self])
      refine h.of_transfer_make hinv (fun place w => ?_) fun val _ =>
        ⟨v, hnew, toCome_make h.inv rfl (by simp [Futures.build, Command.trace, Chain.trace,
          Chain.result])⟩
      apply Fed.transfer_make h.inv
      · exact fun _ hmem => List.mem_append_right _ hmem
      · simp
      · simp
      · simp
      · intro chain k heq
        cases heq
        exact .attach List.mem_cons_self hnew
  | makePromise v =>
      have hnew : Fed (m.make {})
          ([.attach m.size k] ++ [.setValue m.size v] ++ R) (some m.size) v :=
        .setValue (by simp)
      refine h.of_transfer_make hinv (fun place w => ?_) fun val _ =>
        ⟨v, hnew, toCome_make h.inv rfl (by simp [Futures.build, Command.trace, Chain.trace,
          Chain.result])⟩
      apply Fed.transfer_make h.inv
      · exact fun _ hmem => List.mem_append_right _ hmem
      · simp
      · simp
      · simp
      · intro chain k heq
        cases heq
        exact .attach List.mem_cons_self hnew
  | thenValue chain e f =>
      exact h.build_then hinv rfl rfl (by simp [Chain.trace, Chain.result, Rest.trace])
  | thenVoid chain e =>
      exact h.build_then hinv rfl rfl (by simp [Chain.trace, Chain.result, Rest.trace])
  | thenFuture chain e f =>
      exact h.build_then hinv rfl rfl (by simp [Chain.trace, Chain.result, Rest.trace])

/-- **One step of a thread keeps the invariant.** -/
theorem Flow.exec
    {top : Chain V E}
    {cmd : Command V E}
    (h : Flow top m (cmd :: R)) :
    Flow top (exec m cmd).shared
      ((exec m cmd).next ++ (exec m cmd).spawned.flatten ++ R) := by
  cases cmd with
  | setValue c v =>
      exact h.setValue
  | setCallback c cb =>
      exact h.setCallback
  | transit c side =>
      rcases h.inv.state_of_transit with hstate | hstate
      · simpa [Futures.exec, hstate] using
          h.of_state (h.inv.transit_empty hstate) ⟨side, Or.inl rfl⟩ (fun _ => rfl) rfl rfl rfl
      · have hne : side.other ≠ .empty := by cases side <;> simp [Side.other]
        have hinv := h.inv.transit_other hstate
        rw [← m.update_eq_self c] at hinv
        have hflow := h.of_state hinv ⟨side, Or.inl rfl⟩ (fun _ => rfl) rfl rfl rfl
        rw [m.update_eq_self c] at hflow
        simpa [Futures.exec, hstate, hne] using hflow
  | transitDone c side =>
      have hstate := h.inv.state_of_transitDone
      simpa [Futures.exec, hstate] using
        h.of_state h.inv.transitDone ⟨side, Or.inr rfl⟩ (fun _ => rfl) rfl rfl rfl
  | call c =>
      obtain ⟨_, _, cb, v, hcb, hv⟩ := h.inv.ready_of_call
      simpa [Futures.exec, hcb, hv] using h.call hcb hv
  | build chain k =>
      exact h.build
  | attach c k =>
      exact h.attach

end Step

/-! ## Runs -/

theorem Flow.start (chain : Chain V E) :
    Flow chain (start chain).shared (start chain).pending := by
  have hpending : (Futures.start chain).pending = [.build chain .last] := rfl
  refine ⟨⟨fun c => ?_, ?_, rfl⟩, ⟨fun _ => HasUnit.unit, ?_, ?_⟩, ?_⟩
  · change CellInv (share ({} : Memory V E) [.build chain .last] c) 0 ({} : SharedState V E)
    simp [CellInv, share, held, Command.tokens, Rest.tokens]
  · rw [hpending]
    simp [Futures.start, held, Command.tokens, Rest.tokens]
  · exact fun c hc => absurd hc (Nat.not_lt_zero c)
  · rw [hpending]
    simp [Futures.start, toCome, Command.trace, Rest.trace]
  · exact .build (k := .last) List.mem_cons_self

omit [HasUnit V] in
theorem Inv.perm
    {m : Memory V E}
    {R R' : List (Command V E)}
    (hI : Inv m R)
    (h : R.Perm R') :
    Inv m R' :=
  hI.of_held fun t => (held_perm h t).symm

theorem Fed.perm
    {m : Memory V E}
    {R R' : List (Command V E)}
    (h : R.Perm R')
    {place : Option StateId}
    {v : V}
    (hfed : Fed m R place v) :
    Fed m R' place v := by
  induction hfed with
  | value h => exact .value h
  | setValue hcmd => exact .setValue (h.mem_iff.mp hcmd)
  | stored hd hcalls hcb _ hdelivers ih => exact .stored hd hcalls hcb ih hdelivers
  | setCallback hcmd _ hdelivers ih => exact .setCallback (h.mem_iff.mp hcmd) ih hdelivers
  | attach hcmd _ ih => exact .attach (h.mem_iff.mp hcmd) ih
  | build hcmd => exact .build (h.mem_iff.mp hcmd)
  | kept hlast _ ih => exact .kept hlast ih

/-- Every state that is reached keeps to the values of the chain. -/
theorem Flow.of_reaches
    {chain : Chain V E}
    {s : ThreadPool (Memory V E) (Command V E)}
    (h : ThreadPool.Reaches Futures.exec (Futures.start chain) s) :
    Flow chain s.shared s.pending := by
  refine ThreadPool.Reaches.invariant (I := Flow chain) ?_ ?_ h
    (Flow.start chain)
  · intro shared R R' hperm hflow
    obtain ⟨val, hfed, htrace⟩ := hflow.made
    refine ⟨hflow.inv.perm hperm, ⟨val, fun c hc => (hfed c hc).perm hperm, ?_⟩,
      hflow.result.perm hperm⟩
    rw [← toCome_perm hperm]
    exact htrace
  · intro shared cmd R hflow
    exact hflow.exec

/-! ## When nothing is left to do -/

section Quiescence

variable {m : Memory V E} {c : StateId}

omit [HasUnit V] in
/-- Stored callbacks hold promises only. -/
theorem share_nil
    {part : Part}
    (hpart : part ≠ .promise) :
    share m [] c part = 0 := by
  have hnone : ∀ cb : Callback V E, .on c part ∉ cb.tokens := by
    intro cb hmem
    cases cb <;> simp [Callback.tokens, hpart] at hmem
  unfold share held
  rw [List.flatMap_nil, List.count_nil, Nat.zero_add]
  apply Finset.sum_eq_zero
  intro d _
  apply List.count_eq_zero_of_not_mem
  unfold SharedState.tokens
  split
  · cases (m.cells d).callback with
    | none => simp
    | some cb => exact hnone cb
  · simp

omit [HasUnit V] in
/-- A callback and a value do not wait for each other. -/
theorem Inv.called
    (hI : Inv m [])
    (hcallback : 0 < written (m.cells c).callback)
    (hvalue : 0 < written (m.cells c).value) :
    (m.cells c).calls = 1 := by
  have hcell := hI.cells c
  have hfirst : share m [] c (.first .value) = 0 := share_nil (by simp)
  have hfirst' : share m [] c (.first .callback) = 0 := share_nil (by simp)
  have hsecond : share m [] c (.second .value) = 0 := share_nil (by simp)
  have hsecond' : share m [] c (.second .callback) = 0 := share_nil (by simp)
  have hcall : share m [] c .call = 0 := share_nil (by simp)
  unfold CellInv at hcell
  split at hcell <;> omega

/-- What is to be delivered has been delivered. -/
theorem Fed.delivered
    (hI : Inv m [])
    {place : Option StateId}
    {v : V}
    (h : Fed m [] place v) :
    ∃ c, place.or m.last = some c ∧ (m.cells c).value = some v := by
  induction h with
  | value h =>
      exact ⟨_, rfl, h⟩
  | setValue hcmd =>
      cases hcmd
  | stored hd hcalls hcb _ _ ih =>
      obtain ⟨e, he, hvalue⟩ := ih
      obtain rfl := Option.some.inj he
      have hone := hI.called (by rw [hcb]; simp) (by rw [hvalue]; simp)
      omega
  | setCallback hcmd _ _ _ =>
      cases hcmd
  | attach hcmd _ _ =>
      cases hcmd
  | build hcmd =>
      cases hcmd
  | kept hlast _ ih =>
      obtain ⟨e, he, hvalue⟩ := ih
      obtain rfl := Option.some.inj he
      exact ⟨_, hlast, hvalue⟩

end Quiescence

/-! ## Exactly once -/

omit [HasUnit V] in
/-- `_callback` is called after both writes. -/
theorem Inv.both_written
    {m : Memory V E}
    {R : List (Command V E)}
    {c : StateId}
    (hI : Inv m R)
    (h : .call c ∈ R ∨ 0 < (m.cells c).calls) :
    (m.cells c).value.isSome ∧ (m.cells c).callback.isSome := by
  have hpos : 0 < share m R c .call ∨ 0 < (m.cells c).calls :=
    h.imp (fun hcmd => share_pos_of_mem hcmd List.mem_cons_self) id
  have hcell := hI.cells c
  have hboth : 0 < written (m.cells c).value ∧ 0 < written (m.cells c).callback := by
    unfold CellInv at hcell
    split at hcell <;> omega
  obtain ⟨v, hvalue⟩ := exists_of_written hboth.1
  obtain ⟨cb, hcallback⟩ := exists_of_written hboth.2
  simp [hvalue, hcallback]

/-- What is fed has been called, when no thread has anything left to do. -/
theorem Flow.called
    {top : Chain V E}
    {m : Memory V E}
    {c : StateId}
    (h : Flow top m [])
    (hcallback : (m.cells c).callback.isSome) :
    (m.cells c).calls = 1 := by
  obtain ⟨cb, hcb⟩ := Option.isSome_iff_exists.mp hcallback
  have hfree := h.inv.future_add_callback c
  rw [hcb, written_some] at hfree
  have hc : c < m.size := by
    by_contra hnot
    simp [Memory.made, hnot] at hfree
  obtain ⟨v, hfed⟩ := h.exists_fed hc
  obtain ⟨d, hd, hvalue⟩ := hfed.delivered h.inv
  obtain rfl := Option.some.inj hd
  exact h.inv.called (by rw [hcb]; simp) (by rw [hvalue]; simp)

/-- Then no call is still to come. -/
theorem Flow.log_eq
    {top : Chain V E}
    {m : Memory V E}
    (h : Flow top m []) :
    (m.log : Multiset E) = top.trace := by
  obtain ⟨val, _, htrace⟩ := h.made
  have hcells : ∀ c ∈ Finset.range m.size, ((m.cells c).trace (val c) : Multiset E) = 0 := by
    intro c _
    cases hcb : (m.cells c).callback with
    | none => simp [SharedState.trace, hcb]
    | some cb =>
        have hone : (m.cells c).calls = 1 := h.called (by rw [hcb]; rfl)
        simp [SharedState.trace, hone]
  rw [toCome, Finset.sum_eq_zero hcells, List.flatMap_nil, Multiset.coe_nil, add_zero,
    add_zero] at htrace
  exact htrace

/--
In every state of every interleaving: no assertion of `transit` fails, nothing is
written twice, a callback is called at most once, after both writes, and no
continuation is called more often than the chain says.  When no thread has
anything left to do, every callback has been called exactly once, the continuations
have been called as the chain says, and the last future has the value of the whole
chain.
-/
theorem futures_deliver_once
    (chain : Chain V E)
    {s : ThreadPool (Memory V E) (Command V E)}
    (h : ThreadPool.Reaches exec (start chain) s) :
    s.shared.fault = none ∧
      (∀ c v, .setValue c v ∈ s.pending → (s.shared.cells c).value = none) ∧
      (∀ c cb, .setCallback c cb ∈ s.pending →
        (s.shared.cells c).callback = none) ∧
      (∀ c, .call c ∈ s.pending ∨ 0 < (s.shared.cells c).calls →
        (s.shared.cells c).value.isSome ∧ (s.shared.cells c).callback.isSome) ∧
      (∀ c, (s.shared.cells c).calls ≤ 1) ∧
      s.shared.log.Subperm chain.trace ∧
      (s.Quiescent →
        (∀ c, (s.shared.cells c).callback.isSome →
          (s.shared.cells c).calls = 1) ∧
        s.shared.log.Perm chain.trace ∧
        ∃ c, s.shared.last = some c ∧
          (s.shared.cells c).value = some chain.result) := by
  have hflow := Flow.of_reaches h
  have hI := hflow.inv
  have hone : ∀ c, (s.shared.cells c).calls ≤ 1 := by
    intro c
    have hcalls := hI.calls_le c
    have hle := hI.future_add_callback c
    have hmade := s.shared.made_le_one c
    omega
  have hlog : s.shared.log.Subperm chain.trace := by
    obtain ⟨val, _, htrace⟩ := hflow.made
    rw [← Multiset.coe_le, ← htrace]
    exact Multiset.le_add_right _ _
  refine ⟨hI.fault, fun _ _ => hI.value_of_setValue, fun _ _ => hI.callback_of_setCallback,
    fun c => hI.both_written, hone, hlog, fun hquiescent => ?_⟩
  have hempty : s.pending = [] := hquiescent
  rw [hempty] at hflow hI
  exact ⟨fun c => hflow.called, Multiset.coe_eq_coe.mp hflow.log_eq,
    hflow.result.delivered hI⟩

/--
A promise is set by one thread while the other one makes the `then` calls, with a
void continuation and one that returns the future of another promise.
-/
theorem futures_deliver_once_then :
    letI : HasUnit Nat := ⟨0⟩
    let chain : Chain Nat (String × Nat) :=
      .thenFuture (.thenVoid (.makePromise 3) (("print", ·))) (("request", ·)) fun _ =>
        .thenValue (.makePromise 4) (("increment", ·)) (· + 1)
    ∃ s, ThreadPool.Reaches exec (start chain) s ∧ s.Quiescent ∧
      s.shared.log.Perm [("print", 3), ("request", 0), ("increment", 4)] ∧
      ∃ c, s.shared.last = some c ∧ (s.shared.cells c).value = some 5 := by
  let : HasUnit Nat := ⟨0⟩
  intro chain
  have hrun : ((start chain).schedule exec
      [0, 0, 0, 1, 0, 0, 0, 1, 0, 1, 0, 1, 1, 0, 1, 0, 1, 1, 1, 1, 2, 1, 2, 1, 1, 1, 1, 1,
        1, 1, 1, 1, 1, 1, 1, 1, 1, 1]).map (fun s => s.pending.isEmpty) = some true := by
    decide +kernel
  obtain ⟨s, hschedule, hempty⟩ := Option.map_eq_some_iff.mp hrun
  have hquiescent : s.Quiescent := List.isEmpty_iff.mp hempty
  have hreaches := ThreadPool.reaches_schedule hschedule
  have hall := futures_deliver_once chain hreaches
  obtain ⟨_, hlog, c, hlast, hvalue⟩ := hall.2.2.2.2.2.2 hquiescent
  exact ⟨s, hreaches, hquiescent, hlog, c, hlast, hvalue⟩

end Futures

end AgencyNode
