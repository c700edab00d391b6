import Mathlib.Data.List.Nodup
import Mathlib.Data.List.Infix

/-!
# The time-to-live queue of store.h

`store_ttl` keeps a list of paths with the time at which they are to be
removed.  The mutex `ttl_queue_guard` makes `set_ttl`, `remove_ttl` and every
round of `run_queue_thread` one atomic step each, so a run is a sequence of
such steps, each taken at the time its clock shows.

The list is kept as intended: one entry for a path, with the deadline set last.
The round of the queue thread compares with the clock the wrong way round.
-/

namespace AgencyNode

/-- `clock_type::time_point`. -/
abbrev TimePoint := Int

/-- `clock_type::duration`. -/
abbrev Duration := Int

/-- `store_ttl::ttl_entry`. -/
structure TtlEntry where
  path : String
  endOfLife : TimePoint
deriving DecidableEq, Repr

/-- `store_ttl::ttl_list`. -/
abbrev TtlList := List TtlEntry

namespace TtlList

/-- `store_ttl::set_ttl`. -/
def setTtl
    (ttlList : TtlList)
    (now : TimePoint)
    (path : String)
    (ttl : Duration) : TtlList :=
  let endOfLife := now + ttl
  match ttlList.findIdx? (fun e => e.path == path) with
  | none => ttlList ++ [⟨path, endOfLife⟩]
  | some i => ttlList.modify i fun e => { e with endOfLife := endOfLife }

/-- `store_ttl::remove_ttl`. -/
def removeTtl
    (ttlList : TtlList)
    (path : String) : TtlList :=
  ttlList.filter fun e => e.path != path

/-- The lambda `isExpired` of `store_ttl::run_queue_thread`. -/
def isExpired
    (now : TimePoint)
    (e : TtlEntry) : Bool :=
  e.endOfLife > now

/-- The paths in `remove_actions` at the end of a round. -/
def removeActions
    (ttlList : TtlList)
    (now : TimePoint) : List String :=
  (ttlList.filter (isExpired now)).map TtlEntry.path

/-- What a round of `store_ttl::run_queue_thread` leaves in the list. -/
def runQueue
    (ttlList : TtlList)
    (now : TimePoint) : TtlList :=
  ttlList.filter fun e => !isExpired now e

end TtlList

/-- A step of a client or of the queue thread. -/
inductive TtlAction where
  | setTtl (path : String) (ttl : Duration)
  | removeTtl (path : String)
  | runQueue
deriving DecidableEq, Repr

/-- A step with the time at which it is taken. -/
abbrev TimedAction := TimePoint × TtlAction

/-- The list after one more step. -/
def ttlStep
    (ttlList : TtlList) : TimedAction → TtlList
  | (now, .setTtl path ttl) => ttlList.setTtl now path ttl
  | (_, .removeTtl path) => ttlList.removeTtl path
  | (now, .runQueue) => ttlList.runQueue now

/-- The list after a run, which starts with the empty list. -/
def ttlAfter
    (actions : List TimedAction) : TtlList :=
  actions.foldl ttlStep []

/-- The deadline of the latest `set_ttl` for a path in a run. -/
def latestSetTtl
    (actions : List TimedAction)
    (path : String) : Option TimePoint :=
  actions.foldl
    (fun latest action =>
      match action with
      | (now, .setTtl p ttl) => if p = path then some (now + ttl) else latest
      | _ => latest)
    none

/-! ## The list between two rounds -/

namespace TtlList

/-- Every path has one entry at most. -/
def UniquePaths
    (ttlList : TtlList) : Prop :=
  (ttlList.map TtlEntry.path).Nodup

theorem UniquePaths.filter
    {ttlList : TtlList}
    (h : ttlList.UniquePaths)
    (keep : TtlEntry → Bool) :
    UniquePaths (List.filter keep ttlList) :=
  List.Nodup.sublist (List.filter_sublist.map TtlEntry.path) h

/-- `set_ttl` changes the paths in the list only if it adds one. -/
theorem map_path_setTtl
    (ttlList : TtlList)
    (now : TimePoint)
    (path : String)
    (ttl : Duration) :
    (ttlList.setTtl now path ttl).map TtlEntry.path =
      if path ∈ ttlList.map TtlEntry.path then
        ttlList.map TtlEntry.path
      else
        ttlList.map TtlEntry.path ++ [path] := by
  unfold setTtl
  cases hfind : ttlList.findIdx? (fun e => e.path == path) with
  | none =>
      have hnot : path ∉ ttlList.map TtlEntry.path := by
        intro hmem
        obtain ⟨e, he, hpath⟩ := List.mem_map.mp hmem
        have := List.findIdx?_eq_none_iff.mp hfind e he
        simp [hpath] at this
      simp [hnot]
  | some i =>
      obtain ⟨hi, hpath, _⟩ := List.findIdx?_eq_some_iff_getElem.mp hfind
      have hmem : path ∈ ttlList.map TtlEntry.path := by
        rw [List.mem_map]
        exact ⟨ttlList[i], List.getElem_mem hi, by simpa using hpath⟩
      rw [if_pos hmem]
      apply List.ext_getElem?
      intro j
      by_cases hij : i = j
      · simp only [List.getElem?_map, List.getElem?_modify, hij, if_true]
        cases ttlList[j]? <;> rfl
      · simp [hij]

theorem UniquePaths.setTtl
    {ttlList : TtlList}
    (h : ttlList.UniquePaths)
    (now : TimePoint)
    (path : String)
    (ttl : Duration) :
    (ttlList.setTtl now path ttl).UniquePaths := by
  unfold UniquePaths
  rw [map_path_setTtl]
  split
  · exact h
  · rename_i hnot
    exact List.nodup_append_comm.mp (List.nodup_cons.mpr ⟨hnot, h⟩)

/-- `set_ttl` replaces the entry of its path and no other. -/
theorem mem_setTtl
    {ttlList : TtlList}
    (h : ttlList.UniquePaths)
    {now : TimePoint}
    {path : String}
    {ttl : Duration}
    {e : TtlEntry}
    (he : e ∈ ttlList.setTtl now path ttl) :
    e = ⟨path, now + ttl⟩ ∨ (e ∈ ttlList ∧ e.path ≠ path) := by
  unfold setTtl at he
  cases hfind : ttlList.findIdx? (fun e => e.path == path) with
  | none =>
      rw [hfind] at he
      rcases List.mem_append.mp he with he | he
      · have hne := List.findIdx?_eq_none_iff.mp hfind e he
        exact .inr ⟨he, by simpa using hne⟩
      · exact .inl (List.mem_singleton.mp he)
  | some i =>
      rw [hfind] at he
      obtain ⟨hi, hpath, _⟩ := List.findIdx?_eq_some_iff_getElem.mp hfind
      have hpath : ttlList[i].path = path := by simpa using hpath
      obtain ⟨j, hj, hej⟩ := List.mem_iff_getElem.mp he
      rw [List.length_modify] at hj
      rw [List.getElem_modify] at hej
      split at hej
      · rename_i hij
        subst hij
        left
        rw [← hej, ← hpath]
      · rename_i hij
        right
        refine ⟨hej ▸ List.getElem_mem hj, ?_⟩
        rw [← hej, ← hpath]
        -- Two entries of one path would stand at one place.
        intro heq
        have hi' : i < (ttlList.map TtlEntry.path).length := by
          rw [List.length_map]
          exact hi
        have hj' : j < (ttlList.map TtlEntry.path).length := by
          rw [List.length_map]
          exact hj
        have hpaths : (ttlList.map TtlEntry.path)[j] =
            (ttlList.map TtlEntry.path)[i] := by
          rw [List.getElem_map, List.getElem_map]
          exact heq
        exact hij ((List.Nodup.getElem_inj_iff h).mp hpaths).symm

/-- Every entry carries the deadline that has been set last for its path. -/
def CarriesLatest
    (ttlList : TtlList)
    (actions : List TimedAction) : Prop :=
  ∀ e ∈ ttlList, latestSetTtl actions e.path = some e.endOfLife

end TtlList

theorem latestSetTtl_append
    (actions : List TimedAction)
    (action : TimedAction)
    (path : String) :
    latestSetTtl (actions ++ [action]) path =
      match action with
      | (now, .setTtl p ttl) =>
          if p = path then some (now + ttl) else latestSetTtl actions path
      | _ => latestSetTtl actions path := by
  rw [latestSetTtl, List.foldl_append]
  rfl

/-- **One step of the store keeps the list in order.** -/
theorem ttlStep_keeps
    {ttlList : TtlList}
    {actions : List TimedAction}
    (hunique : ttlList.UniquePaths)
    (hlatest : ttlList.CarriesLatest actions)
    (action : TimedAction) :
    (ttlStep ttlList action).UniquePaths ∧
      (ttlStep ttlList action).CarriesLatest (actions ++ [action]) := by
  obtain ⟨now, action⟩ := action
  cases action with
  | setTtl path ttl =>
      refine ⟨hunique.setTtl now path ttl, ?_⟩
      intro e he
      rw [latestSetTtl_append]
      rcases TtlList.mem_setTtl hunique he with rfl | ⟨he, hne⟩
      · exact if_pos rfl
      · exact (if_neg hne.symm).trans (hlatest e he)
  | removeTtl path =>
      refine ⟨hunique.filter _, ?_⟩
      intro e he
      rw [latestSetTtl_append]
      exact hlatest e (List.mem_filter.mp he).1
  | runQueue =>
      refine ⟨hunique.filter _, ?_⟩
      intro e he
      rw [latestSetTtl_append]
      exact hlatest e (List.mem_filter.mp he).1

/-- **After every run the list is in order.** -/
theorem ttlAfter_keeps
    (actions : List TimedAction) :
    (ttlAfter actions).UniquePaths ∧
      (ttlAfter actions).CarriesLatest actions := by
  induction actions using List.reverseRecOn with
  | nil =>
      refine ⟨List.nodup_nil, ?_⟩
      intro e he
      cases he
  | append_singleton actions action ih =>
      have hstep : ttlAfter (actions ++ [action]) =
          ttlStep (ttlAfter actions) action := by
        rw [ttlAfter, List.foldl_append]
        rfl
      rw [hstep]
      exact ttlStep_keeps ih.1 ih.2 action

/-! ## A round of the queue thread -/

/--
A round expires the entries whose deadline has passed: it removes their paths,
each of them once, and drops these entries and no others.
-/
structure Expires
    (ttlList : TtlList)
    (now : TimePoint) : Prop where
  removed : ∀ path, path ∈ ttlList.removeActions now ↔
    ∃ e ∈ ttlList, e.path = path ∧ e.endOfLife ≤ now
  once : (ttlList.removeActions now).Nodup
  kept : ∀ e, e ∈ ttlList.runQueue now ↔ e ∈ ttlList ∧ ¬ e.endOfLife ≤ now

/-- A round drops an entry exactly if its deadline has not passed. -/
theorem TtlList.mem_runQueue
    {ttlList : TtlList}
    {now : TimePoint}
    {e : TtlEntry} :
    e ∈ ttlList.runQueue now ↔ e ∈ ttlList ∧ e.endOfLife ≤ now := by
  simp [TtlList.runQueue, TtlList.isExpired]

/-- Whatever stands in the list, a round treats it the wrong way. -/
theorem expires_iff
    {ttlList : TtlList}
    {now : TimePoint} :
    Expires ttlList now ↔ ttlList = [] := by
  constructor
  · intro h
    rw [List.eq_nil_iff_forall_not_mem]
    intro e he
    by_cases hdue : e.endOfLife ≤ now
    · have hkept := (h.kept e).mp (TtlList.mem_runQueue.mpr ⟨he, hdue⟩)
      exact hkept.2 hdue
    · have hkept := (h.kept e).mpr ⟨he, hdue⟩
      exact hdue (TtlList.mem_runQueue.mp hkept).2
  · rintro rfl
    exact ⟨by simp [TtlList.removeActions], List.nodup_nil,
      by simp [TtlList.runQueue]⟩

/-- Every round of a run expires what it should. -/
def RoundsExpire
    (actions : List TimedAction) : Prop :=
  ∀ before now after, actions = before ++ (now, .runQueue) :: after →
    Expires (ttlAfter before) now

/--
**Time to live over a run**: the list never has two entries for a path and
always the latest deadlines, but the rounds expire what they should only if
every one of them finds the list empty.
-/
theorem ttl_run
    (actions : List TimedAction) :
    ((ttlAfter actions).UniquePaths ∧
      (ttlAfter actions).CarriesLatest actions) ∧
    (RoundsExpire actions ↔
      ∀ before now after, actions = before ++ (now, .runQueue) :: after →
        ttlAfter before = []) := by
  refine ⟨ttlAfter_keeps actions, ?_⟩
  constructor
  · intro h before now after hsplit
    exact expires_iff.mp (h before now after hsplit)
  · intro h before now after hsplit
    exact expires_iff.mpr (h before now after hsplit)

/-- A round right after `set_ttl` removes the path, and one at its deadline does not. -/
theorem ttl_run_inverted :
    let fresh : List TimedAction := [(0, .setTtl "/a" 10), (1, .runQueue)]
    let due : List TimedAction := [(0, .setTtl "/a" 10), (10, .runQueue)]
    ((ttlAfter [(0, .setTtl "/a" 10)]).removeActions 1 = ["/a"] ∧
        ttlAfter fresh = []) ∧
      ((ttlAfter [(0, .setTtl "/a" 10)]).removeActions 10 = [] ∧
        ttlAfter due = [⟨"/a", 10⟩]) ∧
      ¬ RoundsExpire fresh ∧ ¬ RoundsExpire due := by
  intro fresh due
  refine ⟨by decide, by decide, ?_, ?_⟩
  · intro h
    have hempty := expires_iff.mp (h [(0, .setTtl "/a" 10)] 1 [] rfl)
    revert hempty
    decide
  · intro h
    have hempty := expires_iff.mp (h [(0, .setTtl "/a" 10)] 10 [] rfl)
    revert hempty
    decide

end AgencyNode
