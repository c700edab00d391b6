import AgencyNode.Tree

/-!
# `node::transform`

The operators of one `transform` read the tree as it was before the call while
their results are written into the tree that accumulates.  For actions at
canonical paths, none of which is a prefix of another, the two can not be told
apart: every result arrives, and everything else stays.

The result depends on the order of the actions where one of them converts an
array that another one pads or prunes, and where one of them removes something
from an object that another one has yet to create.  Without such a pair every
order gives the same tree.
-/

namespace AgencyNode

open Lib

variable {D : Type}

/-- A path with a total function on `node_ptr`. -/
abbrev TotalAction (D : Type) := Path × (NodePtr D → NodePtr D)

namespace TotalAction

/-- The action that applies the function. -/
def toAction (a : TotalAction D) : TransformAction D :=
  (a.1, fun node => .ok (a.2 node))

end TotalAction

namespace Node

/-- What the actions write, given the tree before the transform. -/
def writes (n : Node D) (l : List (TotalAction D)) : List (Path × NodePtr D) :=
  l.map (fun a => (a.1, a.2 (n.get a.1)))

/-- One write after the other. -/
def writeAll (c : NodePtr D) (l : List (Path × NodePtr D)) : NodePtr D :=
  l.foldl (fun c e => (nodeContainer D).set c e.1 e.2) c

/-- **`transform` writes the results one after the other.** -/
theorem transform_eq
    (n : Node D)
    (l : List (TotalAction D))
    (hl : ∀ a ∈ l, a.1 ≠ [] ∧ PathInBounds a.1) :
    ∃ r, n.transform (l.map TotalAction.toAction) = .ok (some r) ∧
      some r = writeAll (some n) (n.writes l) := by
  -- The accumulator runs over all trees, the operators keep reading `n`.
  have hrun : ∀ cur : Node D,
      ∃ r, (l.map TotalAction.toAction).foldlM (transformStep n) (some cur) =
          .ok (some r) ∧
        some r = writeAll (some cur) (n.writes l) := by
    induction l with
    | nil =>
        intro cur
        exact ⟨cur, rfl, rfl⟩
    | cons a l ih =>
        intro cur
        obtain ⟨hne, hbounds⟩ := hl a List.mem_cons_self
        obtain ⟨m, hm, hset⟩ :=
          cur.set_eq_some a.1 (a.2 (n.get a.1)) (hbounds.indexUse _) hne
        obtain ⟨r, hr, hwrites⟩ :=
          ih (fun b hb => hl b (List.mem_cons_of_mem _ hb)) m
        refine ⟨r, ?_, ?_⟩
        · have hstep :
              transformStep n (some cur) a.toAction = .ok (some m) := hm
          rw [List.map_cons, List.foldlM_cons, hstep, Exec.ok_bind, hr]
        · rw [hwrites, hset]
          rfl
  exact hrun n

theorem mem_writes
    {n : Node D}
    {l : List (TotalAction D)}
    {e : Path × NodePtr D} :
    e ∈ n.writes l ↔ ∃ a ∈ l, (a.1, a.2 (n.get a.1)) = e := by
  simp [writes]

theorem writes_canonical
    {n : Node D}
    {l : List (TotalAction D)}
    (hl : ∀ a ∈ l, CanonicalPath a.1) :
    ∀ e ∈ n.writes l, ∀ key ∈ e.1, (nodeRep D).Canonical key := by
  intro e he
  obtain ⟨a, ha, rfl⟩ := mem_writes.mp he
  exact (hl a ha).canonical

/--
**`transform` applies its operations simultaneously**: each result is what the
operator computes on the tree before the transform, and what is there at a path
unrelated to all actions stays.
-/
theorem transform_simultaneous
    (n : Node D)
    (l : List (TotalAction D))
    (hne : ∀ a ∈ l, a.1 ≠ [])
    (hcanonical : ∀ a ∈ l, CanonicalPath a.1)
    (hpairwise : l.Pairwise (fun a b => Container.Incomparable a.1 b.1)) :
    ∃ r, n.transform (l.map TotalAction.toAction) = .ok (some r) ∧
      (∀ a ∈ l, r.get a.1 = a.2 (n.get a.1)) ∧
      ∀ q, CanonicalPath q → (∀ a ∈ l, Container.Incomparable a.1 q) →
        n.get q ≠ none → r.get q = n.get q := by
  obtain ⟨r, hr, hwrites⟩ :=
    n.transform_eq l (fun a ha => ⟨hne a ha, (hcanonical a ha).inBounds⟩)
  have hkeys := writes_canonical (n := n) hcanonical
  refine ⟨r, hr, ?_, ?_⟩
  · intro a ha
    have hdistinct :
        (n.writes l).Pairwise (fun e f => Container.Incomparable e.1 f.1) :=
      List.pairwise_map.mpr hpairwise
    rw [r.get_eq a.1 ((hcanonical a ha).inBounds.indexUse _), hwrites]
    exact TreeRep.get_foldl_set (some n) hkeys hdistinct
      (a.1, a.2 (n.get a.1)) (mem_writes.mpr ⟨a, ha, rfl⟩)
  · intro q hq hlq hget
    have hqn := n.get_eq q (hq.inBounds.indexUse _)
    rw [hqn] at hget
    rw [r.get_eq q (hq.inBounds.indexUse _), hwrites, hqn]
    refine (TreeRep.present_of_get_ne_none hget).foldl_set hq.canonical hkeys ?_
    intro e he
    obtain ⟨a, ha, rfl⟩ := mem_writes.mp he
    exact hlq a ha

/-- Two operations on one array, one of which removes an element. -/
theorem transform_simultaneous_array :
    let n : Node Int :=
      .object [("a", some (.array [some (.bool true), some (.bool false)]))]
    ∃ r, n.transform (List.map TotalAction.toAction
          [(["a", "0"], fun _ => none), (["a", "3"], fun _ => n.get ["a", "0"])]) =
        .ok (some r) ∧
      r.get ["a", "0"] = none ∧ r.get ["a", "3"] = some (.bool true) ∧
      r.get ["a", "1"] = some (.bool false) := by
  intro n
  obtain ⟨r, hr, hresults, hframe⟩ :=
    transform_simultaneous n
      [(["a", "0"], fun _ => none), (["a", "3"], fun _ => n.get ["a", "0"])]
      (by decide) (by decide) (by decide)
  refine ⟨r, hr, ?_, ?_, ?_⟩
  · exact hresults (["a", "0"], fun _ => none) (by simp)
  · exact hresults (["a", "3"], fun _ => n.get ["a", "0"]) (by simp)
  · exact hframe ["a", "1"] (by decide) (by decide) (Option.some_ne_none _)

/-- An element of an array also answers to numerals with leading zeros. -/
theorem transform_alias :
    ¬ ∀ (n : Node Int) (l : List (TotalAction Int)),
      (∀ a ∈ l, a.1 ≠ []) → (∀ a ∈ l, CanonicalPath a.1) →
      l.Pairwise (fun a b => Container.Incomparable a.1 b.1) →
      ∃ r, n.transform (l.map TotalAction.toAction) = .ok (some r) ∧
        (∀ a ∈ l, r.get a.1 = a.2 (n.get a.1)) ∧
        ∀ q, (∀ a ∈ l, Container.Incomparable a.1 q) →
          n.get q ≠ none → r.get q = n.get q := by
  intro h
  obtain ⟨r, hr, _, hframe⟩ :=
    h (.object [("a", some (.array [some (.bool true)]))])
      [(["a", "0"], fun _ => some (.bool false))]
      (by decide) (by decide) (by decide)
  have hq := hframe ["a", "00"] (by decide) (Option.some_ne_none _)
  cases hr
  cases hq

/-! ## The order of the actions -/

/--
The order of writing `v` at `p` and `w` at `q` does not show in the tree: at the
node where the paths part, neither write pads or prunes an array the other one
converts, and neither removes something from an object that is not there yet.
-/
def Independent (n : Node D) (p : Path) (v : NodePtr D) (q : Path) (w : NodePtr D) :
    Prop :=
  (nodeRep D).Independent (some n) p (v = none) q (w = none)

theorem denotePtr_writeAll
    (c : NodePtr D)
    (l : List (Path × NodePtr D)) :
    denotePtr (writeAll c l) =
      (l.map (fun e => (e.1, denotePtr e.2))).foldl
        (fun c e => (treeRep D).container.set c e.1 e.2) (denotePtr c) := by
  induction l generalizing c with
  | nil =>
      rfl
  | cons e l ih =>
      rw [List.map_cons, List.foldl_cons, ← denotePtr_set]
      exact ih _

/-- Independent writes give the same tree in every order. -/
theorem writeAll_perm
    (n : Node D)
    {l l' : List (Path × NodePtr D)}
    (hperm : l.Perm l')
    (hcanonical : ∀ e ∈ l, CanonicalPath e.1)
    (hindep : l.Pairwise (fun e f => n.Independent e.1 e.2 f.1 f.2)) :
    NodePtr.Equal (writeAll (some n) l) (writeAll (some n) l') := by
  unfold NodePtr.Equal
  rw [denotePtr_writeAll, denotePtr_writeAll]
  refine treeRep_extensional.foldl_set_perm _ (hperm.map _) ?_ ?_
  · intro e he
    obtain ⟨f, hf, rfl⟩ := List.mem_map.mp he
    exact (hcanonical f hf).canonical (D := D)
  · refine List.pairwise_map.mpr (hindep.imp ?_)
    intro e f h
    simp only [denotePtr_eq_none]
    exact (denoteHom D).independent_map h

/--
**The order of independent operations does not matter**, neither for the actions
of one transform nor for two calls of `set`.
-/
theorem transform_perm
    (n : Node D)
    (l l' : List (TotalAction D))
    (hperm : l.Perm l')
    (hne : ∀ a ∈ l, a.1 ≠ [])
    (hcanonical : ∀ a ∈ l, CanonicalPath a.1)
    (hindep : l.Pairwise (fun a b =>
      n.Independent a.1 (a.2 (n.get a.1)) b.1 (b.2 (n.get b.1)))) :
    (∃ r r', n.transform (l.map TotalAction.toAction) = .ok (some r) ∧
      n.transform (l'.map TotalAction.toAction) = .ok (some r') ∧
      r.Equal r') ∧
    ∀ p q v w, CanonicalPath p → CanonicalPath q → n.Independent p v q w →
      ∃ m m' r r', n.set p v = .ok (some m) ∧ m.set q w = .ok (some r) ∧
        n.set q w = .ok (some m') ∧ m'.set p v = .ok (some r') ∧
        r.Equal r' := by
  refine ⟨?_, ?_⟩
  · obtain ⟨r, hr, hwrites⟩ :=
      n.transform_eq l (fun a ha => ⟨hne a ha, (hcanonical a ha).inBounds⟩)
    obtain ⟨r', hr', hwrites'⟩ := n.transform_eq l' (by
      intro a ha
      have ha := hperm.mem_iff.mpr ha
      exact ⟨hne a ha, (hcanonical a ha).inBounds⟩)
    refine ⟨r, r', hr, hr', ?_⟩
    rw [← NodePtr.equal_some_iff, hwrites, hwrites']
    refine n.writeAll_perm (hperm.map _) ?_ (List.pairwise_map.mpr hindep)
    intro e he
    obtain ⟨a, ha, rfl⟩ := mem_writes.mp he
    exact hcanonical a ha
  · intro p q v w hp hq hpq
    have hpb := fun c : NodePtr D => hp.inBounds.indexUse c
    have hqb := fun c : NodePtr D => hq.inBounds.indexUse c
    obtain ⟨m, hm, hmset⟩ := n.set_eq_some p v (hpb _) hpq.1.ne_nil
    obtain ⟨r, hr, hrset⟩ := m.set_eq_some q w (hqb _) hpq.1.symm.ne_nil
    obtain ⟨m', hm', hmset'⟩ := n.set_eq_some q w (hqb _) hpq.1.symm.ne_nil
    obtain ⟨r', hr', hrset'⟩ := m'.set_eq_some p v (hpb _) hpq.1.ne_nil
    refine ⟨m, m', r, r', hm, hr, hm', hr', ?_⟩
    rw [← NodePtr.equal_some_iff, hrset, hrset', hmset, hmset']
    have hswap : [(p, v), (q, w)].Perm [(q, w), (p, v)] :=
      List.Perm.swap _ _ _
    refine n.writeAll_perm hswap ?_ ?_
    · intro e he
      simp only [List.mem_cons, List.not_mem_nil, or_false] at he
      rcases he with rfl | rfl
      · exact hp
      · exact hq
    · exact List.pairwise_pair.mpr hpq

/-- Two operations on one array, at its end and in its middle. -/
theorem transform_perm_array :
    let n : Node Int :=
      .object [("a", some (.array [some (.bool true), some (.bool false)]))]
    ∃ r r',
      n.transform (List.map TotalAction.toAction
        [(["a", "2"], fun _ => some .null), (["a", "0"], fun _ => none)]) =
          .ok (some r) ∧
      n.transform (List.map TotalAction.toAction
        [(["a", "0"], fun _ => none), (["a", "2"], fun _ => some .null)]) =
          .ok (some r') ∧
      r.Equal r' := by
  intro n
  refine (transform_perm n
    [(["a", "2"], fun _ => some .null), (["a", "0"], fun _ => none)]
    [(["a", "0"], fun _ => none), (["a", "2"], fun _ => some .null)]
    (List.Perm.swap _ _ _) (by decide) (by decide) ?_).1
  refine List.pairwise_pair.mpr ?_
  exact TreeRep.independent_cons_self (TreeRep.independent_cons_ne (by decide) trivial)

theorem Equal.get_eq_none
    {n m : Node D}
    (h : n.Equal m)
    {p : Path}
    (hp : PathInBounds p)
    (hn : n.get p = none) :
    m.get p = none := by
  rw [m.get_eq p (hp.indexUse _), ← denotePtr_eq_none, denotePtr_get,
    denotePtr, ← h]
  rw [n.get_eq p (hp.indexUse _), ← denotePtr_eq_none, denotePtr_get] at hn
  exact hn

/-- Padding an array and then converting it is not converting it first. -/
theorem transform_order :
    ¬ ∀ (s : Slice Int) (n : Node Int) (l l' : List (TotalAction Int)),
      fromSlice s = .ok (some n) → l.Perm l' →
      (∀ a ∈ l, a.1 ≠ []) →
      (∀ a ∈ l, ∀ key ∈ a.1,
        key ≠ "" ∧ (AllDigits key → CanonicalNumeral key)) →
      l.Pairwise (fun a b => Container.Incomparable a.1 b.1) →
      ∃ r r', n.transform (l.map TotalAction.toAction) = .ok (some r) ∧
        n.transform (l'.map TotalAction.toAction) = .ok (some r') ∧
        r.Equal r' := by
  intro h
  have hkeys : ∀ key ∈ ["a", "x", "2"],
      key ≠ "" ∧ (AllDigits key → CanonicalNumeral key) := by
    intro key hkey
    have hcanonical : CanonicalComponent key := by
      revert key
      decide
    refine ⟨hcanonical.1, ?_⟩
    intro hdigits
    obtain ⟨i, _, hi⟩ := hcanonical.2 hdigits
    exact ⟨i, hi⟩
  obtain ⟨r, r', hr, hr', hequal⟩ :=
    h (some (.object [("a", .array [])]))
      (.object [("a", some (.array []))])
      [(["a", "x"], fun _ => some .null), (["a", "2"], fun _ => some .null)]
      [(["a", "2"], fun _ => some .null), (["a", "x"], fun _ => some .null)]
      rfl (List.Perm.swap _ _ _) (by decide) (by
        intro a ha key hkey
        apply hkeys
        simp only [List.mem_cons, List.not_mem_nil, or_false] at ha
        rcases ha with rfl | rfl
        · simp only [List.mem_cons, List.not_mem_nil, or_false] at hkey
          rcases hkey with rfl | rfl <;> simp
        · simp only [List.mem_cons, List.not_mem_nil, or_false] at hkey
          rcases hkey with rfl | rfl <;> simp)
      (by decide)
  cases hr
  cases hr'
  have hnone := hequal.get_eq_none (p := ["a", "0"]) (by decide) rfl
  cases hnone

end Node

end AgencyNode
