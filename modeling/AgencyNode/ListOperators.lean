import AgencyNode.Completeness
import AgencyNode.NodeOperations

/-!
# Operators on a list at a path

`push`, `prepend`, `pop`, `shift`, `erase` and `increment` at one path treat what
is found there as a double-ended list, or as a number.  The reference machine
says so for a value that is absent or a node; single transforms at the path do
to the value there what the machine does.
-/

namespace AgencyNode

open Lib

variable {D : Type}

/-- An operator on a list or on a number, with its argument. -/
inductive ListOperator (D : Type) where
  | push (x : Node D)
  | prepend (x : Node D)
  | pop
  | shift
  | erase (x : Node D)
  | increment (delta : D)

namespace ListOperator

/-- The node that is given to the operator holds no `nullptr`. -/
def Complete : ListOperator D → Prop
  | .push x => x.Complete
  | .prepend x => x.Complete
  | .erase x => x.Complete
  | _ => True

section Operators

variable [StdHash] [Double D]

/-- The operator that the transform is given. -/
def transformation : ListOperator D → Transformation D
  | .push x => pushOperator (some x)
  | .prepend x => prependOperator (some x)
  | .pop => popOperator
  | .shift => shiftOperator
  | .erase x => eraseOperator (some x)
  | .increment delta => incrementOperator delta

/-! ## The reference machine -/

/-- The value is no list: it is absent, or a node of another type. -/
def NoList (c : NodePtr D) : Prop :=
  ∀ l, c ≠ some (.array l)

/-- One step of the machine on a value that is absent or a node. -/
inductive Step : ListOperator D → NodePtr D → NodePtr D → Prop
  | push
      (x : Node D)
      (l : NodeArray D) :
      Step (.push x) (some (.array l)) (some (.array (l ++ [some x])))
  | pushNew
      (x : Node D)
      {c : NodePtr D}
      (hc : NoList c) :
      Step (.push x) c (some (.array [some x]))
  | prepend
      (x : Node D)
      (l : NodeArray D) :
      Step (.prepend x) (some (.array l)) (some (.array (some x :: l)))
  | prependNew
      (x : Node D)
      {c : NodePtr D}
      (hc : NoList c) :
      Step (.prepend x) c (some (.array [some x]))
  | pop
      (l : NodeArray D) :
      Step .pop (some (.array l)) (some (.array l.dropLast))
  | popNone
      {c : NodePtr D}
      (hc : NoList c) :
      Step .pop c c
  | shift
      (l : NodeArray D) :
      Step .shift (some (.array l)) (some (.array l.tail))
  | shiftNone
      {c : NodePtr D}
      (hc : NoList c) :
      Step .shift c c
  /-- The first element that is equal is dropped. -/
  | erase
      (x : Node D)
      (front : NodeArray D)
      (element : NodePtr D)
      (back : NodeArray D)
      (hfront : ∀ e ∈ front, Node.ptrEq (some x) e = .ok false)
      (hequal : Node.ptrEq (some x) element = .ok true) :
      Step (.erase x) (some (.array (front ++ element :: back)))
        (some (.array (front ++ back)))
  | eraseMissing
      (x : Node D)
      (l : NodeArray D)
      (hl : ∀ e ∈ l, Node.ptrEq (some x) e = .ok false) :
      Step (.erase x) (some (.array l)) (some (.array l))
  | eraseNone
      (x : Node D)
      {c : NodePtr D}
      (hc : NoList c) :
      Step (.erase x) c c
  | increment
      (delta v : D) :
      Step (.increment delta) (some (.double v))
        (some (.double (Double.add v delta)))
  | incrementNew
      (delta : D)
      {c : NodePtr D}
      (hc : ∀ v, c ≠ some (.double v)) :
      Step (.increment delta) c (some (.double delta))

/-- A run of the machine, one step for each operator. -/
inductive Run : List (ListOperator D) → NodePtr D → NodePtr D → Prop
  | nil
      (c : NodePtr D) : Run [] c c
  | cons
      {op : ListOperator D}
      {ops : List (ListOperator D)}
      {c d e : NodePtr D}
      (hstep : Step op c d)
      (hrun : Run ops d e) :
      Run (op :: ops) c e

/-! ## What the operators compute -/

omit [StdHash] [Double D] in
theorem pop_eq_dropLast
    (l : NodeArray D) :
    NodeArray.pop l = l.dropLast := by
  unfold NodeArray.pop
  split
  · rename_i hempty
    rw [List.isEmpty_iff.mp hempty]
    rfl
  · exact (List.dropLast_eq_take).symm

omit [StdHash] [Double D] in
theorem shift_eq_tail
    (l : NodeArray D) :
    NodeArray.shift l = l.tail := by
  cases l <;> rfl

omit [StdHash] [Double D] in
theorem noList_or_list
    (c : NodePtr D) :
    NoList c ∨ ∃ l, c = some (.array l) := by
  by_cases h : NoList c
  · exact .inl h
  · unfold NoList at h
    push Not at h
    exact .inr h

omit [StdHash] [Double D] in
/-- An operator for arrays copies any other node. -/
theorem onlyForArray_noList
    {apply : NodeArray D → Exec (NodeArray D)}
    {c : NodePtr D}
    (hc : NoList c) :
    valueOperatorAdapter ⟨true, .onlyForArray apply⟩ c = .ok c := by
  cases c with
  | none =>
      rfl
  | some n =>
      cases n with
      | array l => exact absurd rfl (hc l)
      | _ => rfl

omit [StdHash] [Double D] in
theorem push_noList
    (x : Node D)
    {c : NodePtr D}
    (hc : NoList c) :
    pushOperator (some x) c = .ok (some (.array [some x])) := by
  cases c with
  | none =>
      rfl
  | some n =>
      cases n with
      | array l => exact absurd rfl (hc l)
      | _ => rfl

omit [StdHash] [Double D] in
theorem prepend_noList
    (x : Node D)
    {c : NodePtr D}
    (hc : NoList c) :
    prependOperator (some x) c = .ok (some (.array [some x])) := by
  cases c with
  | none =>
      rfl
  | some n =>
      cases n with
      | array l => exact absurd rfl (hc l)
      | _ => rfl

omit [StdHash] in
theorem increment_new
    (delta : D)
    {c : NodePtr D}
    (hc : ∀ v, c ≠ some (.double v)) :
    incrementOperator delta c = .ok (some (.double delta)) := by
  cases c with
  | none =>
      rfl
  | some n =>
      cases n with
      | double v => exact absurd rfl (hc v)
      | _ => rfl

theorem erase_list
    (x : Node D)
    (l : NodeArray D) :
    eraseOperator (some x) (some (.array l)) =
      (NodeArray.erase (some x) l >>= fun r => .ok (some (.array r))) := by
  rfl

/-- The operator does what the machine does. -/
theorem transformation_of_step
    {op : ListOperator D}
    {c d : NodePtr D}
    (h : Step op c d) :
    op.transformation c = .ok d := by
  cases h with
  | push x l => rfl
  | pushNew x hc => exact push_noList x hc
  | prepend x l => rfl
  | prependNew x hc => exact prepend_noList x hc
  | pop l =>
      rw [← pop_eq_dropLast]
      rfl
  | popNone hc => exact onlyForArray_noList hc
  | shift l =>
      rw [← shift_eq_tail]
      rfl
  | shiftNone hc => exact onlyForArray_noList hc
  | erase x front element back hfront hequal =>
      have herase : NodeArray.erase (some x) (front ++ element :: back) =
          .ok (front ++ back) :=
        NodeArray.erase_eq_ok_iff.mpr (.inl ⟨front, element, back, rfl, hfront, hequal, rfl⟩)
      rw [transformation, erase_list, herase]
      rfl
  | eraseMissing x l hl =>
      have herase : NodeArray.erase (some x) l = .ok l :=
        NodeArray.erase_eq_ok_iff.mpr (.inr ⟨hl, rfl⟩)
      rw [transformation, erase_list, herase]
      rfl
  | eraseNone x hc => exact onlyForArray_noList hc
  | increment delta v => rfl
  | incrementNew delta hc => exact increment_new delta hc

/-- What the operator returns is a step of the machine. -/
theorem step_of_transformation
    {op : ListOperator D}
    {c d : NodePtr D}
    (h : op.transformation c = .ok d) :
    Step op c d := by
  have hstep : ∀ d', Step op c d' → Step op c d := by
    intro d' hd'
    rw [transformation_of_step hd', Except.ok.injEq] at h
    exact h ▸ hd'
  cases op with
  | push x =>
      rcases noList_or_list c with hc | ⟨l, rfl⟩
      · exact hstep _ (.pushNew x hc)
      · exact hstep _ (.push x l)
  | prepend x =>
      rcases noList_or_list c with hc | ⟨l, rfl⟩
      · exact hstep _ (.prependNew x hc)
      · exact hstep _ (.prepend x l)
  | pop =>
      rcases noList_or_list c with hc | ⟨l, rfl⟩
      · exact hstep _ (.popNone hc)
      · exact hstep _ (.pop l)
  | shift =>
      rcases noList_or_list c with hc | ⟨l, rfl⟩
      · exact hstep _ (.shiftNone hc)
      · exact hstep _ (.shift l)
  | erase x =>
      rcases noList_or_list c with hc | ⟨l, rfl⟩
      · exact hstep _ (.eraseNone x hc)
      · rw [transformation, erase_list] at h
        obtain ⟨r, herase, hd⟩ := Exec.bind_eq_ok.mp h
        cases hd
        rcases NodeArray.erase_eq_ok_iff.mp herase with
          ⟨front, element, back, rfl, hfront, hequal, rfl⟩ | ⟨hl, rfl⟩
        · exact .erase x front element back hfront hequal
        · exact .eraseMissing x _ hl
  | increment delta =>
      by_cases hc : ∃ v, c = some (.double v)
      · obtain ⟨v, rfl⟩ := hc
        exact hstep _ (.increment delta v)
      · push Not at hc
        exact hstep _ (.incrementNew delta hc)

/-! ## Runs -/

/-- The single transforms at the path, one after the other. -/
def applyAll
    (p : Path)
    (curNode : NodePtr D)
    (ops : List (ListOperator D)) : Exec (NodePtr D) :=
  ops.foldlM
    (fun curNode op => do
      let node ← curNode.deref
      node.transform [(p, op.transformation)])
    curNode

omit [StdHash] [Double D] in
theorem transform_single
    (n : Node D)
    (p : Path)
    (f : Transformation D) :
    n.transform [(p, f)] = (f (n.get p) >>= fun v => n.set p v) := by
  simp only [Node.transform, List.foldlM_cons, List.foldlM_nil,
    Node.transformStep, NodePtr.deref, Exec.ok_bind, bind_pure]

omit [StdHash] [Double D] in
/-- What is written at the path is read there. -/
theorem exists_set
    {n : Node D}
    {p : Path}
    (hne : p ≠ [])
    (hp : IndexUseInBounds (some n) p)
    (v : NodePtr D) :
    ∃ m, n.set p v = .ok (some m) ∧ m.get p = v ∧
      IndexUseInBounds (some m) p := by
  obtain ⟨m, hm, hset⟩ := n.set_eq_some p v hp hne
  have huse : IndexUseInBounds (some m) p := by
    rw [hset]
    exact hp.set v
  refine ⟨m, hm, ?_, huse⟩
  rw [m.get_eq p huse, hset]
  exact (nodeRep D).get_set_self (some n) p v

/-- One transform is one step of the machine on the value at the path. -/
theorem transform_iff_step
    {n : Node D}
    {p : Path}
    (hne : p ≠ [])
    (hp : IndexUseInBounds (some n) p)
    (op : ListOperator D)
    (c : NodePtr D) :
    (∃ m, n.transform [(p, op.transformation)] = .ok (some m) ∧
      IndexUseInBounds (some m) p ∧ m.get p = c) ↔ Step op (n.get p) c := by
  constructor
  · rintro ⟨m, hm, huse, rfl⟩
    rw [transform_single] at hm
    obtain ⟨v, hv, hset⟩ := Exec.bind_eq_ok.mp hm
    obtain ⟨m', hm', hget, _⟩ := exists_set hne hp v
    rw [hm', Except.ok.injEq, Option.some.injEq] at hset
    rw [← hset, hget]
    exact step_of_transformation hv
  · intro hstep
    obtain ⟨m, hm, hget, huse⟩ := exists_set hne hp c
    refine ⟨m, ?_, huse, hget⟩
    rw [transform_single, transformation_of_step hstep, Exec.ok_bind, hm]

omit [StdHash] [Double D] in
/-- The result of a transform at the path is a tree. -/
theorem exists_of_transform
    {n : Node D}
    {p : Path}
    (hne : p ≠ [])
    (hp : IndexUseInBounds (some n) p)
    {f : Transformation D}
    {r : NodePtr D}
    (h : n.transform [(p, f)] = .ok r) :
    ∃ m, r = some m ∧ IndexUseInBounds (some m) p := by
  rw [transform_single] at h
  obtain ⟨v, _, hset⟩ := Exec.bind_eq_ok.mp h
  obtain ⟨m, hm, _, huse⟩ := exists_set hne hp v
  rw [hm, Except.ok.injEq] at hset
  exact ⟨m, hset.symm, huse⟩

/-- The transforms, one after the other, are a run of the machine. -/
theorem applyAll_iff_run
    {n : Node D}
    {p : Path}
    (hne : p ≠ [])
    (hp : IndexUseInBounds (some n) p)
    (ops : List (ListOperator D))
    (c : NodePtr D) :
    (∃ m, applyAll p (some n) ops = .ok (some m) ∧ m.get p = c) ↔
      Run ops (n.get p) c := by
  induction ops generalizing n with
  | nil =>
      constructor
      · rintro ⟨m, hm, rfl⟩
        cases hm
        exact .nil _
      · rintro ⟨⟩
        exact ⟨n, rfl, rfl⟩
  | cons op ops ih =>
      have hcons : applyAll p (some n) (op :: ops) =
          (n.transform [(p, op.transformation)] >>= fun r => applyAll p r ops) := by
        rfl
      constructor
      · rintro ⟨m, hm, hc⟩
        rw [hcons] at hm
        obtain ⟨r, hr, hm⟩ := Exec.bind_eq_ok.mp hm
        obtain ⟨n', rfl, hn'⟩ := exists_of_transform hne hp hr
        exact .cons ((transform_iff_step hne hp op _).mp ⟨n', hr, hn', rfl⟩)
          ((ih hn').mp ⟨m, hm, hc⟩)
      · intro h
        cases h with
        | cons hstep hrun =>
            obtain ⟨n', hr, hn', rfl⟩ := (transform_iff_step hne hp op _).mpr hstep
            obtain ⟨m, hm, hc⟩ := (ih hn').mpr hrun
            refine ⟨m, ?_, hc⟩
            rw [hcons, hr, Exec.ok_bind, hm]

/-! ## Nodes without `nullptr` -/

/-- The value is absent, or it holds no `nullptr`. -/
def CompleteValue (c : NodePtr D) : Prop :=
  ∀ m, c = some m → m.Complete

theorem exists_increment
    (delta : D)
    (c : NodePtr D) :
    ∃ d, Step (.increment delta) c d ∧ CompleteValue d := by
  by_cases hc : ∃ v, c = some (.double v)
  · obtain ⟨v, rfl⟩ := hc
    refine ⟨_, .increment delta v, ?_⟩
    rintro _ ⟨⟩
    trivial
  · push Not at hc
    refine ⟨_, .incrementNew delta hc, ?_⟩
    rintro _ ⟨⟩
    trivial

/-- The machine is not stuck where no container holds `nullptr`. -/
theorem exists_step
    {op : ListOperator D}
    {c : NodePtr D}
    (hop : op.Complete)
    (hc : CompleteValue c) :
    ∃ d, Step op c d ∧ CompleteValue d := by
  rcases noList_or_list c with hlist | ⟨l, rfl⟩
  · cases op with
    | push x =>
        refine ⟨_, .pushNew x hlist, ?_⟩
        rintro _ ⟨⟩
        simpa [Complete, Node.complete_array_iff] using hop
    | prepend x =>
        refine ⟨_, .prependNew x hlist, ?_⟩
        rintro _ ⟨⟩
        simpa [Complete, Node.complete_array_iff] using hop
    | pop => exact ⟨c, .popNone hlist, hc⟩
    | shift => exact ⟨c, .shiftNone hlist, hc⟩
    | erase x => exact ⟨c, .eraseNone x hlist, hc⟩
    | increment delta => exact exists_increment delta c
  · have hl := Node.complete_array_iff.mp (hc _ rfl)
    have hpart : ∀ r : NodeArray D, (∀ v ∈ r, v ∈ l ∨ Node.CompletePtr v) →
        CompleteValue (some (.array r)) := by
      rintro r hr _ ⟨⟩
      rw [Node.complete_array_iff]
      intro v hv
      exact (hr v hv).elim (hl v) id
    cases op with
    | push x =>
        refine ⟨_, .push x l, hpart _ ?_⟩
        intro v hv
        rcases List.mem_append.mp hv with hv | hv
        · exact .inl hv
        · rw [List.mem_singleton.mp hv]
          exact .inr (Node.completePtr_some.mpr hop)
    | prepend x =>
        refine ⟨_, .prepend x l, hpart _ ?_⟩
        intro v hv
        rcases List.mem_cons.mp hv with rfl | hv
        · exact .inr (Node.completePtr_some.mpr hop)
        · exact .inl hv
    | pop =>
        refine ⟨_, .pop l, hpart _ ?_⟩
        intro v hv
        exact .inl (List.mem_of_mem_dropLast hv)
    | shift =>
        refine ⟨_, .shift l, hpart _ ?_⟩
        intro v hv
        exact .inl (List.mem_of_mem_tail hv)
    | erase x =>
        obtain ⟨r, hr, hsub⟩ := NodeArray.erase_ok fun c hc =>
          Node.CompletePtr.eq (some x) c (Node.completePtr_some.mpr hop) (hl c hc)
        refine ⟨some (.array r), step_of_transformation ?_, hpart r ?_⟩
        · rw [transformation, erase_list, hr]
          rfl
        · intro v hv
          exact .inl (hsub hv)
    | increment delta => exact exists_increment delta _

theorem exists_run
    {ops : List (ListOperator D)}
    {c : NodePtr D}
    (hops : ∀ op ∈ ops, op.Complete)
    (hc : CompleteValue c) :
    ∃ d, Run ops c d := by
  induction ops generalizing c with
  | nil =>
      exact ⟨c, .nil c⟩
  | cons op ops ih =>
      obtain ⟨hop, hops⟩ := List.forall_mem_cons.mp hops
      obtain ⟨d, hstep, hd⟩ := exists_step hop hc
      obtain ⟨e, hrun⟩ := ih hops hd
      exact ⟨e, .cons hstep hrun⟩

/--
**The operators implement a double-ended list at the path.**  The value there
is that of the reference machine; the machine is stuck only where a comparison
of `erase` reads a `nullptr`.
-/
theorem operators_refine
    (n : Node D)
    (p : Path)
    (ops : List (ListOperator D))
    (hne : p ≠ [])
    (hp : IndexUseInBounds (some n) p) :
    (∀ c, (∃ m, applyAll p (some n) ops = .ok (some m) ∧ m.get p = c) ↔
      Run ops (n.get p) c) ∧
    (n.Complete → (∀ op ∈ ops, op.Complete) →
      ∃ m, applyAll p (some n) ops = .ok (some m)) := by
  refine ⟨applyAll_iff_run hne hp ops, ?_⟩
  intro hn hops
  obtain ⟨c, hrun⟩ := exists_run hops (fun m hm => hn.get (p := p) hm)
  obtain ⟨m, hm, _⟩ := (applyAll_iff_run hne hp ops c).mpr hrun
  exact ⟨m, hm⟩

end Operators

/-- Both ends of a new list, of which one element is dropped again. -/
theorem operators_refine_both_ends :
    letI := constantHash
    let n : Node Int := .object []
    let ops := [.push .null, .prepend (.bool true), .erase .null]
    (∃ m, applyAll ["a"] (some n) ops = .ok (some m) ∧
      m.get ["a"] = some (.array [some (.bool true)])) ∧
    ∃ m, applyAll ["a"] (some n) ops = .ok (some m) := by
  let := constantHash
  intro n ops
  obtain ⟨hrun, htotal⟩ := operators_refine n ["a"] ops (by decide)
    (PathInBounds.indexUse (by decide) _)
  refine ⟨(hrun _).mpr ?_, htotal trivial ?_⟩
  · refine .cons (.pushNew _ ?_) (.cons (.prepend _ _) (.cons ?_ (.nil _)))
    · rintro l ⟨⟩
    · exact .erase _ [some (.bool true)] (some .null) [] (by decide) (by decide)
  · simp [ops, Complete, Node.Complete]

end ListOperator

end AgencyNode
