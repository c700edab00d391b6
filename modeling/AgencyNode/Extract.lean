import AgencyNode.AbsentPaths
import AgencyNode.Lib.Copying

/-!
# `node::extract`

`extract` copies what a node holds at a list of paths into an empty object, one
path after the other.  A path at which there is nothing is copied as well: where
it leaves the tree below a place that has been copied already, the `nullptr` is
stored there.  The result is exact if and only if every place that is spoiled in
this way is extracted again later, and no path uses the index `2 ^ 64 - 1` in an
array that has been copied.
-/

namespace AgencyNode

open Lib

variable {D : Type}

namespace Node

/-- One round of the loop of `node::extract`. -/
def extractStep
    (n : Node D)
    (node : NodePtr D)
    (path : Path) : Exec (NodePtr D) := do
  let cur ← node.deref
  cur.set path (n.get path)

/-- `node::extract`. -/
def extract (n : Node D) (list : List Path) : Exec (NodePtr D) :=
  list.foldlM (extractStep n) (some (.object []))

/-! ## Reading -/

/-- No array of the node has more elements than a vector can have. -/
def ArraysFit (n : Node D) : Prop :=
  ∀ z l, (nodeContainer D).get (some n) z = some (.array l) → l.length ≤ sizeTMax

/-- A child of an array is one of its elements. -/
theorem mem_of_child_array
    {l : NodeArray D}
    {m : Node D}
    {key : String}
    (h : (nodeContainer D).child (some (.array l)) key = some m) :
    some m ∈ l := by
  have hshape := shapeOf_eq_array_iff.mpr (rfl : some (Node.array l) = some (.array l))
  simp only [TreeRep.container_child, TreeRep.child, hshape] at h
  cases hkey : (nodeRep D).index key with
  | none =>
      simp only [hkey] at h
      cases h
  | some i =>
      simp only [hkey] at h
      by_cases hi : i < l.length
      · rw [List.getD_eq_getElem _ _ hi] at h
        exact h ▸ List.getElem_mem hi
      · rw [List.getD_eq_default _ _ (Nat.not_lt.mp hi)] at h
        cases h

/-- A child of an object is one of its members. -/
theorem mem_of_child_object
    {members : NodeObject D}
    {m : Node D}
    {key : String}
    (h : (nodeContainer D).child (some (.object members)) key = some m) :
    (key, some m) ∈ members := by
  rw [← NodeObject.getImpl_eq] at h
  unfold NodeObject.getImpl at h
  split at h
  · rename_i v hfind
    subst h
    exact AssocMap.mem_of_find hfind
  · cases h

theorem arraysFit_of_child
    {n : Node D}
    (hsize : ∀ l, n = .array l → l.length ≤ sizeTMax)
    (hchild : ∀ key m, (nodeContainer D).child (some n) key = some m → m.ArraysFit) :
    n.ArraysFit := by
  intro z l hz
  cases z with
  | nil =>
      exact hsize l (Option.some.inj hz)
  | cons key z =>
      rw [Container.get_cons] at hz
      cases hkey : (nodeContainer D).child (some n) key with
      | none =>
          rw [hkey, Container.get_of_childless (nodeRep D).child_none] at hz
          cases hz
      | some m =>
          exact hchild key m hkey z l (hkey ▸ hz)

/-- Along arrays that fit, `get` is that of the container. -/
theorem get_eq_of_fits
    (n : Node D)
    (p : Path)
    (h : ∀ z key r l, p = z ++ key :: r →
      (nodeContainer D).get (some n) z = some (.array l) → l.length ≤ sizeTMax) :
    n.get p = (nodeContainer D).get (some n) p := by
  by_cases huse : IndexUseInBounds (some n) p
  · exact n.get_eq p huse
  · -- There is no element at the index `2 ^ 64 - 1`.
    have hnone : n.get p = none := by
      cases hget : n.get p with
      | none => rfl
      | some m => exact absurd (indexUse_of_get hget) huse
    rw [hnone]
    clear hnone
    induction p generalizing n with
    | nil =>
        exact absurd trivial huse
    | cons key p ih =>
        rw [Container.get_cons]
        cases hchild : (nodeContainer D).child (some n) key with
        | none =>
            exact (Container.get_of_childless (fun _ => rfl) p).symm
        | some m =>
            refine ih m ?_ ?_
            · intro z key' r l hsplit hz
              refine h (key :: z) key' r l (by rw [hsplit, List.cons_append]) ?_
              rw [Container.get_cons, hchild, hz]
            · intro htail
              refine huse ⟨?_, hchild ▸ htail⟩
              intro l hl hkey
              have hsize := h [] key p l rfl hl
              have hshape := shapeOf_eq_array_iff.mpr hl
              have hindex : (nodeRep D).index key = some sizeTMax := hkey
              simp only [TreeRep.container_child, TreeRep.child, hshape, hindex,
                List.getD_eq_default _ _ hsize] at hchild
              cases hchild

theorem ArraysFit.get_eq
    {n : Node D}
    (h : n.ArraysFit)
    (p : Path) :
    n.get p = (nodeContainer D).get (some n) p :=
  n.get_eq_of_fits p (fun z _ _ l _ hz => h z l hz)

/-! ## The loop -/

/-- What the node holds at the paths, copied into an empty object. -/
def copied (n : Node D) (L : List Path) : NodePtr D :=
  (nodeRep D).copy (some n) (some (.object [])) L

/--
No path uses the index `2 ^ 64 - 1` in an array that the paths before it have copied:
there the padding never ends.
-/
def RoundsInBounds (n : Node D) (L : List Path) : Prop :=
  ∀ L₁ p L₂, L = L₁ ++ p :: L₂ → IndexUseInBounds (n.copied L₁) p

theorem roundsInBounds_append_singleton
    {n : Node D}
    {L : List Path}
    {p : Path} :
    n.RoundsInBounds (L ++ [p]) ↔
      n.RoundsInBounds L ∧ IndexUseInBounds (n.copied L) p := by
  constructor
  · intro h
    refine ⟨fun L₁ q L₂ hL => h L₁ q (L₂ ++ [p]) ?_, h L p [] rfl⟩
    rw [hL, List.append_assoc, List.cons_append]
  · rintro ⟨hbefore, hlast⟩ L₁ q L₂ hL
    rcases List.eq_nil_or_concat' L₂ with rfl | ⟨L₂, r, rfl⟩
    · obtain ⟨rfl, hq⟩ := List.append_inj' hL rfl
      cases hq
      exact hlast
    · refine hbefore L₁ q L₂ ?_
      rw [← List.cons_append, ← List.append_assoc] at hL
      exact (List.append_inj' hL rfl).1

theorem extract_append_singleton
    (n : Node D)
    (L : List Path)
    (p : Path) :
    n.extract (L ++ [p]) = n.extract L >>= fun node => extractStep n node p := by
  rw [extract, List.foldlM_append]
  simp only [List.foldlM_cons, List.foldlM_nil, bind_pure]
  rfl

theorem exists_copied
    (n : Node D)
    {L : List Path}
    (hne : ∀ p ∈ L, p ≠ []) :
    ∃ m, n.copied L = some m := by
  induction L using List.reverseRecOn with
  | nil => exact ⟨_, rfl⟩
  | append_singleton L p ih =>
      obtain ⟨key, r, rfl⟩ := List.exists_cons_of_ne_nil (hne p (by simp))
      rw [copied, TreeRep.copy_append_singleton]
      exact Option.ne_none_iff_exists'.mp ((nodeRep D).put_ne_none _ key _)

/--
**`extract` copies one path after the other**, and it ends if and only if every round
does.
-/
theorem extract_eq_ok_iff
    {n : Node D}
    (hfit : n.ArraysFit)
    {L : List Path}
    (hne : ∀ p ∈ L, p ≠ [])
    {e : NodePtr D} :
    n.extract L = .ok e ↔ n.RoundsInBounds L ∧ e = n.copied L := by
  induction L using List.reverseRecOn generalizing e with
  | nil =>
      constructor
      · intro h
        cases h
        exact ⟨fun L₁ p L₂ hL => by simp at hL, rfl⟩
      · rintro ⟨_, rfl⟩
        rfl
  | append_singleton L p ih =>
      have hbefore : ∀ q ∈ L, q ≠ [] := fun q hq => hne q (by simp [hq])
      obtain ⟨m, hm⟩ := n.exists_copied hbefore
      have hstep : extractStep n (some m) p = .ok e ↔
          IndexUseInBounds (some m) p ∧ e = n.copied (L ++ [p]) := by
        change m.set p (n.get p) = .ok e ↔ _
        by_cases huse : IndexUseInBounds (some m) p
        · obtain ⟨c, hset, hc⟩ := m.set_eq_some p (n.get p) huse (hne p (by simp))
          have hcopied : n.copied (L ++ [p]) = some c := by
            rw [hc, hfit.get_eq, ← hm, copied, TreeRep.copy_append_singleton]
            rfl
          rw [hset, hcopied, Except.ok.injEq, eq_comm]
          exact (and_iff_right huse).symm
        · rw [m.set_of_not_indexUse p (n.get p) huse]
          constructor
          · intro h
            cases h
          · exact fun h => absurd h.1 huse
      rw [extract_append_singleton, Exec.bind_eq_ok, roundsInBounds_append_singleton, hm,
        and_assoc, ← hstep]
      simp only [ih hbefore, hm]
      constructor
      · rintro ⟨_, ⟨hrounds, rfl⟩, h⟩
        exact ⟨hrounds, h⟩
      · rintro ⟨hrounds, h⟩
        exact ⟨_, ⟨hrounds, rfl⟩, h⟩

/-! ## The tree that is copied -/

theorem complete_child
    {n m : Node D}
    (hn : n.Complete)
    {key : String}
    (h : (nodeContainer D).child (some n) key = some m) :
    m.Complete := by
  cases n with
  | array l =>
      exact complete_array_iff.mp hn _ (mem_of_child_array h)
  | object members =>
      exact complete_object_iff.mp hn _ (mem_of_child_object h)
  | _ =>
      rw [child_leaf _ _ rfl] at h
      cases h

/-- A complete node holds no `nullptr` anywhere. -/
theorem Complete.solid
    {n : Node D}
    (hn : n.Complete) :
    (nodeRep D).Solid (some n) := by
  have hget : ∀ (p : Path) (c : NodePtr D), (∀ m, c = some m → m.Complete) →
      ∀ m, (nodeContainer D).get c p = some m → m.Complete := by
    intro p
    induction p with
    | nil =>
        exact fun _ hc => hc
    | cons key p ih =>
        intro c hc
        refine ih _ ?_
        intro m hm
        cases c with
        | none => cases hm
        | some x => exact complete_child (hc x rfl) hm
  intro p
  have hcomplete := hget p (some n) (fun m hm => Option.some.inj hm ▸ hn)
  refine ⟨?_, ?_⟩
  · intro l hl hnone
    have hm := hcomplete _ (shapeOf_eq_array_iff.mp hl)
    exact absurd (complete_array_iff.mp hm _ hnone) not_completePtr_none
  · intro m hm key hkey
    have hmembers := hcomplete _ (shapeOf_eq_object_iff.mp hm)
    have hmem := AssocMap.mem_of_find hkey
    exact absurd (complete_object_iff.mp hmembers _ hmem) not_completePtr_none

/-! ## What is extracted -/

/-- The component leads out of the tree: no member or element can be there. -/
def LeavesAt (n : Node D) (z : Path) (key : String) : Prop :=
  (∀ members, n.get z ≠ some (.object members)) ∧
    ∀ l, n.get z = some (.array l) → n.get (z ++ [key]) = none

/--
Whenever a path leaves the tree below a place that has been extracted already,
the place at which it does, or one above it, is extracted again later: under the
same components, or, below an earlier path, under numerals of the same index.
-/
def SpoiledRestored (n : Node D) (L : List Path) : Prop :=
  ∀ L₁ p L₂ z key r, L = L₁ ++ p :: L₂ → p = z ++ key :: r → n.LeavesAt z key →
    (∃ x ∈ L₁, x <+: z) →
      ∃ y ∈ L₂, y <+: z ∨
        (∃ x ∈ L₁, x <+: z ∧ x <+: y) ∧ (nodeRep D).Above (some n) y z

/--
The requested subtrees and nothing else: every path finds what it finds in the
node, and every scalar stems from a path of the list.
-/
def ExtractsExactly (n : Node D) (L : List Path) : Prop :=
  ∃ e, n.extract L = .ok (some e) ∧
    (∀ p ∈ L, NodePtr.Equal (e.get p) (n.get p)) ∧
    ∀ q s, e.get q = some s → s.IsScalar →
      n.get q = some s ∧ ∃ p ∈ L, p <+: q

theorem inPlace_iff_not_leavesAt
    {n : Node D}
    (hfit : n.ArraysFit)
    {z : Path}
    {key : String} :
    (nodeRep D).InPlace ((nodeContainer D).get (some n) z) key ↔
      ¬ n.LeavesAt z key := by
  have hchild : n.get (z ++ [key]) =
      (nodeRep D).child ((nodeContainer D).get (some n) z) key := by
    rw [hfit.get_eq, Container.get_append]
    rfl
  unfold LeavesAt TreeRep.InPlace
  rw [hchild, hfit.get_eq]
  simp only [shapeOf_eq_object_iff, shapeOf_eq_array_iff]
  constructor
  · intro hplace hleaves
    rcases hplace with ⟨members, hmembers⟩ | ⟨⟨l, hl⟩, hne⟩
    · exact hleaves.1 members hmembers
    · exact hne (hleaves.2 l hl)
  · intro hleaves
    by_contra hplace
    push Not at hplace
    refine hleaves ⟨hplace.1, ?_⟩
    intro l hl
    exact hplace.2 ⟨l, hl⟩

theorem restored_iff_spoiledRestored
    {n : Node D}
    (hfit : n.ArraysFit)
    {L : List Path} :
    (nodeRep D).Restored (some n) False L ↔ n.SpoiledRestored L := by
  simp only [TreeRep.Restored, SpoiledRestored, TreeRep.Covers, false_or,
    inPlace_iff_not_leavesAt hfit, not_not]

/-- Where one of two equal trees has an array, the other one has one, too. -/
theorem exists_array_of_equal
    {c : NodePtr D}
    {l : NodeArray D}
    (h : NodePtr.Equal (some (.array l)) c) :
    ∃ l', c = some (.array l') ∧ l.length = l'.length := by
  cases c with
  | none =>
      cases h
  | some m =>
      have hm := NodePtr.equal_some_iff.mp h
      cases m with
      | array l' =>
          have hlength := congrArg List.length (equal_array_iff.mp hm)
          rw [List.length_map, List.length_map] at hlength
          exact ⟨l', rfl, hlength⟩
      | _ => cases hm

theorem blank_empty :
    (nodeRep D).Blank (some (.object [])) :=
  ⟨.inr ⟨[], rfl⟩, fun _ => rfl⟩

/-- Where no path has been copied, there is at most an object on the way to one. -/
theorem open_get_copied
    (n : Node D)
    {L : List Path}
    {q : Path}
    (h : ∀ x ∈ L, ¬ x <+: q) :
    (nodeRep D).Open ((nodeContainer D).get (n.copied L) q) :=
  (nodeRep D).open_get_copy blank_empty h

/-- What has been extracted has the arrays of the node on the way to its paths. -/
theorem get_eq_of_extract
    {n e : Node D}
    (hfit : n.ArraysFit)
    {L : List Path}
    (hcopy : some e = n.copied L)
    {p : Path}
    (hequal : ∀ x ∈ L, x <+: p → x ≠ p → NodePtr.Equal
      ((nodeContainer D).get (some e) x) ((nodeContainer D).get (some n) x)) :
    e.get p = (nodeContainer D).get (some e) p := by
  refine e.get_eq_of_fits p ?_
  intro z key r l hp hz
  by_cases hcovered : ∃ x ∈ L, x <+: z
  · obtain ⟨x, hx, t, rfl⟩ := hcovered
    have hxp : x <+: p := ⟨t ++ key :: r, by rw [hp, List.append_assoc]⟩
    have hne : x ≠ p := by
      rintro rfl
      have hlength := congrArg List.length hp
      simp at hlength
    -- Below the path the two trees are equal.
    have hsame := NodePtr.equal_get (hequal x hx hxp hne) t
    rw [← Container.get_append, ← Container.get_append, hz] at hsame
    obtain ⟨l', hl', hlength⟩ := exists_array_of_equal hsame
    rw [hlength]
    exact hfit _ l' hl'
  · push Not at hcovered
    have hopen := n.open_get_copied hcovered
    rw [← hcopy, hz] at hopen
    exact absurd rfl (hopen.not_array l)

/-- The paths find what they find in the node if the containers agree there. -/
theorem get_equal_iff_of_extract
    {n e : Node D}
    (hfit : n.ArraysFit)
    {L : List Path}
    (hcopy : some e = n.copied L) :
    (∀ p ∈ L, NodePtr.Equal (e.get p) (n.get p)) ↔
      ∀ p ∈ L, NodePtr.Equal
        ((nodeContainer D).get (some e) p) ((nodeContainer D).get (some n) p) := by
  constructor
  · intro h
    -- The shorter paths decide which arrays lie on the way.
    have hsize : ∀ size, ∀ p ∈ L, p.length < size → NodePtr.Equal
        ((nodeContainer D).get (some e) p) ((nodeContainer D).get (some n) p) := by
      intro size
      induction size with
      | zero =>
          intro p _ hp
          exact absurd hp (Nat.not_lt_zero _)
      | succ size ih =>
          intro p hp hlength
          rw [← get_eq_of_extract hfit hcopy, ← hfit.get_eq]
          · exact h p hp
          · intro x hx hbegins hne
            refine ih x hx ?_
            have hle := hbegins.length_le
            have hlt : x.length ≠ p.length := fun heq => hne (hbegins.eq_of_length heq)
            omega
    exact fun p hp => hsize (p.length + 1) p hp (Nat.lt_succ_self _)
  · intro h p hp
    rw [get_eq_of_extract hfit hcopy (fun x hx _ _ => h x hx), hfit.get_eq]
    exact h p hp

/-- A scalar that has been extracted comes from a path of the list. -/
theorem scalar_of_extract
    {n e : Node D}
    (hfit : n.ArraysFit)
    {L : List Path}
    (hcopy : some e = n.copied L)
    (hequal : ∀ p ∈ L, NodePtr.Equal
      ((nodeContainer D).get (some e) p) ((nodeContainer D).get (some n) p))
    {q : Path}
    {s : Node D}
    (hs : e.get q = some s)
    (hscalar : s.IsScalar) :
    n.get q = some s ∧ ∃ p ∈ L, p <+: q := by
  rw [get_eq_of_extract hfit hcopy (fun x hx _ _ => hequal x hx)] at hs
  by_cases hcovered : ∃ p ∈ L, p <+: q
  · refine ⟨?_, hcovered⟩
    obtain ⟨p, hp, t, rfl⟩ := hcovered
    rw [hfit.get_eq]
    have hq := NodePtr.equal_get (hequal p hp) t
    rw [← Container.get_append, ← Container.get_append, hs] at hq
    cases hn : (nodeContainer D).get (some n) (p ++ t) with
    | none =>
        rw [hn] at hq
        cases hq
    | some m =>
        rw [hn] at hq
        have hm : m.Equal s := NodePtr.equal_some_iff.mp hq.symm
        rw [hm.eq_of_isScalar hscalar]
  · exfalso
    push Not at hcovered
    rw [hcopy] at hs
    have hopen := n.open_get_copied hcovered
    rw [hs] at hopen
    rcases hopen with hnone | ⟨members, hmembers⟩
    · cases hnone
    · rw [Option.some.inj (shapeOf_eq_object_iff.mp hmembers)] at hscalar
      exact hscalar

/--
**`extract` is exact** if and only if it ends and every place that is spoiled by
an absent path is extracted again.
-/
theorem extract_exact_iff
    (n : Node D)
    (L : List Path)
    (hn : n.Complete)
    (hfit : n.ArraysFit)
    (hne : ∀ p ∈ L, p ≠ []) :
    n.ExtractsExactly L ↔ n.RoundsInBounds L ∧ n.SpoiledRestored L := by
  have hcorrect : (∀ p ∈ L, NodePtr.Equal ((nodeContainer D).get (n.copied L) p)
      ((nodeContainer D).get (some n) p)) ↔ n.SpoiledRestored L := by
    rw [← restored_iff_spoiledRestored hfit,
      ← (denoteHom D).copy_correct_iff treeRep_extensional blank_empty hn.solid]
    simp only [NodePtr.Equal, denotePtr_eq]
    rfl
  constructor
  · rintro ⟨e, he, hequal, _⟩
    obtain ⟨hrounds, hcopy⟩ := (extract_eq_ok_iff hfit hne).mp he
    refine ⟨hrounds, hcorrect.mp ?_⟩
    rw [← hcopy]
    exact (get_equal_iff_of_extract hfit hcopy).mp hequal
  · rintro ⟨hrounds, hrestored⟩
    obtain ⟨e, hcopy⟩ := n.exists_copied hne
    have he := (extract_eq_ok_iff hfit hne).mpr ⟨hrounds, hcopy.symm⟩
    have hequal := hcorrect.mpr hrestored
    rw [hcopy] at hequal
    refine ⟨e, he, (get_equal_iff_of_extract hfit hcopy.symm).mpr hequal, ?_⟩
    intro q s hs hscalar
    exact scalar_of_extract hfit hcopy.symm hequal hs hscalar

/-- The numerals name one element, so that the copy is made again. -/
theorem extract_exact_iff_element :
    let n : Node Int := .object [("a", some (.array [some (.double 1)]))]
    let L : List Path := [["a"], ["a", "0", "b"], ["a", "18446744073709551616"]]
    n.ExtractsExactly L ↔ n.RoundsInBounds L ∧ n.SpoiledRestored L := by
  intro n L
  have hnumber : (Node.double (1 : Int)).ArraysFit := by
    refine arraysFit_of_child (by intro l hl; cases hl) ?_
    intro key m hm
    rw [child_leaf _ _ rfl] at hm
    cases hm
  have harray : (Node.array [some (Node.double (1 : Int))]).ArraysFit := by
    refine arraysFit_of_child ?_ ?_
    · intro l hl
      cases hl
      simp [sizeTMax]
    · intro key m hm
      cases List.mem_singleton.mp (mem_of_child_array hm)
      exact hnumber
  have hobject : (Node.object [("a", some (.array [some (.double (1 : Int))]))]).ArraysFit := by
    refine arraysFit_of_child (by intro l hl; cases hl) ?_
    intro key m hm
    cases List.mem_singleton.mp (mem_of_child_object hm)
    exact harray
  exact extract_exact_iff n L ⟨⟨trivial, trivial⟩, trivial⟩ hobject (by simp [L])

/-- A path below a number that has been extracted replaces the number. -/
theorem extract_not_exact :
    let n : Node Int := .object [("a", some (.double 1))]
    n.Complete ∧ CanonicalPath ["a"] ∧ CanonicalPath ["a", "b"] ∧
      ¬ n.ExtractsExactly [["a"], ["a", "b"]] := by
  intro n
  refine ⟨⟨trivial, trivial⟩, by decide, by decide, ?_⟩
  rintro ⟨e, he, hequal, _⟩
  have hresult : n.extract [["a"], ["a", "b"]] =
      .ok (some (.object [("a", some (.object [("b", none)]))])) := rfl
  rw [hresult] at he
  cases he
  have ha := hequal ["a"] (by simp)
  cases ha

end Node

end AgencyNode
