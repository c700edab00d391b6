import AgencyNode.Lib.PathLens
import Mathlib.Data.List.GetD

/-!
# Trees of arrays and keyed objects

A tree is a leaf, an array or an object.  Its children are optional: `none`
stands for a child that does not exist, and it may also be stored.  A key
addresses a member of an object; it addresses an element of an array if it has
an index.

A `TreeRep` leaves open how objects are stored, so that the same laws hold for
a concrete tree and for its extensional meaning.  Writing below a leaf creates
an object; writing an index past the end of an array pads it with `null`;
writing a key without index below an array turns the array into an object, in
which element `i` is stored under `name i`; writing `none` into an object
erases the member.
-/

namespace AgencyNode
namespace Lib

universe u v w

/-- The three shapes of a tree. -/
inductive Shape (Q : Type u) (M : Type v) where
  | leaf
  | array (elements : List (Option Q))
  | object (members : M)

/-- A representation of trees with nodes `Q`, objects `M` and keys `K`. -/
structure TreeRep (Q : Type u) (M : Type v) (K : Type w) where
  shape : Q → Shape Q M
  array : List (Option Q) → Q
  object : M → Q
  null : Q
  entry : M → K → Option (Option Q)
  empty : M
  store : M → K → Option Q → M
  erase : M → K → M
  index : K → Option Nat
  name : Nat → K
  shape_array : ∀ l, shape (array l) = .array l
  shape_object : ∀ m, shape (object m) = .object m
  shape_null : shape null = .leaf
  entry_empty : ∀ k, entry empty k = none
  entry_store_self : ∀ m k v, entry (store m k v) k = some v
  entry_store_ne : ∀ m k k' v, k ≠ k' → entry (store m k v) k' = entry m k'
  entry_erase_self : ∀ m k, entry (erase m k) k = none
  entry_erase_ne : ∀ m k k', k ≠ k' → entry (erase m k) k' = entry m k'
  name_injective : Function.Injective name
  index_name : ∀ i, index (name i) ≠ none

/-- Append `null` up to the given size. -/
def padTo {Q : Type u} (null : Q) (l : List (Option Q)) (n : Nat) :
    List (Option Q) :=
  l ++ List.replicate (n - l.length) (some null)

section Padding

variable {Q : Type u} {null : Q}

@[simp] theorem length_padTo
    (l : List (Option Q))
    (n : Nat) :
    (padTo null l n).length = max l.length n := by
  simp [padTo]
  omega

theorem getElem?_padTo_of_lt
    {l : List (Option Q)}
    {n i : Nat}
    (hi : i < l.length) :
    (padTo null l n)[i]? = l[i]? := by
  simp [padTo, List.getElem?_append_left hi]

theorem getElem?_padTo_of_ge
    {l : List (Option Q)}
    {n i : Nat}
    (hi : l.length ≤ i)
    (hn : i < n) :
    (padTo null l n)[i]? = some (some null) := by
  have hlt : i - l.length < n - l.length := by omega
  simp [padTo, List.getElem?_append_right hi, hlt]

theorem padTo_of_le
    {l : List (Option Q)}
    {n : Nat}
    (hn : n ≤ l.length) :
    padTo null l n = l := by
  have hzero : n - l.length = 0 := by omega
  simp [padTo, hzero]

/-- The elements of an array after a write at the index `i`. -/
theorem getElem?_write
    (l : List (Option Q))
    (i : Nat)
    (v : Option Q)
    (t : Nat) :
    ((padTo null l (i + 1)).set i v)[t]? =
      if t = i then some v
      else if t < l.length then l[t]?
      else if t < i then some (some null)
      else none := by
  by_cases hti : t = i
  · subst hti
    have hlt : t < (padTo null l (t + 1)).length := by
      rw [length_padTo]
      omega
    rw [List.getElem?_set_self hlt, if_pos rfl]
  · rw [List.getElem?_set_ne (fun h => hti h.symm), if_neg hti]
    by_cases hlen : t < l.length
    · rw [if_pos hlen, getElem?_padTo_of_lt hlen]
    · rw [if_neg hlen]
      by_cases hlt : t < i
      · rw [if_pos hlt, getElem?_padTo_of_ge (by omega) (by omega)]
      · rw [if_neg hlt, List.getElem?_eq_none]
        rw [length_padTo]
        omega

end Padding

namespace TreeRep

variable {Q : Type u} {M : Type v} {K : Type w} (R : TreeRep Q M K)

/-- The shape of a child; one that does not exist is a leaf. -/
def shapeOf : Option Q → Shape Q M
  | some q => R.shape q
  | none => .leaf

/-- The member under a key. -/
def find (m : M) (k : K) : Option Q :=
  (R.entry m k).getD none

/-- Store the elements of an array under the names of their indices. -/
def membersFrom (i : Nat) : List (Option Q) → M → M
  | [], m => m
  | v :: l, m => membersFrom (i + 1) l (R.store m (R.name i) v)

/-- The object with the elements of an array. -/
def members (l : List (Option Q)) : M :=
  R.membersFrom 0 l R.empty

/-- The child under a key. -/
def child (c : Option Q) (k : K) : Option Q :=
  match R.shapeOf c with
  | .leaf => none
  | .array l =>
      match R.index k with
      | some i => l.getD i none
      | none => none
  | .object m => R.find m k

/-- Write into an object; `none` erases. -/
def putMember (m : M) (k : K) : Option Q → M
  | none => R.erase m k
  | some v => R.store m k (some v)

/-- Write into an array. -/
def putElement (l : List (Option Q)) (k : K) (v : Option Q) : Q :=
  match R.index k with
  | some i => R.array ((padTo R.null l (i + 1)).set i v)
  | none => R.object (R.store (R.members l) k v)

/-- Write the child under a key. -/
def put (c : Option Q) (k : K) (v : Option Q) : Option Q :=
  match R.shapeOf c with
  | .leaf => some (R.object (R.store R.empty k v))
  | .array l => some (R.putElement l k v)
  | .object m => some (R.object (R.putMember m k v))

/-- One level of the tree. -/
def container : Container (Option Q) K where
  child := R.child
  put := R.put

@[simp] theorem container_child
    (c : Option Q)
    (k : K) :
    R.container.child c k = R.child c k := by
  rfl

@[simp] theorem container_put
    (c : Option Q)
    (k : K)
    (v : Option Q) :
    R.container.put c k v = R.put c k v := by
  rfl

@[simp] theorem shapeOf_none :
    R.shapeOf none = .leaf := by
  rfl

@[simp] theorem shapeOf_null :
    R.shapeOf (some R.null) = .leaf := by
  exact R.shape_null

@[simp] theorem shapeOf_array
    (l : List (Option Q)) :
    R.shapeOf (some (R.array l)) = .array l := by
  exact R.shape_array l

@[simp] theorem shapeOf_object
    (m : M) :
    R.shapeOf (some (R.object m)) = .object m := by
  exact R.shape_object m

theorem put_ne_none
    (c : Option Q)
    (k : K)
    (v : Option Q) :
    R.put c k v ≠ none := by
  unfold put
  split <;> simp

theorem child_none
    (k : K) :
    R.child none k = none := by
  rfl

/-! ### Lookup -/

theorem find_store_self
    (m : M)
    (k : K)
    (v : Option Q) :
    R.find (R.store m k v) k = v := by
  simp [find, R.entry_store_self]

theorem find_putMember_self
    (m : M)
    (k : K)
    (v : Option Q) :
    R.find (R.putMember m k v) k = v := by
  cases v with
  | none =>
      simp [putMember, find, R.entry_erase_self]
  | some v =>
      exact R.find_store_self m k (some v)

theorem entry_putMember_ne
    (m : M)
    {k k' : K}
    (v : Option Q)
    (hne : k ≠ k') :
    R.entry (R.putMember m k v) k' = R.entry m k' := by
  cases v with
  | none =>
      exact R.entry_erase_ne m k k' hne
  | some v =>
      exact R.entry_store_ne m k k' (some v) hne

theorem entry_membersFrom_of_ne
    {i : Nat}
    {l : List (Option Q)}
    {m : M}
    {k : K}
    (hk : ∀ j, j < l.length → k ≠ R.name (i + j)) :
    R.entry (R.membersFrom i l m) k = R.entry m k := by
  induction l generalizing i m with
  | nil =>
      rfl
  | cons v l ih =>
      have hhead : R.name i ≠ k := by
        intro h
        exact hk 0 (by simp) (by simpa using h.symm)
      have htail : ∀ j, j < l.length → k ≠ R.name (i + 1 + j) := by
        intro j hj
        have := hk (j + 1) (by simpa using hj)
        rwa [show i + (j + 1) = i + 1 + j by omega] at this
      rw [membersFrom, ih htail, R.entry_store_ne _ _ _ _ hhead]

theorem entry_membersFrom_of_lt
    {i j : Nat}
    {l : List (Option Q)}
    {m : M}
    (hj : j < l.length) :
    R.entry (R.membersFrom i l m) (R.name (i + j)) = l[j]? := by
  induction l generalizing i j m with
  | nil =>
      simp at hj
  | cons v l ih =>
      cases j with
      | zero =>
          have hne : ∀ j, j < l.length → R.name (i + 0) ≠ R.name (i + 1 + j) := by
            intro j _ h
            have := R.name_injective h
            omega
          rw [membersFrom, R.entry_membersFrom_of_ne hne]
          simp [R.entry_store_self]
      | succ j =>
          have hj' : j < l.length := by simpa using hj
          have := ih (i := i + 1) (m := R.store m (R.name i) v) hj'
          rw [membersFrom, show i + (j + 1) = i + 1 + j by omega, this]
          simp

/-- The converted array holds the elements under their names. -/
theorem entry_members_name
    (l : List (Option Q))
    (j : Nat) :
    R.entry (R.members l) (R.name j) = l[j]? := by
  by_cases hj : j < l.length
  · have := R.entry_membersFrom_of_lt (i := 0) (m := R.empty) hj
    rwa [Nat.zero_add] at this
  · have hne : ∀ i, i < l.length → R.name j ≠ R.name (0 + i) := by
      intro i hi h
      have := R.name_injective h
      omega
    rw [members, R.entry_membersFrom_of_ne hne, R.entry_empty,
      List.getElem?_eq_none (by omega)]

/-- The converted array holds nothing else. -/
theorem entry_members_of_ne
    (l : List (Option Q))
    {k : K}
    (hk : ∀ j, k ≠ R.name j) :
    R.entry (R.members l) k = none := by
  rw [members, R.entry_membersFrom_of_ne (fun j _ => hk (0 + j)), R.entry_empty]

theorem ne_name_of_index_none
    {k : K}
    (hk : R.index k = none)
    (j : Nat) :
    k ≠ R.name j := by
  rintro rfl
  exact R.index_name j hk

/-! ### The laws of one level -/

/-- **Put-get** at one level. -/
theorem child_put_self
    (c : Option Q)
    (k : K)
    (v : Option Q) :
    R.child (R.put c k v) k = v := by
  cases hc : R.shapeOf c with
  | leaf =>
      simp [put, hc, child, find_store_self]
  | array l =>
      cases hk : R.index k with
      | none =>
          simp [put, hc, putElement, hk, child, find_store_self]
      | some i =>
          simp only [put, hc, putElement, hk, child, shapeOf_array,
            List.getD_eq_getElem?_getD, getElem?_write, if_true, Option.getD_some]
  | object m =>
      simp [put, hc, child, find_putMember_self]

/-- A key that addresses an array element only under the name of its index. -/
def Canonical (k : K) : Prop :=
  ∀ i, R.index k = some i → k = R.name i

theorem Canonical.index_inj
    {R : TreeRep Q M K}
    {a b : K}
    {i : Nat}
    (ha : R.Canonical a)
    (hb : R.Canonical b)
    (hai : R.index a = some i)
    (hbi : R.index b = some i) :
    a = b := by
  rw [ha i hai, hb i hbi]

/--
A write at `a` pads the place `b`: both are indices of an array, and `b` lies
between the old end of the array and `a`.
-/
def Pads (c : Option Q) (a b : K) : Prop :=
  ∃ l i j, R.shapeOf c = .array l ∧ R.index a = some i ∧
    R.index b = some j ∧ l.length ≤ j ∧ j < i

theorem child_put_pads
    (c : Option Q)
    (a b : K)
    (v : Option Q)
    (hpads : R.Pads c a b) :
    R.child (R.put c a v) b = some R.null := by
  obtain ⟨l, i, j, hc, hai, hbj, hlj, hji⟩ := hpads
  have hne : ¬ j = i := by omega
  have hlen : ¬ j < l.length := by omega
  simp [put, hc, putElement, hai, child, hbj, List.getD_eq_getElem?_getD,
    getElem?_write, hne, hlen, hji]

theorem child_of_pads
    {c : Option Q}
    {a b : K}
    (hpads : R.Pads c a b) :
    R.child c b = none := by
  obtain ⟨l, i, j, hc, _, hbj, hlj, _⟩ := hpads
  simp [child, hc, hbj, List.getD_eq_getElem?_getD,
    List.getElem?_eq_none hlj]

/-- The frame at one level: other children stay, unless they are padding. -/
theorem child_put_ne
    (c : Option Q)
    (a b : K)
    (v : Option Q)
    (ha : R.Canonical a)
    (hb : R.Canonical b)
    (hab : a ≠ b)
    (hpads : ¬ R.Pads c a b) :
    R.child (R.put c a v) b = R.child c b := by
  cases hc : R.shapeOf c with
  | leaf =>
      simp [put, hc, child, find, R.entry_store_ne _ _ _ _ hab, R.entry_empty]
  | array l =>
      cases hai : R.index a with
      | some i =>
          cases hbj : R.index b with
          | none =>
              simp [put, hc, putElement, hai, child, hbj]
          | some j =>
              have hij : ¬ j = i := by
                rintro rfl
                exact hab (ha.index_inj hb hai hbj)
              have hput :
                  R.child (R.put c a v) b =
                    ((padTo R.null l (i + 1)).set i v).getD j none := by
                simp [put, hc, putElement, hai, child, hbj]
              have hchild : R.child c b = l.getD j none := by
                simp [child, hc, hbj]
              rw [hput, hchild, List.getD_eq_getElem?_getD,
                List.getD_eq_getElem?_getD, getElem?_write, if_neg hij]
              by_cases hlen : j < l.length
              · rw [if_pos hlen]
              · have hji : ¬ j < i := by
                  intro hji
                  exact hpads ⟨l, i, j, hc, hai, hbj, by omega, hji⟩
                rw [if_neg hlen, if_neg hji, List.getElem?_eq_none (by omega)]
      | none =>
          cases hbj : R.index b with
          | none =>
              simp [put, hc, putElement, hai, child, hbj, find,
                R.entry_store_ne _ _ _ _ hab,
                R.entry_members_of_ne l (R.ne_name_of_index_none hbj)]
          | some j =>
              have hname := R.entry_members_name l j
              rw [← hb j hbj] at hname
              simp [put, hc, putElement, hai, child, hbj, find, hname,
                R.entry_store_ne _ _ _ _ hab, List.getD_eq_getElem?_getD]
  | object m =>
      simp [put, hc, child, find, R.entry_putMember_ne _ _ hab]

/-- Leaves can not be told apart. -/
theorem alike_of_leaf
    {c d : Option Q}
    (hc : R.shapeOf c = .leaf)
    (hd : R.shapeOf d = .leaf) :
    R.container.Alike c d := by
  constructor
  · intro k
    simp [child, hc, hd]
  · intro k v
    simp [put, hc, hd]

/-- A child that has been padded is a leaf as before. -/
theorem child_put_cases
    (c : Option Q)
    (a b : K)
    (v : Option Q)
    (ha : R.Canonical a)
    (hb : R.Canonical b)
    (hab : a ≠ b) :
    R.child (R.put c a v) b = R.child c b ∨
      (R.shapeOf (R.child (R.put c a v) b) = .leaf ∧
        R.shapeOf (R.child c b) = .leaf) := by
  by_cases hpads : R.Pads c a b
  · right
    rw [R.child_put_pads c a b v hpads, R.child_of_pads hpads]
    simp
  · left
    exact R.child_put_ne c a b v ha hb hab hpads

theorem alike_child_put
    (c : Option Q)
    (a b : K)
    (v : Option Q)
    (ha : R.Canonical a)
    (hb : R.Canonical b)
    (hab : a ≠ b) :
    R.container.Alike (R.child (R.put c a v) b) (R.child c b) := by
  rcases R.child_put_cases c a b v ha hb hab with heq | ⟨hleft, hright⟩
  · rw [heq]
    exact Container.Alike.refl _ _
  · exact R.alike_of_leaf hleft hright

/-! ### The laws along paths -/

theorem get_set_self
    (c : Option Q)
    (p : List K)
    (v : Option Q) :
    R.container.get (R.container.set c p v) p = v := by
  exact Container.get_set_self R.child_put_self c p v

/-- The frame along two incomparable paths with canonical keys. -/
theorem get_set_incomparable
    (c : Option Q)
    (p q : List K)
    (v : Option Q)
    (hp : ∀ k ∈ p, R.Canonical k)
    (hq : ∀ k ∈ q, R.Canonical k)
    (hpq : Container.Incomparable p q) :
    (R.container.Filled R.Pads c p q →
        R.container.get (R.container.set c p v) q = some R.null) ∧
      (¬ R.container.Filled R.Pads c p q →
        R.container.get (R.container.set c p v) q = R.container.get c q) := by
  refine Container.get_set_incomparable R.Canonical R.child_put_self
    ?_ ?_ ?_ c p q v hp hq hpq
  · intro c a b x ha hb hab
    exact R.alike_child_put c a b x ha hb hab
  · intro c a b x ha hb hab hpads
    exact R.child_put_ne c a b x ha hb hab hpads
  · intro c a b x _ _ _ hpads
    exact R.child_put_pads c a b x hpads

/-- A place that is padded was empty before. -/
theorem get_of_filled
    {c : Option Q}
    {p q : List K}
    (h : R.container.Filled R.Pads c p q) :
    R.container.get c q = none := by
  obtain ⟨r, a, b, p', rfl, rfl, _, hpads⟩ := h
  rw [Container.get_append]
  exact R.child_of_pads hpads

/-! ### Places that exist -/

/--
The place exists: if it is an element of an array, then the array is long
enough.  Such a place is never padded, even where it holds nothing.
-/
def Present : Option Q → List K → Prop
  | _, [] => True
  | c, [k] => ∀ l j, R.shapeOf c = .array l → R.index k = some j → j < l.length
  | c, k :: k' :: q => Present (R.child c k) (k' :: q)

variable {R}

/-- A place that holds something exists. -/
theorem present_of_get_ne_none
    {c : Option Q}
    {q : List K}
    (hne : R.container.get c q ≠ none) :
    R.Present c q := by
  induction q generalizing c with
  | nil =>
      trivial
  | cons k q ih =>
      cases q with
      | nil =>
          intro l j hc hk
          by_contra hlen
          simp [child, hc, hk, List.getD_eq_getElem?_getD,
            List.getElem?_eq_none (Nat.not_lt.mp hlen)] at hne
      | cons k' q =>
          exact ih hne

/-- A place that has been written exists. -/
theorem present_set_self
    (c : Option Q)
    (p : List K)
    (v : Option Q) :
    R.Present (R.container.set c p v) p := by
  induction p generalizing c with
  | nil =>
      trivial
  | cons k p ih =>
      cases p with
      | nil =>
          intro l j hshape hk
          cases hc : R.shapeOf c with
          | leaf =>
              simp [put, hc] at hshape
          | object m =>
              simp [put, hc] at hshape
          | array l' =>
              simp [put, hc, putElement, hk] at hshape
              rw [← hshape, List.length_set, length_padTo]
              omega
      | cons k' p =>
          have hinner := ih (R.child c k)
          simp only [Container.set_cons, container_put, container_child]
            at hinner ⊢
          rw [Present, R.child_put_self]
          exact hinner

/-- A write never shortens an array. -/
theorem length_le_of_shapeOf_put
    {c : Option Q}
    {k : K}
    {x : Option Q}
    {l : List (Option Q)}
    (h : R.shapeOf (R.put c k x) = .array l) :
    ∃ l', R.shapeOf c = .array l' ∧ l'.length ≤ l.length := by
  cases hc : R.shapeOf c with
  | leaf =>
      simp [put, hc] at h
  | object m =>
      simp [put, hc] at h
  | array l' =>
      refine ⟨l', rfl, ?_⟩
      cases hk : R.index k with
      | none =>
          simp [put, hc, putElement, hk] at h
      | some i =>
          simp [put, hc, putElement, hk] at h
          rw [← h, List.length_set, length_padTo]
          omega

theorem present_congr_shape
    {c d : Option Q}
    {q : List K}
    (hcd : R.shapeOf c = R.shapeOf d)
    (h : R.Present c q) :
    R.Present d q := by
  match q with
  | [] =>
      trivial
  | [k] =>
      intro l j hd hk
      exact h l j (hcd.trans hd) hk
  | k :: k' :: q =>
      have hchild : R.child c k = R.child d k := by
        unfold child
        rw [hcd]
      rw [Present] at h ⊢
      rwa [← hchild]

theorem not_pads_of_present
    {c : Option Q}
    {a b : K}
    (h : R.Present c [b]) :
    ¬ R.Pads c a b := by
  rintro ⟨l, i, j, hc, _, hbj, hlj, _⟩
  have := h l j hc hbj
  omega

/-- **A place that exists stays as it is** while other places are written. -/
theorem Present.set
    {c : Option Q}
    {p q : List K}
    (h : R.Present c q)
    (hp : ∀ k ∈ p, R.Canonical k)
    (hq : ∀ k ∈ q, R.Canonical k)
    (hpq : Container.Incomparable p q)
    (v : Option Q) :
    R.container.get (R.container.set c p v) q = R.container.get c q ∧
      R.Present (R.container.set c p v) q := by
  induction p generalizing c q with
  | nil =>
      exact absurd hpq (Container.not_incomparable_nil_left q)
  | cons a p ih =>
      have hoka := hp a List.mem_cons_self
      match q with
      | [] =>
          exact absurd hpq (Container.not_incomparable_nil_right _)
      | [b] =>
          have hokb := hq b List.mem_cons_self
          have hab : a ≠ b := by
            rintro rfl
            exact Container.not_incomparable_nil_right _ hpq.tail
          refine ⟨?_, ?_⟩
          · exact R.child_put_ne c a b _ hoka hokb hab (not_pads_of_present h)
          · intro l j hshape hj
            obtain ⟨l', hc, hle⟩ := length_le_of_shapeOf_put hshape
            exact Nat.lt_of_lt_of_le (h l' j hc hj) hle
      | b :: b' :: q =>
          have hokb := hq b List.mem_cons_self
          by_cases hab : a = b
          · subst hab
            have hinner := ih (c := R.child c a) (q := b' :: q) h
              (fun k hk => hp k (List.mem_cons_of_mem _ hk))
              (fun k hk => hq k (List.mem_cons_of_mem _ hk)) hpq.tail
            rw [Container.set_cons, container_put, container_child, Present,
              Container.get_cons, Container.get_cons, container_child,
              container_child, R.child_put_self]
            exact hinner
          · rw [Container.set_cons, container_put, container_child, Present]
            refine ⟨?_, ?_⟩
            · exact (R.alike_child_put c a b _ hoka hokb hab).get_eq (by simp)
            · rcases R.child_put_cases c a b
                  (R.container.set (R.child c a) p v) hoka hokb hab with
                heq | ⟨hnew, hold⟩
              · rw [heq]
                exact h
              · exact present_congr_shape (hold.trans hnew.symm) h

/-- An object stays an object while places other than its own are written. -/
theorem shapeOf_get_set
    {c : Option Q}
    {p r : List K}
    {k : K}
    {m : M}
    (hp : ∀ k ∈ p, R.Canonical k)
    (hr : ∀ k ∈ r, R.Canonical k)
    (hpr : Container.Incomparable p (r ++ [k]))
    (hm : R.shapeOf (R.container.get c r) = .object m)
    (v : Option Q) :
    ∃ m', R.shapeOf (R.container.get (R.container.set c p v) r) = .object m' := by
  by_cases hprefix : r <+: p
  · obtain ⟨p', rfl⟩ := hprefix
    rw [Container.get_set_append R.child_put_self]
    cases p' with
    | nil =>
        rw [List.append_nil] at hpr
        exact absurd (List.prefix_append r [k]) hpr.1
    | cons k' p' =>
        simp [put, hm]
  · have hincomparable : Container.Incomparable p r :=
      ⟨fun h => hpr.1 (h.trans (List.prefix_append _ _)), hprefix⟩
    have hne : R.container.get c r ≠ none := by
      intro h
      rw [h] at hm
      cases hm
    obtain ⟨hget, _⟩ :=
      (present_of_get_ne_none hne).set hp hr hincomparable v
    exact ⟨m, by rw [hget, hm]⟩

/-- A place that exists stays as it is during a list of writes elsewhere. -/
theorem Present.foldl_set
    {c : Option Q}
    {q : List K}
    {l : List (List K × Option Q)}
    (h : R.Present c q)
    (hq : ∀ k ∈ q, R.Canonical k)
    (hl : ∀ e ∈ l, ∀ k ∈ e.1, R.Canonical k)
    (hlq : ∀ e ∈ l, Container.Incomparable e.1 q) :
    R.container.get (l.foldl (fun c e => R.container.set c e.1 e.2) c) q =
      R.container.get c q := by
  induction l generalizing c with
  | nil =>
      rfl
  | cons e l ih =>
      obtain ⟨hget, hpresent⟩ :=
        h.set (hl e List.mem_cons_self) hq (hlq e List.mem_cons_self) e.2
      rw [List.foldl_cons, ih hpresent, hget]
      · exact fun f hf => hl f (List.mem_cons_of_mem _ hf)
      · exact fun f hf => hlq f (List.mem_cons_of_mem _ hf)

/-- **No write is lost**: all of them can be read after the last one. -/
theorem get_foldl_set
    (c : Option Q)
    {l : List (List K × Option Q)}
    (hl : ∀ e ∈ l, ∀ k ∈ e.1, R.Canonical k)
    (hpairwise : l.Pairwise (fun e f => Container.Incomparable e.1 f.1)) :
    ∀ e ∈ l,
      R.container.get (l.foldl (fun c e => R.container.set c e.1 e.2) c) e.1 =
        e.2 := by
  induction l generalizing c with
  | nil =>
      simp
  | cons e l ih =>
      obtain ⟨he, hpairwise⟩ := List.pairwise_cons.mp hpairwise
      have hl' : ∀ f ∈ l, ∀ k ∈ f.1, R.Canonical k :=
        fun f hf => hl f (List.mem_cons_of_mem _ hf)
      intro f hf
      rw [List.foldl_cons]
      rcases List.mem_cons.mp hf with rfl | hf
      · have hpresent : R.Present (R.container.set c f.1 f.2) f.1 :=
          present_set_self c f.1 f.2
        rw [hpresent.foldl_set (hl f List.mem_cons_self) hl'
          (fun g hg => (he g hg).symm)]
        exact R.get_set_self c f.1 f.2
      · exact ih _ hl' hpairwise f hf

end TreeRep

end Lib
end AgencyNode
