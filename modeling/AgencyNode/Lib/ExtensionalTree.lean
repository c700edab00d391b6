import AgencyNode.Lib.KeyedTree

/-!
# Extensional trees

A tree representation is extensional if an object is determined by its entries
and a container by what it holds.  For such a representation writing back what
has been read changes nothing, the last of two writes to one place wins, and
writes commute whenever their keys part at a container in which the order does
not show.

The order shows in three situations: one of the writes turns an array into an
object and the other one would pad it; one of the writes removes an element of
an array that the other one turns into an object; or one of the writes removes
a member of an object that the other one has yet to create.  `Parting` excludes
them, `Independent` does so for two paths, and independent writes may be done
in any order.
-/

namespace AgencyNode
namespace Lib

universe u v w u' v'

namespace TreeRep

variable {Q : Type u} {M : Type v} {K : Type w} (R : TreeRep Q M K)

/-- Objects and containers are determined by what they hold. -/
structure Extensional : Prop where
  members_ext : ∀ m m', (∀ k, R.entry m k = R.entry m' k) → m = m'
  array_eta : ∀ q l, R.shape q = .array l → R.array l = q
  object_eta : ∀ q m, R.shape q = .object m → R.object m = q

variable {R}

theorem Extensional.eq_of_array
    (hR : R.Extensional)
    {c : Option Q}
    {l : List (Option Q)}
    (hc : R.shapeOf c = .array l) :
    c = some (R.array l) := by
  cases c with
  | none =>
      simp at hc
  | some q =>
      rw [hR.array_eta q l hc]

theorem Extensional.eq_of_object
    (hR : R.Extensional)
    {c : Option Q}
    {m : M}
    (hc : R.shapeOf c = .object m) :
    c = some (R.object m) := by
  cases c with
  | none =>
      simp at hc
  | some q =>
      rw [hR.object_eta q m hc]

/-! ### Get-put and put-put -/

/-- **Get-put** at one level. -/
theorem Extensional.put_child
    (hR : R.Extensional)
    (c : Option Q)
    (k : K)
    (hne : R.child c k ≠ none) :
    R.put c k (R.child c k) = c := by
  cases hc : R.shapeOf c with
  | leaf =>
      simp [child, hc] at hne
  | array l =>
      cases hk : R.index k with
      | none =>
          simp [child, hc, hk] at hne
      | some i =>
          have hi : i < l.length := by
            by_contra hlen
            simp [child, hc, hk, List.getD_eq_getElem?_getD,
              List.getElem?_eq_none (Nat.not_lt.mp hlen)] at hne
          have hpad : padTo R.null l (i + 1) = l := padTo_of_le hi
          rw [hR.eq_of_array hc]
          simp [put, child, putElement, hk, hpad, List.getD_eq_getElem?_getD,
            List.getElem?_eq_getElem hi]
  | object m =>
      rw [hR.eq_of_object hc] at hne ⊢
      cases hv : R.find m k with
      | none =>
          simp [child, hv] at hne
      | some v =>
          have hentry : R.entry m k = some (some v) := by
            simpa [find, Option.getD_eq_iff] using hv
          have hstore : R.store m k (some v) = m := by
            apply hR.members_ext
            intro k'
            by_cases hk' : k = k'
            · rw [← hk', R.entry_store_self, hentry]
            · exact R.entry_store_ne m k k' (some v) hk'
          simp [put, child, hv, putMember, hstore]

theorem Extensional.store_store
    (hR : R.Extensional)
    (m : M)
    (k : K)
    (v w : Option Q) :
    R.store (R.store m k v) k w = R.store m k w := by
  apply hR.members_ext
  intro k'
  by_cases hk' : k = k'
  · rw [← hk', R.entry_store_self, R.entry_store_self]
  · rw [R.entry_store_ne _ _ _ _ hk', R.entry_store_ne _ _ _ _ hk',
      R.entry_store_ne _ _ _ _ hk']

theorem Extensional.store_erase
    (hR : R.Extensional)
    (m : M)
    (k : K)
    (w : Option Q) :
    R.store (R.erase m k) k w = R.store m k w := by
  apply hR.members_ext
  intro k'
  by_cases hk' : k = k'
  · rw [← hk', R.entry_store_self, R.entry_store_self]
  · rw [R.entry_store_ne _ _ _ _ hk', R.entry_store_ne _ _ _ _ hk',
      R.entry_erase_ne _ _ _ hk']

/-- **Put-put** at one level: the last write of something wins. -/
theorem Extensional.put_put
    (hR : R.Extensional)
    (c : Option Q)
    (k : K)
    (x y : Option Q)
    (hy : y ≠ none) :
    R.put (R.put c k x) k y = R.put c k y := by
  obtain ⟨y, rfl⟩ := Option.ne_none_iff_exists'.mp hy
  cases hc : R.shapeOf c with
  | leaf =>
      simp [put, hc, putMember, hR.store_store]
  | array l =>
      cases hk : R.index k with
      | none =>
          simp [put, hc, putElement, hk, putMember, hR.store_store]
      | some i =>
          have hpad :
              padTo R.null ((padTo R.null l (i + 1)).set i x) (i + 1) =
                (padTo R.null l (i + 1)).set i x := by
            apply padTo_of_le
            rw [List.length_set, length_padTo]
            omega
          simp [put, hc, putElement, hk, hpad]
  | object m =>
      cases x with
      | none =>
          simp [put, hc, putMember, hR.store_erase]
      | some x =>
          simp [put, hc, putMember, hR.store_store]

/-! ### Writes that commute -/

variable (R)

/--
Writes at `a` and `b` commute in a container of this shape; `x` and `y` say
that the one at `a`, respectively the one at `b`, removes the child.
-/
def Parting (c : Option Q) (a : K) (x : Prop) (b : K) (y : Prop) : Prop :=
  match R.shapeOf c with
  | .leaf => ¬ x ∧ ¬ y
  | .object _ => True
  | .array l =>
      match R.index a, R.index b with
      | some _, some _ => True
      | some i, none => i ≤ l.length ∧ ¬ x
      | none, some j => j ≤ l.length ∧ ¬ y
      | none, none => ¬ x ∧ ¬ y

variable {R}

theorem Parting.symm
    {c : Option Q}
    {a b : K}
    {x y : Prop}
    (h : R.Parting c a x b y) :
    R.Parting c b y a x := by
  unfold Parting at h ⊢
  cases hc : R.shapeOf c with
  | leaf =>
      simp only [hc] at h ⊢
      exact h.symm
  | array l =>
      cases ha : R.index a <;> cases hb : R.index b <;>
        simp only [hc, ha, hb] at h ⊢
      · exact h.symm
      · exact h
      · exact h
  | object m =>
      trivial

theorem Parting.congr_shape
    {c d : Option Q}
    {a b : K}
    {x y : Prop}
    (hcd : R.shapeOf c = R.shapeOf d) :
    R.Parting c a x b y ↔ R.Parting d a x b y := by
  unfold Parting
  rw [hcd]

/-- A write never makes the order of two other writes show. -/
theorem Parting.put
    {c : Option Q}
    {a b : K}
    {x y : Prop}
    (h : R.Parting c a x b y)
    (k : K)
    (z : Option Q) :
    R.Parting (R.put c k z) a x b y := by
  cases hc : R.shapeOf c with
  | leaf =>
      simp [Parting, TreeRep.put, hc]
  | object m =>
      simp [Parting, TreeRep.put, hc]
  | array l =>
      cases hk : R.index k with
      | none =>
          simp [Parting, TreeRep.put, hc, putElement, hk]
      | some i =>
          cases ha : R.index a <;> cases hb : R.index b <;>
            simp [Parting, TreeRep.put, hc, putElement, hk, ha, hb] at h ⊢
          · exact h
          · exact ⟨by omega, h.2⟩
          · exact ⟨by omega, h.2⟩

theorem Extensional.putMember_comm
    (hR : R.Extensional)
    (m : M)
    {a b : K}
    (x y : Option Q)
    (hab : a ≠ b) :
    R.putMember (R.putMember m a x) b y =
      R.putMember (R.putMember m b y) a x := by
  have hentry : ∀ m k z, R.entry (R.putMember m k z) k = z.map some := by
    intro m k z
    cases z with
    | none =>
        exact R.entry_erase_self m k
    | some z =>
        exact R.entry_store_self m k (some z)
  apply hR.members_ext
  intro k
  by_cases hka : a = k
  · subst hka
    rw [R.entry_putMember_ne _ _ (fun h => hab h.symm), hentry, hentry]
  · by_cases hkb : b = k
    · subst hkb
      rw [R.entry_putMember_ne _ _ hab, hentry, hentry]
    · rw [R.entry_putMember_ne _ _ hkb, R.entry_putMember_ne _ _ hka,
        R.entry_putMember_ne _ _ hka, R.entry_putMember_ne _ _ hkb]

/-- Two writes to elements of an array commute. -/
theorem write_comm
    (null : Q)
    (l : List (Option Q))
    {i j : Nat}
    (x y : Option Q)
    (hij : i ≠ j) :
    (padTo null ((padTo null l (i + 1)).set i x) (j + 1)).set j y =
      (padTo null ((padTo null l (j + 1)).set j y) (i + 1)).set i x := by
  apply List.ext_getElem?
  intro t
  have hlen : ∀ s z, ((padTo null l (s + 1)).set s z).length =
      max l.length (s + 1) := by
    intro s z
    simp
  simp only [getElem?_write, hlen]
  grind

/--
Converting an array after a write to an element is the same as writing the
member of the converted array, if the write does not pad.
-/
theorem Extensional.members_write
    (hR : R.Extensional)
    (l : List (Option Q))
    {i : Nat}
    (x : Q)
    (hi : i ≤ l.length) :
    R.members ((padTo R.null l (i + 1)).set i (some x)) =
      R.store (R.members l) (R.name i) (some x) := by
  apply hR.members_ext
  intro k
  by_cases hname : ∃ j, k = R.name j
  · obtain ⟨j, rfl⟩ := hname
    rw [R.entry_members_name, getElem?_write]
    by_cases hji : j = i
    · subst hji
      rw [if_pos rfl, R.entry_store_self]
    · have hne : R.name i ≠ R.name j := by
        intro h
        exact hji (R.name_injective h).symm
      have hlt : ¬ j < i ∨ j < l.length := by omega
      rw [if_neg hji, R.entry_store_ne _ _ _ _ hne, R.entry_members_name]
      by_cases hlen : j < l.length
      · rw [if_pos hlen]
      · rw [if_neg hlen, if_neg (by omega),
          List.getElem?_eq_none (Nat.not_lt.mp hlen)]
  · have hk : ∀ j, k ≠ R.name j := fun j h => hname ⟨j, h⟩
    rw [R.entry_members_of_ne _ hk,
      R.entry_store_ne _ _ _ _ (fun h => hk i h.symm),
      R.entry_members_of_ne _ hk]

theorem Extensional.store_comm
    (hR : R.Extensional)
    (m : M)
    {a b : K}
    (x y : Option Q)
    (hab : a ≠ b) :
    R.store (R.store m a x) b y = R.store (R.store m b y) a x := by
  apply hR.members_ext
  intro k
  by_cases hka : a = k
  · subst hka
    rw [R.entry_store_ne _ _ _ _ (fun h => hab h.symm), R.entry_store_self,
      R.entry_store_self]
  · by_cases hkb : b = k
    · subst hkb
      rw [R.entry_store_self, R.entry_store_ne _ _ _ _ hka, R.entry_store_self]
    · rw [R.entry_store_ne _ _ _ _ hkb, R.entry_store_ne _ _ _ _ hka,
        R.entry_store_ne _ _ _ _ hka, R.entry_store_ne _ _ _ _ hkb]

/-- A write by index that does not pad and one that converts the array. -/
theorem Extensional.putElement_convert
    (hR : R.Extensional)
    (l : List (Option Q))
    {a b : K}
    {i : Nat}
    (x : Q)
    (y : Option Q)
    (ha : R.Canonical a)
    (hai : R.index a = some i)
    (hb : R.index b = none)
    (hi : i ≤ l.length) :
    R.put (R.put (some (R.array l)) a (some x)) b y =
      R.put (R.put (some (R.array l)) b y) a (some x) := by
  have hname := ha i hai
  have hab : R.name i ≠ b := by
    rintro rfl
    exact R.index_name i hb
  simp only [put, shapeOf_array, putElement, hai, hb, shapeOf_object, putMember,
    hR.members_write l x hi]
  rw [hname, hR.store_comm _ _ _ hab]

/-- **Two writes commute** where their keys part. -/
theorem Extensional.put_comm
    (hR : R.Extensional)
    (c : Option Q)
    {a b : K}
    (x y : Option Q)
    (ha : R.Canonical a)
    (hb : R.Canonical b)
    (hab : a ≠ b)
    (hpart : R.Parting c a (x = none) b (y = none)) :
    R.put (R.put c a x) b y = R.put (R.put c b y) a x := by
  cases hc : R.shapeOf c with
  | leaf =>
      simp only [Parting, hc] at hpart
      obtain ⟨x, rfl⟩ := Option.ne_none_iff_exists'.mp hpart.1
      obtain ⟨y, rfl⟩ := Option.ne_none_iff_exists'.mp hpart.2
      simp [put, hc, putMember, hR.store_comm _ _ _ hab]
  | object m =>
      simp [put, hc, hR.putMember_comm _ _ _ hab]
  | array l =>
      rw [hR.eq_of_array hc] at hpart ⊢
      cases hai : R.index a with
      | some i =>
          cases hbj : R.index b with
          | some j =>
              have hij : i ≠ j := by
                rintro rfl
                exact hab (ha.index_inj hb hai hbj)
              simp [put, putElement, hai, hbj, write_comm _ _ _ _ hij]
          | none =>
              simp only [Parting, shapeOf_array, hai, hbj] at hpart
              obtain ⟨x, rfl⟩ := Option.ne_none_iff_exists'.mp hpart.2
              exact hR.putElement_convert l x y ha hai hbj hpart.1
      | none =>
          cases hbj : R.index b with
          | some j =>
              simp only [Parting, shapeOf_array, hai, hbj] at hpart
              obtain ⟨y, rfl⟩ := Option.ne_none_iff_exists'.mp hpart.2
              exact (hR.putElement_convert l y x hb hbj hai hpart.1).symm
          | none =>
              simp only [Parting, shapeOf_array, hai, hbj] at hpart
              obtain ⟨x, rfl⟩ := Option.ne_none_iff_exists'.mp hpart.1
              obtain ⟨y, rfl⟩ := Option.ne_none_iff_exists'.mp hpart.2
              simp [put, putElement, hai, hbj, putMember,
                hR.store_comm _ _ _ hab]

/-! ### The laws along paths -/

/-- **Get-put** along a path. -/
theorem Extensional.set_get_self
    (hR : R.Extensional)
    (c : Option Q)
    (p : List K)
    (hne : R.container.get c p ≠ none) :
    R.container.set c p (R.container.get c p) = c := by
  exact Container.set_get_self R.child_none hR.put_child c p hne

/-- **Put-put** along a path. -/
theorem Extensional.set_set_self
    (hR : R.Extensional)
    (c : Option Q)
    (p : List K)
    (v w : Option Q)
    (hw : w ≠ none) :
    R.container.set (R.container.set c p v) p w = R.container.set c p w := by
  exact Container.set_set_self R.child_put_self R.put_ne_none hR.put_put
    c p v w hw

variable (R)

/--
The order of two writes does not show: at the container where their paths part
they commute.  `x` and `y` say that the write at `p`, respectively at `q`,
removes what is there.
-/
def Independent
    (c : Option Q)
    (p : List K)
    (x : Prop)
    (q : List K)
    (y : Prop) : Prop :=
  Container.Incomparable p q ∧
    ∀ r a p' b q', p = r ++ a :: p' → q = r ++ b :: q' → a ≠ b →
      R.Parting (R.container.get c r) a (p' = [] ∧ x) b (q' = [] ∧ y)

variable {R}

theorem Independent.symm
    {c : Option Q}
    {p q : List K}
    {x y : Prop}
    (h : R.Independent c p x q y) :
    R.Independent c q y p x := by
  refine ⟨h.1.symm, ?_⟩
  intro r a p' b q' hp hq hab
  exact (h.2 r b q' a p' hq hp (fun h => hab h.symm)).symm

theorem Independent.tail
    {c : Option Q}
    {k : K}
    {p q : List K}
    {x y : Prop}
    (h : R.Independent c (k :: p) x (k :: q) y) :
    R.Independent (R.child c k) p x q y := by
  refine ⟨h.1.tail, ?_⟩
  intro r a p' b q' hp hq hab
  exact h.2 (k :: r) a p' b q' (by simp [hp]) (by simp [hq]) hab

theorem Independent.parting
    {c : Option Q}
    {a b : K}
    {p q : List K}
    {x y : Prop}
    (h : R.Independent c (a :: p) x (b :: q) y)
    (hab : a ≠ b) :
    R.Parting c a (p = [] ∧ x) b (q = [] ∧ y) := by
  exact h.2 [] a p b q rfl rfl hab

theorem independent_cons_self
    {c : Option Q}
    {k : K}
    {p q : List K}
    {x y : Prop}
    (h : R.Independent (R.child c k) p x q y) :
    R.Independent c (k :: p) x (k :: q) y := by
  refine ⟨h.1.cons k, ?_⟩
  intro r a p' b q' hp hq hab
  cases r with
  | nil =>
      simp only [List.nil_append, List.cons.injEq] at hp hq
      exact absurd (hp.1.symm.trans hq.1) hab
  | cons k' r =>
      simp only [List.cons_append, List.cons.injEq] at hp hq
      obtain ⟨rfl, hp⟩ := hp
      exact h.2 r a p' b q' hp hq.2 hab

theorem independent_cons_ne
    {c : Option Q}
    {a b : K}
    {p q : List K}
    {x y : Prop}
    (hab : a ≠ b)
    (h : R.Parting c a (p = [] ∧ x) b (q = [] ∧ y)) :
    R.Independent c (a :: p) x (b :: q) y := by
  refine ⟨Container.incomparable_cons_ne hab, ?_⟩
  intro r a' p' b' q' hp hq _
  cases r with
  | nil =>
      simp only [List.nil_append, List.cons.injEq] at hp hq
      obtain ⟨rfl, rfl⟩ := hp
      obtain ⟨rfl, rfl⟩ := hq
      exact h
  | cons k r =>
      simp only [List.cons_append, List.cons.injEq] at hp hq
      exact absurd (hp.1.trans hq.1.symm) hab

theorem set_eq_none_iff
    (c : Option Q)
    (p : List K)
    (v : Option Q) :
    R.container.set c p v = none ↔ p = [] ∧ v = none := by
  cases p with
  | nil =>
      simp
  | cons k p =>
      simp [R.put_ne_none]

/-- Independent writes are exchangeable. -/
theorem Extensional.exchangeable
    (hR : R.Extensional)
    (c : Option Q)
    (p q : List K)
    (v w : Option Q)
    (hp : ∀ k ∈ p, R.Canonical k)
    (hq : ∀ k ∈ q, R.Canonical k)
    (h : R.Independent c p (v = none) q (w = none)) :
    R.container.Exchangeable c p v q w := by
  induction p generalizing c q with
  | nil =>
      exact absurd h.1 (Container.not_incomparable_nil_left q)
  | cons a p ih =>
      cases q with
      | nil =>
          exact absurd h.1 (Container.not_incomparable_nil_right _)
      | cons b q =>
          by_cases hab : a = b
          · subst hab
            left
            refine ⟨rfl, ih (R.child c a) q ?_ ?_ h.tail⟩
            · exact fun k hk => hp k (List.mem_cons_of_mem _ hk)
            · exact fun k hk => hq k (List.mem_cons_of_mem _ hk)
          · right
            have hpart := h.parting hab
            refine ⟨hab, hR.put_comm c _ _ (hp a List.mem_cons_self)
              (hq b List.mem_cons_self) hab ?_⟩
            simpa only [set_eq_none_iff] using hpart

/-- **Independent writes commute.** -/
theorem Extensional.set_comm
    (hR : R.Extensional)
    (c : Option Q)
    (p q : List K)
    (v w : Option Q)
    (hp : ∀ k ∈ p, R.Canonical k)
    (hq : ∀ k ∈ q, R.Canonical k)
    (h : R.Independent c p (v = none) q (w = none)) :
    R.container.set (R.container.set c p v) q w =
      R.container.set (R.container.set c q w) p v := by
  refine Container.set_comm R.Canonical R.child_put_self R.put_ne_none
    hR.put_put ?_ c p q v w hp hq (hR.exchangeable c p q v w hp hq h)
  intro c a b x ha hb hab
  exact R.alike_child_put c a b x ha hb hab

/-- Independence depends on the shape of the container only. -/
theorem Independent.congr_shape
    {c d : Option Q}
    {p q : List K}
    {x y : Prop}
    (hcd : R.shapeOf c = R.shapeOf d)
    (h : R.Independent c p x q y) :
    R.Independent d p x q y := by
  refine ⟨h.1, ?_⟩
  intro r a p' b q' hp hq hab
  have hpart := h.2 r a p' b q' hp hq hab
  cases r with
  | nil =>
      exact (Parting.congr_shape hcd).mp hpart
  | cons k r =>
      have hchild : R.child c k = R.child d k := by
        unfold child
        rw [hcd]
      rw [Container.get_cons, container_child] at hpart ⊢
      rwa [← hchild]

/-- Independence survives a write at a third path. -/
theorem Independent.set
    {c : Option Q}
    {p q o : List K}
    {x y : Prop}
    (hp : ∀ k ∈ p, R.Canonical k)
    (ho : ∀ k ∈ o, R.Canonical k)
    (h : R.Independent c p x q y)
    (hop : Container.Incomparable o p)
    (hoq : Container.Incomparable o q)
    (u : Option Q) :
    R.Independent (R.container.set c o u) p x q y := by
  induction o generalizing c p q with
  | nil =>
      exact absurd hop (Container.not_incomparable_nil_left p)
  | cons k o ih =>
      cases p with
      | nil =>
          exact absurd hop (Container.not_incomparable_nil_right _)
      | cons a p =>
          cases q with
          | nil =>
              exact absurd hoq (Container.not_incomparable_nil_right _)
          | cons b q =>
              rw [Container.set_cons, container_put, container_child]
              by_cases hab : a = b
              · subst hab
                apply independent_cons_self
                by_cases hka : k = a
                · subst hka
                  rw [R.child_put_self]
                  exact ih (fun k hk => hp k (List.mem_cons_of_mem _ hk))
                    (fun k hk => ho k (List.mem_cons_of_mem _ hk))
                    h.tail hop.tail hoq.tail
                · rcases R.child_put_cases c k a
                      (R.container.set (R.child c k) o u)
                      (ho k List.mem_cons_self) (hp a List.mem_cons_self)
                      hka with heq | ⟨hnew, hold⟩
                  · rw [heq]
                    exact h.tail
                  · exact h.tail.congr_shape (hold.trans hnew.symm)
              · exact independent_cons_ne hab ((h.parting hab).put k _)

/--
**Independent writes may be done in any order.**  The writes are given as pairs
of a path and a value.
-/
theorem Extensional.foldl_set_perm
    (hR : R.Extensional)
    (c : Option Q)
    {l l' : List (List K × Option Q)}
    (hperm : l.Perm l')
    (hcanonical : ∀ e ∈ l, ∀ k ∈ e.1, R.Canonical k)
    (hindep : l.Pairwise
      (fun e f => R.Independent c e.1 (e.2 = none) f.1 (f.2 = none))) :
    l.foldl (fun c e => R.container.set c e.1 e.2) c =
      l'.foldl (fun c e => R.container.set c e.1 e.2) c := by
  refine foldl_perm_of_independent
    (fun c e f =>
      (∀ k ∈ e.1, R.Canonical k) ∧ (∀ k ∈ f.1, R.Canonical k) ∧
        R.Independent c e.1 (e.2 = none) f.1 (f.2 = none))
    ?_ ?_ ?_ hperm c ?_
  · rintro c e f ⟨he, hf, h⟩
    exact ⟨hf, he, h.symm⟩
  · rintro c e f ⟨he, hf, h⟩
    exact hR.set_comm c e.1 f.1 e.2 f.2 he hf h
  · rintro c e f g ⟨hg, he, hge⟩ ⟨_, hf, hgf⟩ ⟨_, _, h⟩
    exact ⟨he, hf, h.set he hg hge.1 hgf.1 g.2⟩
  · exact hindep.imp_of_mem
      (fun he hf h => ⟨hcanonical _ he, hcanonical _ hf, h⟩)

end TreeRep

/-! ### Homomorphisms -/

/--
A map of representations: it keeps the shapes and the entries.  Only the
target has to be extensional.
-/
structure TreeHom
    {Q : Type u} {M : Type v} {K : Type w} {Q' : Type u'} {M' : Type v'}
    (R : TreeRep Q M K)
    (R' : TreeRep Q' M' K) where
  map : Q → Q'
  mapMembers : M → M'
  map_array : ∀ l, map (R.array l) = R'.array (l.map (Option.map map))
  map_object : ∀ m, map (R.object m) = R'.object (mapMembers m)
  map_null : map R.null = R'.null
  shape_map : ∀ q, R'.shape (map q) =
    match R.shape q with
    | .leaf => .leaf
    | .array l => .array (l.map (Option.map map))
    | .object m => .object (mapMembers m)
  entry_map : ∀ m k,
    R'.entry (mapMembers m) k = (R.entry m k).map (Option.map map)
  index_eq : ∀ k, R'.index k = R.index k
  name_eq : ∀ i, R'.name i = R.name i

namespace TreeHom

variable {Q : Type u} {M : Type v} {K : Type w} {Q' : Type u'} {M' : Type v'}
variable {R : TreeRep Q M K} {R' : TreeRep Q' M' K} (h : TreeHom R R')

theorem shapeOf_map
    (c : Option Q) :
    R'.shapeOf (c.map h.map) =
      match R.shapeOf c with
      | .leaf => .leaf
      | .array l => .array (l.map (Option.map h.map))
      | .object m => .object (h.mapMembers m) := by
  cases c with
  | none =>
      rfl
  | some q =>
      exact h.shape_map q

theorem child_map
    (c : Option Q)
    (k : K) :
    R'.child (c.map h.map) k = (R.child c k).map h.map := by
  unfold TreeRep.child
  rw [h.shapeOf_map]
  cases R.shapeOf c with
  | leaf =>
      rfl
  | array l =>
      simp only [h.index_eq]
      cases R.index k with
      | none =>
          rfl
      | some i =>
          simp only [List.getD_eq_getElem?_getD, List.getElem?_map]
          cases l[i]? <;> rfl
  | object m =>
      simp only [TreeRep.find, h.entry_map]
      cases R.entry m k <;> rfl

theorem store_map
    (hR' : R'.Extensional)
    (m : M)
    (k : K)
    (v : Option Q) :
    h.mapMembers (R.store m k v) =
      R'.store (h.mapMembers m) k (v.map h.map) := by
  apply hR'.members_ext
  intro k'
  by_cases hk : k = k'
  · subst hk
    simp [h.entry_map, R.entry_store_self, R'.entry_store_self]
  · simp [h.entry_map, R.entry_store_ne _ _ _ _ hk,
      R'.entry_store_ne _ _ _ _ hk]

theorem erase_map
    (hR' : R'.Extensional)
    (m : M)
    (k : K) :
    h.mapMembers (R.erase m k) = R'.erase (h.mapMembers m) k := by
  apply hR'.members_ext
  intro k'
  by_cases hk : k = k'
  · subst hk
    simp [h.entry_map, R.entry_erase_self, R'.entry_erase_self]
  · simp [h.entry_map, R.entry_erase_ne _ _ _ hk, R'.entry_erase_ne _ _ _ hk]

theorem empty_map
    (hR' : R'.Extensional) :
    h.mapMembers R.empty = R'.empty := by
  apply hR'.members_ext
  intro k
  simp [h.entry_map, R.entry_empty, R'.entry_empty]

theorem members_map
    (hR' : R'.Extensional)
    (l : List (Option Q)) :
    h.mapMembers (R.members l) = R'.members (l.map (Option.map h.map)) := by
  have hfrom : ∀ (l : List (Option Q)) i m,
      h.mapMembers (R.membersFrom i l m) =
        R'.membersFrom i (l.map (Option.map h.map)) (h.mapMembers m) := by
    intro l
    induction l with
    | nil =>
        intro i m
        rfl
    | cons v l ih =>
        intro i m
        simp only [TreeRep.membersFrom, List.map_cons]
        rw [ih, h.store_map hR', h.name_eq]
  rw [TreeRep.members, hfrom, h.empty_map hR']
  rfl

theorem put_map
    (hR' : R'.Extensional)
    (c : Option Q)
    (k : K)
    (v : Option Q) :
    R'.put (c.map h.map) k (v.map h.map) = (R.put c k v).map h.map := by
  unfold TreeRep.put
  rw [h.shapeOf_map]
  cases R.shapeOf c with
  | leaf =>
      simp [h.map_object, h.store_map hR', h.empty_map hR']
  | array l =>
      simp only [TreeRep.putElement, h.index_eq]
      cases R.index k with
      | none =>
          simp [h.map_object, h.store_map hR', h.members_map hR']
      | some i =>
          simp [h.map_array, padTo, h.map_null, List.map_set]
  | object m =>
      cases v with
      | none =>
          simp [TreeRep.putMember, h.map_object, h.erase_map hR']
      | some v =>
          simp [TreeRep.putMember, h.map_object, h.store_map hR']

/-- Reading commutes with the map. -/
theorem get_map
    (c : Option Q)
    (p : List K) :
    R'.container.get (c.map h.map) p = (R.container.get c p).map h.map := by
  induction p generalizing c with
  | nil =>
      rfl
  | cons k p ih =>
      simp only [Container.get_cons, TreeRep.container_child, h.child_map, ih]

/-- Writing commutes with the map. -/
theorem set_map
    (hR' : R'.Extensional)
    (c : Option Q)
    (p : List K)
    (v : Option Q) :
    R'.container.set (c.map h.map) p (v.map h.map) =
      (R.container.set c p v).map h.map := by
  induction p generalizing c with
  | nil =>
      rfl
  | cons k p ih =>
      simp only [Container.set_cons, TreeRep.container_child,
        TreeRep.container_put, h.child_map, ih, h.put_map hR']

theorem parting_map
    {c : Option Q}
    {a b : K}
    {x y : Prop}
    (hpart : R.Parting c a x b y) :
    R'.Parting (c.map h.map) a x b y := by
  unfold TreeRep.Parting at hpart ⊢
  rw [h.shapeOf_map, h.index_eq, h.index_eq]
  cases hc : R.shapeOf c with
  | leaf =>
      simpa only [hc] using hpart
  | array l =>
      simpa only [hc, List.length_map] using hpart
  | object m =>
      trivial

/-- Independence is kept by the map. -/
theorem independent_map
    {c : Option Q}
    {p q : List K}
    {x y : Prop}
    (hindep : R.Independent c p x q y) :
    R'.Independent (c.map h.map) p x q y := by
  refine ⟨hindep.1, ?_⟩
  intro r a p' b q' hp hq hab
  rw [h.get_map]
  exact h.parting_map (hindep.2 r a p' b q' hp hq hab)

end TreeHom

end Lib
end AgencyNode
