import AgencyNode.Lib.ExtensionalTree

/-!
# Copying places of a tree

`copy` takes what one tree holds at a list of paths and writes it into another
tree, one path after the other.  A path whose value is `none` writes `none`: it
creates the way to its place, and below an array it may pad or convert the
array.  So a copy that has been made may be spoiled by a later path that leaves
the tree below it.

`Restored` says when this does no harm: a path that leaves the tree at a place
that has been copied already is followed by another copy of that place.  Below a
copied array two keys of the same index lead to the same place.
`copy_correct_iff` shows that the condition is exact.
-/

namespace AgencyNode
namespace Lib

universe u v w

/-! ## The paths below a key -/

/-- The last occurrence in a list. -/
theorem exists_last
    {α : Type u}
    {a : α}
    {l : List α}
    (h : a ∈ l) :
    ∃ l₁ l₂, l = l₁ ++ a :: l₂ ∧ a ∉ l₂ := by
  classical
  induction l with
  | nil =>
      cases h
  | cons b l ih =>
      by_cases hl : a ∈ l
      · obtain ⟨l₁, l₂, rfl, hnot⟩ := ih hl
        exact ⟨b :: l₁, l₂, rfl, hnot⟩
      · rcases List.mem_cons.mp h with rfl | h
        · exact ⟨[], l, rfl, hl⟩
        · exact absurd h hl

section Below

variable {K : Type w}

theorem exists_length_bound
    (T : List (List K)) :
    ∃ size, ∀ t ∈ T, t.length ≤ size := by
  induction T with
  | nil =>
      exact ⟨0, by simp⟩
  | cons t T ih =>
      obtain ⟨size, hsize⟩ := ih
      refine ⟨max t.length size, List.forall_mem_cons.mpr ⟨by omega, ?_⟩⟩
      intro s hs
      have := hsize s hs
      omega

open Classical in
/-- What remains of the paths whose first key is one of those given. -/
noncomputable def below (P : K → Prop) (T : List (List K)) : List (List K) :=
  T.filterMap fun t =>
    match t with
    | [] => none
    | a :: t => if P a then some t else none

theorem below_cons_of
    {P : K → Prop}
    {a : K}
    (h : P a)
    (t : List K)
    (T : List (List K)) :
    below P ((a :: t) :: T) = t :: below P T := by
  simp [below, h]

theorem below_cons_of_not
    {P : K → Prop}
    {a : K}
    (h : ¬ P a)
    (t : List K)
    (T : List (List K)) :
    below P ((a :: t) :: T) = below P T := by
  simp [below, h]

theorem below_append
    (P : K → Prop)
    (S T : List (List K)) :
    below P (S ++ T) = below P S ++ below P T := by
  exact List.filterMap_append

theorem mem_below
    {P : K → Prop}
    {t : List K}
    {T : List (List K)} :
    t ∈ below P T ↔ ∃ a, P a ∧ a :: t ∈ T := by
  simp only [below, List.mem_filterMap]
  constructor
  · rintro ⟨s, hs, hst⟩
    cases s with
    | nil =>
        cases hst
    | cons a s =>
        by_cases ha : P a
        · simp only [ha, if_true, Option.some.injEq] at hst
          exact ⟨a, ha, hst ▸ hs⟩
        · simp [ha] at hst
  · rintro ⟨a, ha, h⟩
    exact ⟨a :: t, h, if_pos ha⟩

/-- A place in the paths below some keys is a place in the paths. -/
theorem below_eq_append_cons
    {P : K → Prop}
    {s : List K}
    {T S₁ S₂ : List (List K)}
    (h : below P T = S₁ ++ s :: S₂) :
    ∃ T₁ a T₂, P a ∧ T = T₁ ++ (a :: s) :: T₂ ∧
      below P T₁ = S₁ ∧ below P T₂ = S₂ := by
  obtain ⟨T₁, T', rfl, h₁, h'⟩ := List.filterMap_eq_append_iff.mp h
  obtain ⟨T₀, t, T₂, rfl, h₀, ht, h₂⟩ := List.filterMap_eq_cons_iff.mp h'
  have hnone : below P T₀ = [] := List.filterMap_eq_nil_iff.mpr h₀
  cases t with
  | nil =>
      cases ht
  | cons a t =>
      by_cases ha : P a
      · simp only [ha, if_true, Option.some.injEq] at ht
        refine ⟨T₁ ++ T₀, a, T₂, ha, ?_, ?_, h₂⟩
        · rw [ht, List.append_assoc]
        · rw [below_append, show below P T₁ = S₁ from h₁, hnone, List.append_nil]
      · simp [ha] at ht

/-- All paths below the keys get shorter. -/
theorem length_le_of_mem_below
    {P : K → Prop}
    {T : List (List K)}
    {size : Nat}
    (h : ∀ t ∈ T, t.length ≤ size + 1)
    {t : List K}
    (ht : t ∈ below P T) :
    t.length ≤ size := by
  obtain ⟨a, _, hmem⟩ := mem_below.mp ht
  have hlength := h _ hmem
  rw [List.length_cons] at hlength
  omega

end Below

namespace TreeRep

variable {Q : Type u} {M : Type v} {K : Type w} (R : TreeRep Q M K)

/-- The key leads from the container to a place that a write does not create. -/
def InPlace (c : Option Q) (k : K) : Prop :=
  (∃ m, R.shapeOf c = .object m) ∨
    ((∃ l, R.shapeOf c = .array l) ∧ R.child c k ≠ none)

/-- The keys lead to the same child; in an array the index counts. -/
def SameChild (c : Option Q) (a b : K) : Prop :=
  a = b ∨ (∃ l, R.shapeOf c = .array l) ∧ ∃ i, R.index a = some i ∧ R.index b = some i

/-- The path `y` leads to the place `z` of the tree, or to one above it. -/
def Above : Option Q → List K → List K → Prop
  | _, [], _ => True
  | _, _ :: _, [] => False
  | c, a :: y, b :: z => R.SameChild c a b ∧ Above (R.child c a) y z

/--
Copying `y` covers the place `z` after the paths `T₁` have been copied: it leads
there by the same keys, or it parts from them within a copy.
-/
def Covers (n : Option Q) (covered : Prop) (T₁ : List (List K)) (y z : List K) :
    Prop :=
  y <+: z ∨ (covered ∨ ∃ x ∈ T₁, x <+: z ∧ x <+: y) ∧ R.Above n y z

/--
A path that leaves the tree at the place `z` while `z` is covered by an earlier
path, or covered from the start, is followed by a path that covers `z` again.
-/
def Restored (n : Option Q) (covered : Prop) (T : List (List K)) : Prop :=
  ∀ T₁ t T₂ z k r, T = T₁ ++ t :: T₂ → t = z ++ k :: r →
    ¬ R.InPlace (R.container.get n z) k →
      (covered ∨ ∃ x ∈ T₁, x <+: z) → ∃ y ∈ T₂, R.Covers n covered T₁ y z

variable {R}

theorem SameChild.refl
    (c : Option Q)
    (a : K) :
    R.SameChild c a a :=
  .inl rfl

theorem SameChild.symm
    {c : Option Q}
    {a b : K}
    (h : R.SameChild c a b) :
    R.SameChild c b a := by
  rcases h with rfl | ⟨hc, i, ha, hb⟩
  · exact .inl rfl
  · exact .inr ⟨hc, i, hb, ha⟩

theorem SameChild.trans
    {c : Option Q}
    {a b k : K}
    (hab : R.SameChild c a b)
    (hbk : R.SameChild c b k) :
    R.SameChild c a k := by
  rcases hab with rfl | ⟨hc, i, ha, hb⟩
  · exact hbk
  · rcases hbk with rfl | ⟨_, j, hb', hk⟩
    · exact .inr ⟨hc, i, ha, hb⟩
    · rw [hb, Option.some.injEq] at hb'
      exact .inr ⟨hc, i, ha, hb' ▸ hk⟩

theorem SameChild.child_eq
    {c : Option Q}
    {a b : K}
    (h : R.SameChild c a b) :
    R.child c a = R.child c b := by
  rcases h with rfl | ⟨⟨l, hl⟩, i, ha, hb⟩
  · rfl
  · simp [child, hl, ha, hb]

theorem sameChild_iff_of_not_array
    {c : Option Q}
    (hc : ∀ l, R.shapeOf c ≠ .array l)
    {a b : K} :
    R.SameChild c a b ↔ a = b := by
  constructor
  · rintro (h | ⟨⟨l, hl⟩, _⟩)
    · exact h
    · exact absurd hl (hc l)
  · exact .inl

theorem above_of_prefix
    {y z : List K}
    (h : y <+: z)
    (c : Option Q) :
    R.Above c y z := by
  induction y generalizing c z with
  | nil =>
      trivial
  | cons a y ih =>
      obtain ⟨r, rfl⟩ := h
      exact ⟨.refl c a, ih (List.prefix_append y r) _⟩

/-- After the whole tree has been copied every way to a place counts. -/
theorem covers_true_iff
    {n : Option Q}
    {T₁ : List (List K)}
    {y z : List K} :
    R.Covers n True T₁ y z ↔ R.Above n y z := by
  constructor
  · rintro (h | ⟨_, h⟩)
    · exact above_of_prefix h n
    · exact h
  · exact fun h => .inr ⟨.inl trivial, h⟩

variable (R)

/-- After the whole tree has been copied only the paths that follow count. -/
theorem restored_append_nil_iff
    {n : Option Q}
    {covered : Prop}
    {T₁ T₂ : List (List K)} :
    R.Restored n covered (T₁ ++ [] :: T₂) ↔ R.Restored n True T₂ := by
  constructor
  · intro h S₁ t S₂ z k r hT ht hz _
    have hsplit : T₁ ++ [] :: T₂ = (T₁ ++ [] :: S₁) ++ t :: S₂ := by
      rw [hT, List.append_assoc, List.cons_append]
    obtain ⟨y, hy, hcovers⟩ := h _ t S₂ z k r hsplit ht hz
      (.inr ⟨[], by simp, List.nil_prefix⟩)
    refine ⟨y, hy, covers_true_iff.mpr ?_⟩
    rcases hcovers with hprefix | ⟨_, habove⟩
    · exact above_of_prefix hprefix n
    · exact habove
  · intro h S₁ t S₂ z k r hT ht hz hcovered
    rcases List.append_eq_append_iff.mp hT with ⟨U, hS₁, hU⟩ | ⟨U, hT₁, hU⟩
    · -- The path is the empty one, or it comes later.
      cases U with
      | nil =>
          rw [List.nil_append, List.cons.injEq] at hU
          rw [← hU.1] at ht
          simp at ht
      | cons x U =>
          rw [List.cons_append, List.cons.injEq] at hU
          obtain ⟨y, hy, hcovers⟩ := h U t S₂ z k r hU.2 ht hz (.inl trivial)
          refine ⟨y, hy, .inr ⟨.inr ⟨[], ?_, List.nil_prefix, List.nil_prefix⟩,
            covers_true_iff.mp hcovers⟩⟩
          rw [hS₁, ← hU.1]
          simp
    · cases U with
      | nil =>
          rw [List.nil_append, List.cons.injEq] at hU
          rw [hU.1] at ht
          simp at ht
      | cons x U =>
          rw [List.cons_append, List.cons.injEq] at hU
          refine ⟨[], ?_, .inl List.nil_prefix⟩
          rw [hU.2]
          simp

/-- The condition at the root, and the condition below every key. -/
theorem restored_true_iff_below
    {n : Option Q}
    {T : List (List K)}
    (hT : [] ∉ T) :
    R.Restored n True T ↔
      (∀ k t, k :: t ∈ T → R.InPlace n k) ∧
        ∀ k, R.Restored (R.child n k) True (below (R.SameChild n k) T) := by
  constructor
  · intro h
    refine ⟨?_, ?_⟩
    · intro k t ht
      by_contra hplace
      obtain ⟨T₁, T₂, rfl⟩ := List.append_of_mem ht
      obtain ⟨y, hy, hcovers⟩ :=
        h T₁ (k :: t) T₂ [] k t rfl rfl hplace (.inl trivial)
      cases y with
      | nil =>
          exact hT (by simp [hy])
      | cons a y =>
          exact (covers_true_iff.mp hcovers).elim
    · intro k S₁ s S₂ z k' r hS hs hz _
      obtain ⟨T₁, a, T₂, ha, rfl, rfl, rfl⟩ := below_eq_append_cons hS
      have hplace : ¬ R.InPlace (R.container.get n (a :: z)) k' := by
        rwa [Container.get_cons, container_child, ← ha.child_eq]
      obtain ⟨y, hy, hcovers⟩ := h T₁ (a :: s) T₂ (a :: z) k' r rfl
        (by rw [hs, List.cons_append]) hplace (.inl trivial)
      cases y with
      | nil =>
          exact absurd (by simp [hy]) hT
      | cons b y =>
          obtain ⟨hba, habove⟩ := covers_true_iff.mp hcovers
          have hkb : R.SameChild n k b := ha.trans hba.symm
          refine ⟨y, mem_below.mpr ⟨b, hkb, hy⟩, covers_true_iff.mpr ?_⟩
          rwa [hkb.child_eq]
  · rintro ⟨hroot, hbelow⟩ T₁ t T₂ z k r rfl rfl hz _
    cases z with
    | nil =>
        exact absurd (hroot k r (by simp)) hz
    | cons a z =>
        have hsplit : below (R.SameChild n a) (T₁ ++ (a :: z ++ k :: r) :: T₂) =
            below (R.SameChild n a) T₁ ++ (z ++ k :: r) ::
              below (R.SameChild n a) T₂ := by
          rw [below_append, List.cons_append, below_cons_of (.refl n a)]
        obtain ⟨y, hy, hcovers⟩ :=
          hbelow a _ _ _ z k r hsplit rfl hz (.inl trivial)
        obtain ⟨b, hb, hmem⟩ := mem_below.mp hy
        refine ⟨b :: y, hmem, covers_true_iff.mpr ⟨hb.symm, ?_⟩⟩
        rw [← hb.child_eq]
        exact covers_true_iff.mp hcovers

/-- As long as nothing has been copied, different keys part. -/
theorem restored_false_iff_below
    {n : Option Q}
    {T : List (List K)}
    (hT : [] ∉ T) :
    R.Restored n False T ↔
      ∀ k, R.Restored (R.child n k) False (below (k = ·) T) := by
  constructor
  · intro h k S₁ s S₂ z k' r hS hs hz hcovered
    obtain ⟨T₁, a, T₂, rfl, rfl, rfl, rfl⟩ := below_eq_append_cons hS
    obtain ⟨x, hx, hprefix⟩ := hcovered.resolve_left id
    obtain ⟨_, rfl, hxmem⟩ := mem_below.mp hx
    obtain ⟨y, hy, hcovers⟩ := h T₁ (k :: s) T₂ (k :: z) k' r rfl
      (by rw [hs, List.cons_append]) hz
      (.inr ⟨k :: x, hxmem, List.cons_prefix_cons.mpr ⟨rfl, hprefix⟩⟩)
    cases y with
    | nil =>
        exact absurd (by simp [hy]) hT
    | cons b y =>
        rcases hcovers with hyz | ⟨hstart, _, habove⟩
        · obtain ⟨rfl, htail⟩ := List.cons_prefix_cons.mp hyz
          exact ⟨y, mem_below.mpr ⟨b, rfl, hy⟩, .inl htail⟩
        · obtain ⟨u, hu, huz, huy⟩ := hstart.resolve_left id
          cases u with
          | nil =>
              exact absurd (by simp [hu]) hT
          | cons c u =>
              obtain ⟨rfl, hz'⟩ := List.cons_prefix_cons.mp huz
              obtain ⟨rfl, hy'⟩ := List.cons_prefix_cons.mp huy
              exact ⟨y, mem_below.mpr ⟨c, rfl, hy⟩,
                .inr ⟨.inr ⟨u, mem_below.mpr ⟨c, rfl, hu⟩, hz', hy'⟩, habove⟩⟩
  · rintro hbelow T₁ t T₂ z k r rfl rfl hz hcovered
    obtain ⟨x, hx, hprefix⟩ := hcovered.resolve_left id
    cases x with
    | nil =>
        exact absurd (by simp [hx]) hT
    | cons a x =>
        cases z with
        | nil =>
            simp at hprefix
        | cons b z =>
            obtain ⟨rfl, htail⟩ := List.cons_prefix_cons.mp hprefix
            have hsplit : below (a = ·) (T₁ ++ (a :: z ++ k :: r) :: T₂) =
                below (a = ·) T₁ ++ (z ++ k :: r) :: below (a = ·) T₂ := by
              rw [below_append, List.cons_append, below_cons_of rfl]
            obtain ⟨y, hy, hcovers⟩ := hbelow a _ _ _ z k r hsplit rfl hz
              (.inr ⟨x, mem_below.mpr ⟨a, rfl, hx⟩, htail⟩)
            obtain ⟨_, rfl, hmem⟩ := mem_below.mp hy
            refine ⟨a :: y, hmem, ?_⟩
            rcases hcovers with hyz | ⟨hstart, habove⟩
            · exact .inl (List.cons_prefix_cons.mpr ⟨rfl, hyz⟩)
            · obtain ⟨x, hx, hxz, hxy⟩ := hstart.resolve_left id
              obtain ⟨_, rfl, hxmem⟩ := mem_below.mp hx
              refine .inr ⟨.inr ⟨a :: x, hxmem, ?_, ?_⟩, .refl n a, habove⟩
              · exact List.cons_prefix_cons.mpr ⟨rfl, hxz⟩
              · exact List.cons_prefix_cons.mpr ⟨rfl, hxy⟩

/-! ## Copying -/

/-- Copy what `n` holds at the paths into `w`, one path after the other. -/
def copy (n w : Option Q) (T : List (List K)) : Option Q :=
  T.foldl (fun w t => R.container.set w t (R.container.get n t)) w

theorem copy_nil
    (n w : Option Q) :
    R.copy n w [] = w := by
  rfl

theorem copy_cons
    (n w : Option Q)
    (t : List K)
    (T : List (List K)) :
    R.copy n w (t :: T) =
      R.copy n (R.container.set w t (R.container.get n t)) T := by
  rfl

theorem copy_append_singleton
    (n w : Option Q)
    (t : List K)
    (T : List (List K)) :
    R.copy n w (T ++ [t]) =
      R.container.set (R.copy n w T) t (R.container.get n t) := by
  rw [copy, List.foldl_append]
  rfl

/-- Copying the whole tree forgets what has been copied before. -/
theorem copy_append_nil
    (n w : Option Q)
    (T₁ T₂ : List (List K)) :
    R.copy n w (T₁ ++ [] :: T₂) = R.copy n n T₂ := by
  rw [copy, List.foldl_append]
  rfl

/-! ### Into an object -/

/-- Nothing, or an object: what the way to a place is made of. -/
def Open (c : Option Q) : Prop :=
  c = none ∨ ∃ m, R.shapeOf c = .object m

theorem open_put
    {c : Option Q}
    (hc : R.Open c)
    (k : K)
    (v : Option Q) :
    R.Open (R.put c k v) := by
  rcases hc with rfl | ⟨m, hm⟩
  · exact .inr ⟨_, R.shape_object _⟩
  · refine .inr ⟨R.putMember m k v, ?_⟩
    simp [put, hm]

theorem Open.not_array
    {R : TreeRep Q M K}
    {c : Option Q}
    (hc : R.Open c)
    (l : List (Option Q)) :
    R.shapeOf c ≠ .array l := by
  rcases hc with rfl | ⟨m, hm⟩
  · simp
  · simp [hm]

theorem child_put_ne_of_not_array
    {c : Option Q}
    (hc : ∀ l, R.shapeOf c ≠ .array l)
    {a b : K}
    (hab : a ≠ b)
    (v : Option Q) :
    R.child (R.put c a v) b = R.child c b := by
  cases hshape : R.shapeOf c with
  | leaf =>
      simp [put, hshape, child, find, R.entry_store_ne _ _ _ _ hab, R.entry_empty]
  | array l =>
      exact absurd hshape (hc l)
  | object m =>
      simp [put, hshape, child, find, R.entry_putMember_ne _ _ hab]

/-- Nothing has been written yet. -/
def Blank (c : Option Q) : Prop :=
  R.Open c ∧ ∀ k, R.child c k = none

theorem blank_none :
    R.Blank none :=
  ⟨.inl rfl, fun _ => rfl⟩

/-- Into an object, what lies below different keys is copied independently. -/
theorem child_copy_of_open
    {n w : Option Q}
    (hw : R.Open w)
    {T : List (List K)}
    (hT : [] ∉ T) :
    R.Open (R.copy n w T) ∧
      ∀ k, R.child (R.copy n w T) k =
        R.copy (R.child n k) (R.child w k) (below (k = ·) T) := by
  induction T generalizing w with
  | nil =>
      exact ⟨hw, fun _ => rfl⟩
  | cons t T ih =>
      cases t with
      | nil =>
          exact absurd List.mem_cons_self hT
      | cons a t =>
          have hrest : [] ∉ T := fun h => hT (List.mem_cons_of_mem _ h)
          let x := R.container.set (R.child w a) t
            (R.container.get (R.child n a) t)
          obtain ⟨hopen, hchild⟩ := ih (R.open_put hw a x) hrest
          refine ⟨hopen, ?_⟩
          intro k
          rw [copy_cons]
          refine (hchild k).trans ?_
          by_cases hka : k = a
          · subst hka
            rw [below_cons_of rfl, copy_cons, child_put_self]
          · rw [below_cons_of_not hka,
              R.child_put_ne_of_not_array hw.not_array (Ne.symm hka)]

/-- Above and beside what has been copied there are objects only. -/
theorem open_get_copy
    {n w : Option Q}
    (hw : R.Blank w)
    {T : List (List K)}
    {q : List K}
    (hq : ∀ t ∈ T, ¬ t <+: q) :
    R.Open (R.container.get (R.copy n w T) q) := by
  induction q generalizing n w T with
  | nil =>
      have hT : [] ∉ T := fun h => hq [] h List.nil_prefix
      exact (R.child_copy_of_open hw.1 hT).1
  | cons k q ih =>
      have hT : [] ∉ T := fun h => hq [] h List.nil_prefix
      rw [Container.get_cons, container_child, (R.child_copy_of_open hw.1 hT).2 k,
        hw.2 k]
      refine ih R.blank_none ?_
      intro t ht hprefix
      obtain ⟨_, rfl, hmem⟩ := mem_below.mp ht
      exact hq (k :: t) hmem (List.cons_prefix_cons.mpr ⟨rfl, hprefix⟩)

/-! ### Into a copy of the tree itself -/

/-- No container in the tree holds `none`. -/
def Solid (c : Option Q) : Prop :=
  ∀ p, (∀ l, R.shapeOf (R.container.get c p) = .array l → none ∉ l) ∧
    ∀ m, R.shapeOf (R.container.get c p) = .object m → ∀ k, R.entry m k ≠ some none

variable {R}

theorem Solid.child
    {c : Option Q}
    (h : R.Solid c)
    (k : K) :
    R.Solid (R.child c k) :=
  fun p => h (k :: p)

/-! ### What can not be undone below the root -/

/-- An object, or an array with at least that many elements. -/
def AtLeast (size : Nat) (c : Option Q) : Prop :=
  (∃ m, R.shapeOf c = .object m) ∨
    ∃ l, R.shapeOf c = .array l ∧ size ≤ l.length

theorem AtLeast.put
    {size : Nat}
    {c : Option Q}
    (h : R.AtLeast size c)
    (k : K)
    (v : Option Q) :
    R.AtLeast size (R.put c k v) := by
  rcases h with ⟨m, hm⟩ | ⟨l, hl, hsize⟩
  · exact .inl ⟨R.putMember m k v, by simp [TreeRep.put, hm]⟩
  · cases hk : R.index k with
    | none =>
        exact .inl ⟨_, by simp [TreeRep.put, hl, putElement, hk]; rfl⟩
    | some i =>
        refine .inr ⟨(padTo R.null l (i + 1)).set i v, ?_, ?_⟩
        · simp [TreeRep.put, hl, putElement, hk]
        · rw [List.length_set, length_padTo]
          omega

theorem AtLeast.copy
    {size : Nat}
    {n w : Option Q}
    (h : R.AtLeast size w)
    {T : List (List K)}
    (hT : [] ∉ T) :
    R.AtLeast size (R.copy n w T) := by
  induction T generalizing w with
  | nil =>
      exact h
  | cons t T ih =>
      cases t with
      | nil =>
          exact absurd List.mem_cons_self hT
      | cons a t =>
          exact ih (h.put a _) (fun h => hT (List.mem_cons_of_mem _ h))

/-- A key that leaves an array makes it longer, or an object. -/
theorem AtLeast.put_of_not_inPlace
    {n w : Option Q}
    {l : List (Option Q)}
    (hn : R.shapeOf n = .array l)
    (hsolid : none ∉ l)
    (h : R.AtLeast l.length w)
    {k : K}
    (hk : ¬ R.InPlace n k)
    (v : Option Q) :
    R.AtLeast (l.length + 1) (R.put w k v) := by
  have hchild : R.child n k = none := by
    by_contra hne
    exact hk (.inr ⟨⟨l, hn⟩, hne⟩)
  rcases h with ⟨m, hm⟩ | ⟨l', hl', _⟩
  · exact .inl ⟨R.putMember m k v, by simp [TreeRep.put, hm]⟩
  · cases hindex : R.index k with
    | none =>
        exact .inl ⟨_, by simp [TreeRep.put, hl', putElement, hindex]; rfl⟩
    | some i =>
        have hi : l.length ≤ i := by
          by_contra hlt
          have hlt : i < l.length := by omega
          simp only [TreeRep.child, hn, hindex,
            List.getD_eq_getElem _ _ hlt] at hchild
          exact hsolid (hchild ▸ List.getElem_mem hlt)
        refine .inr ⟨(padTo R.null l' (i + 1)).set i v, ?_, ?_⟩
        · simp [TreeRep.put, hl', putElement, hindex]
        · rw [List.length_set, length_padTo]
          omega

/-- A path that leaves the tree at its root spoils the tree. -/
theorem copy_ne_of_not_inPlace
    {n : Option Q}
    (hsolid : R.Solid n)
    {T : List (List K)}
    (hT : [] ∉ T)
    {k : K}
    {t : List K}
    (ht : k :: t ∈ T)
    (hk : ¬ R.InPlace n k) :
    R.copy n n T ≠ n := by
  obtain ⟨T₁, T₂, rfl⟩ := List.append_of_mem ht
  have hT₁ : [] ∉ T₁ := fun h => hT (by simp [h])
  have hT₂ : [] ∉ T₂ := fun h => hT (by simp [h])
  intro heq
  rw [copy, List.foldl_append, List.foldl_cons] at heq
  cases hn : R.shapeOf n with
  | object m =>
      exact hk (.inl ⟨m, hn⟩)
  | leaf =>
      -- The leaf has become a container.
      have hsome : R.AtLeast 0 (R.container.set (R.copy n n T₁) (k :: t)
          (R.container.get n (k :: t))) := by
        rw [Container.set_cons, container_put]
        cases hw : R.shapeOf (R.copy n n T₁) with
        | leaf =>
            exact .inl ⟨_, by simp [TreeRep.put, hw]; rfl⟩
        | array l =>
            exact AtLeast.put (.inr ⟨l, hw, Nat.zero_le _⟩) k _
        | object m =>
            exact AtLeast.put (.inl ⟨m, hw⟩) k _
      have hfinal := hsome.copy (n := n) hT₂
      rw [copy, copy, heq] at hfinal
      rcases hfinal with ⟨m, hm⟩ | ⟨l, hl, _⟩
      · rw [hn] at hm
        cases hm
      · rw [hn] at hl
        cases hl
  | array l =>
      have hstart : R.AtLeast l.length n := .inr ⟨l, hn, Nat.le_refl _⟩
      have hspoiled := (hstart.copy (n := n) hT₁).put_of_not_inPlace hn
        ((hsolid []).1 l hn) hk
        (R.container.set (R.child (R.copy n n T₁) k) t
          (R.container.get n (k :: t)))
      have hfinal := hspoiled.copy (n := n) hT₂
      have heq' : R.copy n (R.put (R.copy n n T₁) k
          (R.container.set (R.child (R.copy n n T₁) k) t
            (R.container.get n (k :: t)))) T₂ = n := heq
      rw [heq'] at hfinal
      rcases hfinal with ⟨m, hm⟩ | ⟨l', hl', hlength⟩
      · rw [hn] at hm
        cases hm
      · rw [hn] at hl'
        cases hl'
        omega

/-! ### What is copied below the root -/

/-- The members of an object into which paths below it are copied. -/
theorem entry_copy_of_object
    {n w : Option Q}
    {m : M}
    (hw : R.shapeOf w = .object m)
    {T : List (List K)}
    (hT : [] ∉ T) :
    ∃ m', R.shapeOf (R.copy n w T) = .object m' ∧
      ∀ k, (below (k = ·) T = [] → R.entry m' k = R.entry m k) ∧
        (below (k = ·) T ≠ [] → R.entry m' k = (R.find m' k).map some) := by
  induction T generalizing w m with
  | nil =>
      exact ⟨m, hw, fun k => ⟨fun _ => rfl, fun h => absurd rfl h⟩⟩
  | cons t T ih =>
      cases t with
      | nil =>
          exact absurd List.mem_cons_self hT
      | cons a t =>
          have hrest : [] ∉ T := fun h => hT (List.mem_cons_of_mem _ h)
          let x := R.container.set (R.child w a) t
            (R.container.get (R.child n a) t)
          have hput : R.shapeOf (R.put w a x) = .object (R.putMember m a x) := by
            simp [put, hw]
          obtain ⟨m', hm', hentry⟩ := ih hput hrest
          refine ⟨m', hm', ?_⟩
          intro k
          obtain ⟨hkept, hcopied⟩ := hentry k
          by_cases hka : k = a
          · subst hka
            rw [below_cons_of rfl]
            refine ⟨fun h => absurd h (List.cons_ne_nil _ _), fun _ => ?_⟩
            by_cases hbelow : below (k = ·) T = []
            · rw [find, hkept hbelow]
              cases x with
              | none => simp [putMember, R.entry_erase_self]
              | some v => simp [putMember, R.entry_store_self]
            · exact hcopied hbelow
          · rw [below_cons_of_not hka]
            refine ⟨fun hbelow => ?_, hcopied⟩
            rw [hkept hbelow, R.entry_putMember_ne m x (Ne.symm hka)]

/-- An object survives if what lies below its keys does. -/
theorem Extensional.copy_object_iff
    (hR : R.Extensional)
    {n : Option Q}
    {m : M}
    (hn : R.shapeOf n = .object m)
    (hsolid : R.Solid n)
    {T : List (List K)}
    (hT : [] ∉ T) :
    R.copy n n T = n ↔
      ∀ k, R.copy (R.child n k) (R.child n k) (below (R.SameChild n k) T) =
        R.child n k := by
  have hsame : ∀ k, below (R.SameChild n k) T = below (k = ·) T := by
    intro k
    have harray : ∀ l, R.shapeOf n ≠ .array l := by simp [hn]
    have hkeys : R.SameChild n k = (k = ·) :=
      funext fun _ => propext (sameChild_iff_of_not_array harray)
    rw [hkeys]
  simp only [hsame]
  obtain ⟨_, hchild⟩ := R.child_copy_of_open (n := n) (.inr ⟨m, hn⟩) hT
  constructor
  · intro h k
    rw [← hchild k, h]
  · intro h
    obtain ⟨m', hm', hentry⟩ := entry_copy_of_object (n := n) hn hT
    have hfind : ∀ k, R.find m' k = R.find m k := by
      intro k
      have hk := (hchild k).trans (h k)
      simpa only [child, hm', hn] using hk
    have hmembers : m' = m := by
      apply hR.members_ext
      intro k
      by_cases hbelow : below (k = ·) T = []
      · exact (hentry k).1 hbelow
      · rw [(hentry k).2 hbelow, hfind k]
        have hnone := (hsolid []).2 m hn k
        unfold find
        cases hk : R.entry m k with
        | none => rfl
        | some v =>
            cases v with
            | none => exact absurd hk hnone
            | some v => rfl
    rw [hR.eq_of_object hm', hmembers, ← hR.eq_of_object hn]

/-- Elements of an array that exist are copied independently. -/
theorem copy_of_array
    {n w : Option Q}
    {l l₀ : List (Option Q)}
    (hn : R.shapeOf n = .array l₀)
    (hw : R.shapeOf w = .array l)
    {T : List (List K)}
    (hT : [] ∉ T)
    (hkeys : ∀ k t, k :: t ∈ T → ∃ i, i < l.length ∧ R.index k = some i) :
    ∃ l', R.shapeOf (R.copy n w T) = .array l' ∧ l'.length = l.length ∧
      (∀ k i, R.index k = some i → R.child (R.copy n w T) k =
        R.copy (R.child n k) (R.child w k) (below (R.SameChild n k) T)) ∧
      ∀ i : Nat, (∀ k t, k :: t ∈ T → R.index k ≠ some i) → l'[i]? = l[i]? := by
  induction T generalizing w l with
  | nil =>
      exact ⟨l, hw, rfl, fun _ _ _ => rfl, fun _ _ => rfl⟩
  | cons t T ih =>
      cases t with
      | nil =>
          exact absurd List.mem_cons_self hT
      | cons a t =>
          have hrest : [] ∉ T := fun h => hT (List.mem_cons_of_mem _ h)
          obtain ⟨i, hi, hai⟩ := hkeys a t List.mem_cons_self
          let x := R.container.set (R.child w a) t
            (R.container.get (R.child n a) t)
          have hput : R.shapeOf (R.put w a x) = .array (l.set i x) := by
            simp [put, hw, putElement, hai, padTo_of_le hi]
          obtain ⟨l', hl', hlength, hchild, hkept⟩ := ih hput hrest (by
            intro k s hs
            rw [List.length_set]
            exact hkeys k s (List.mem_cons_of_mem _ hs))
          refine ⟨l', hl', by rw [hlength, List.length_set], ?_, ?_⟩
          · intro k j hk
            rw [copy_cons]
            refine (hchild k j hk).trans ?_
            by_cases hji : j = i
            · subst hji
              have hsame : R.SameChild n k a := .inr ⟨⟨l₀, hn⟩, j, hk, hai⟩
              have hchildw : R.child w k = R.child w a := by
                simp [child, hw, hk, hai]
              have hx : R.child (R.put w a x) k = x := by
                simp [child, hput, hk, List.getD_eq_getElem?_getD, hi]
              rw [below_cons_of hsame, copy_cons, hx, hchildw, hsame.child_eq]
            · have hnot : ¬ R.SameChild n k a := by
                rintro (rfl | ⟨_, j', hj, ha⟩)
                · rw [hk] at hai
                  exact hji (Option.some.inj hai)
                · rw [hk] at hj
                  rw [hai] at ha
                  cases hj
                  cases ha
                  exact hji rfl
              have hx : R.child (R.put w a x) k = R.child w k := by
                simp [child, hput, hw, hk, List.getD_eq_getElem?_getD,
                  List.getElem?_set_ne (Ne.symm hji)]
              rw [below_cons_of_not hnot, hx]
          · intro j hj
            rw [hkept j (fun k s hs => hj k s (List.mem_cons_of_mem _ hs))]
            have hij : i ≠ j := by
              rintro rfl
              exact hj a t List.mem_cons_self hai
            exact List.getElem?_set_ne hij

/-- An array survives if what lies below its indices does. -/
theorem Extensional.copy_array_iff
    (hR : R.Extensional)
    {n : Option Q}
    {l : List (Option Q)}
    (hn : R.shapeOf n = .array l)
    {T : List (List K)}
    (hT : [] ∉ T)
    (hkeys : ∀ k t, k :: t ∈ T → ∃ i, i < l.length ∧ R.index k = some i) :
    R.copy n n T = n ↔
      ∀ k, R.copy (R.child n k) (R.child n k) (below (R.SameChild n k) T) =
        R.child n k := by
  obtain ⟨l', hl', hlength, hchild, hkept⟩ := copy_of_array hn hn hT hkeys
  constructor
  · intro h k
    by_cases hbelow : below (R.SameChild n k) T = []
    · rw [hbelow, copy_nil]
    · obtain ⟨t, ht⟩ := List.exists_mem_of_ne_nil _ hbelow
      obtain ⟨a, hsame, hmem⟩ := mem_below.mp ht
      obtain ⟨i, _, hai⟩ := hkeys a t hmem
      have hk : R.index k = some i := by
        rcases hsame with rfl | ⟨_, j, hkj, haj⟩
        · exact hai
        · rw [hkj, ← haj, hai]
      rw [← hchild k i hk, h]
  · intro h
    have helements : l' = l := by
      apply List.ext_getElem?
      intro i
      by_cases htouched : ∀ k t, k :: t ∈ T → R.index k ≠ some i
      · exact hkept i htouched
      · push Not at htouched
        obtain ⟨k, t, ht, hk⟩ := htouched
        obtain ⟨j, hj, hkj⟩ := hkeys k t ht
        rw [hk, Option.some.injEq] at hkj
        subst hkj
        have hi := (hchild k i hk).trans (h k)
        simp only [child, hl', hn, hk] at hi
        rw [List.getElem?_eq_getElem hj, List.getElem?_eq_getElem (hlength ▸ hj),
          ← List.getD_eq_getElem _ none, ← List.getD_eq_getElem _ none, hi]
    rw [hR.eq_of_array hl', helements, ← hR.eq_of_array hn]

/-! ### The condition is exact -/

/-- The condition at the root decides, if it is exact below. -/
theorem Extensional.copy_self_iff_of_below
    (hR : R.Extensional)
    {n : Option Q}
    {T : List (List K)}
    (hT : [] ∉ T)
    (hsolid : R.Solid n)
    (hbelow : ∀ k,
      R.copy (R.child n k) (R.child n k) (below (R.SameChild n k) T) =
          R.child n k ↔
        R.Restored (R.child n k) True (below (R.SameChild n k) T)) :
    R.copy n n T = n ↔ R.Restored n True T := by
  rw [R.restored_true_iff_below hT]
  by_cases hroot : ∀ k t, k :: t ∈ T → R.InPlace n k
  · have hkeys : R.copy n n T = n ↔
        ∀ k, R.copy (R.child n k) (R.child n k) (below (R.SameChild n k) T) =
          R.child n k := by
      cases hn : R.shapeOf n with
      | leaf =>
          have hempty : T = [] := by
            cases T with
            | nil =>
                rfl
            | cons t T =>
                cases t with
                | nil =>
                    exact absurd List.mem_cons_self hT
                | cons k t =>
                    rcases hroot k t List.mem_cons_self with ⟨m, hm⟩ | ⟨⟨l, hl⟩, _⟩
                    · rw [hn] at hm
                      cases hm
                    · rw [hn] at hl
                      cases hl
          rw [hempty]
          exact ⟨fun _ _ => rfl, fun _ => rfl⟩
      | array l =>
          refine hR.copy_array_iff hn hT ?_
          intro k t ht
          rcases hroot k t ht with ⟨m, hm⟩ | ⟨_, hchild⟩
          · rw [hn] at hm
            cases hm
          · cases hk : R.index k with
            | none =>
                simp [child, hn, hk] at hchild
            | some i =>
                refine ⟨i, ?_, rfl⟩
                by_contra hi
                simp [child, hn, hk, List.getD_eq_getElem?_getD,
                  List.getElem?_eq_none (Nat.not_lt.mp hi)] at hchild
      | object m =>
          exact hR.copy_object_iff hn hsolid hT
    rw [hkeys]
    constructor
    · intro h
      exact ⟨hroot, fun k => (hbelow k).mp (h k)⟩
    · intro h k
      exact (hbelow k).mpr (h.2 k)
  · have hspoiled : R.copy n n T ≠ n := by
      push Not at hroot
      obtain ⟨k, t, ht, hk⟩ := hroot
      exact copy_ne_of_not_inPlace hsolid hT ht hk
    constructor
    · intro h
      exact absurd h hspoiled
    · intro h
      exact absurd h.1 hroot

/-- **A tree survives copies into itself** if what they spoil is restored. -/
theorem Extensional.copy_self_iff
    (hR : R.Extensional)
    (size : Nat)
    {n : Option Q}
    {T : List (List K)}
    (hsize : ∀ t ∈ T, t.length ≤ size)
    (hsolid : R.Solid n) :
    R.copy n n T = n ↔ R.Restored n True T := by
  induction size generalizing n T with
  | zero =>
      have hself : ∀ S : List (List K), (∀ t ∈ S, t.length ≤ 0) → R.copy n n S = n := by
        intro S hS
        induction S with
        | nil =>
            rfl
        | cons t S ih =>
            have ht : t = [] := List.length_eq_zero_iff.mp
              (Nat.le_zero.mp (hS t List.mem_cons_self))
            rw [ht]
            exact ih (fun s hs => hS s (List.mem_cons_of_mem _ hs))
      refine ⟨fun _ => ?_, fun _ => hself T hsize⟩
      intro T₁ t T₂ z k r hT ht
      have := hsize t (by simp [hT])
      simp [ht] at this
  | succ size ih =>
      have hproper : ∀ S : List (List K), [] ∉ S → (∀ t ∈ S, t ∈ T) →
          (R.copy n n S = n ↔ R.Restored n True S) := by
        intro S hS hsub
        refine hR.copy_self_iff_of_below hS hsolid ?_
        intro k
        refine ih ?_ (hsolid.child k)
        exact fun t ht => length_le_of_mem_below (fun s hs => hsize s (hsub s hs)) ht
      by_cases hnil : [] ∈ T
      · obtain ⟨T₁, T₂, rfl, hT₂⟩ := exists_last hnil
        rw [copy_append_nil, restored_append_nil_iff]
        exact hproper T₂ hT₂ (fun t ht => by simp [ht])
      · exact hproper T hnil (fun _ ht => ht)

/--
**Copying is correct** if and only if every copy that is spoiled is restored by
a later path.
-/
theorem Extensional.copy_correct_iff
    (hR : R.Extensional)
    (size : Nat)
    {n w : Option Q}
    {T : List (List K)}
    (hw : R.Blank w)
    (hsize : ∀ t ∈ T, t.length ≤ size)
    (hsolid : R.Solid n) :
    (∀ t ∈ T, R.container.get (R.copy n w T) t = R.container.get n t) ↔
      R.Restored n False T := by
  induction size generalizing n w T with
  | zero =>
      constructor
      · intro _ T₁ t T₂ z k r hT ht
        have := hsize t (by simp [hT])
        simp [ht] at this
      · intro _ t ht
        have hnil : t = [] :=
          List.length_eq_zero_iff.mp (Nat.le_zero.mp (hsize t ht))
        subst hnil
        obtain ⟨T₁, T₂, rfl, hT₂⟩ := exists_last ht
        have hempty : T₂ = [] := by
          apply List.eq_nil_iff_forall_not_mem.mpr
          intro s hs
          have hs' := hsize s (by simp [hs])
          rw [List.length_eq_zero_iff.mp (Nat.le_zero.mp hs')] at hs
          exact hT₂ hs
        rw [copy_append_nil, hempty]
        rfl
  | succ size ih =>
      by_cases hnil : [] ∈ T
      · obtain ⟨T₁, T₂, rfl, _⟩ := exists_last hnil
        rw [copy_append_nil, restored_append_nil_iff,
          ← hR.copy_self_iff (size + 1) (fun t ht => hsize t (by simp [ht])) hsolid]
        constructor
        · intro h
          exact h [] (by simp)
        · intro h t _
          rw [h]
      · obtain ⟨_, hchild⟩ := R.child_copy_of_open (n := n) hw.1 hnil
        have hbelow : ∀ k, (∀ t ∈ below (k = ·) T,
            R.container.get (R.child (R.copy n w T) k) t =
              R.container.get (R.child n k) t) ↔
            R.Restored (R.child n k) False (below (k = ·) T) := by
          intro k
          rw [hchild k, hw.2 k]
          refine ih R.blank_none ?_ (hsolid.child k)
          exact fun t ht => length_le_of_mem_below hsize ht
        rw [R.restored_false_iff_below hnil]
        constructor
        · intro h k
          refine (hbelow k).mp ?_
          intro t ht
          obtain ⟨_, rfl, hmem⟩ := mem_below.mp ht
          exact h (k :: t) hmem
        · intro h t ht
          cases t with
          | nil =>
              exact absurd ht hnil
          | cons k t =>
              exact (hbelow k).mpr (h k) t (mem_below.mpr ⟨k, rfl, ht⟩)

end TreeRep

/-! ### Under a homomorphism -/

namespace TreeHom

variable {Q : Type u} {M : Type v} {K : Type w} {Q' : Type u} {M' : Type v}
variable {R : TreeRep Q M K} {R' : TreeRep Q' M' K} (h : TreeHom R R')

theorem array_map_iff
    {c : Option Q} :
    (∃ l, R'.shapeOf (c.map h.map) = .array l) ↔ ∃ l, R.shapeOf c = .array l := by
  rw [h.shapeOf_map]
  cases R.shapeOf c <;> simp

theorem inPlace_map_iff
    {c : Option Q}
    {k : K} :
    R'.InPlace (c.map h.map) k ↔ R.InPlace c k := by
  unfold TreeRep.InPlace
  rw [h.array_map_iff, h.child_map, h.shapeOf_map]
  cases R.shapeOf c <;> simp

theorem sameChild_map_iff
    {c : Option Q}
    {a b : K} :
    R'.SameChild (c.map h.map) a b ↔ R.SameChild c a b := by
  simp only [TreeRep.SameChild, h.array_map_iff, h.index_eq]

theorem above_map_iff
    {c : Option Q}
    {y z : List K} :
    R'.Above (c.map h.map) y z ↔ R.Above c y z := by
  induction y generalizing c z with
  | nil =>
      exact Iff.rfl
  | cons a y ih =>
      cases z with
      | nil =>
          exact Iff.rfl
      | cons b z =>
          simp only [TreeRep.Above, h.sameChild_map_iff, h.child_map, ih]

theorem restored_map_iff
    {n : Option Q}
    {covered : Prop}
    {T : List (List K)} :
    R'.Restored (n.map h.map) covered T ↔ R.Restored n covered T := by
  simp only [TreeRep.Restored, TreeRep.Covers, h.get_map, h.inPlace_map_iff,
    h.above_map_iff]

theorem solid_map
    {n : Option Q}
    (hn : R.Solid n) :
    R'.Solid (n.map h.map) := by
  intro p
  obtain ⟨harray, hobject⟩ := hn p
  rw [h.get_map, h.shapeOf_map]
  cases hshape : R.shapeOf (R.container.get n p) with
  | leaf =>
      simp
  | array l =>
      simpa using harray l hshape
  | object m =>
      refine ⟨by simp, ?_⟩
      intro m' hm' k
      cases hm'
      rw [h.entry_map]
      simpa using hobject m hshape k

theorem copy_map
    (hR' : R'.Extensional)
    (n w : Option Q)
    (T : List (List K)) :
    R'.copy (n.map h.map) (w.map h.map) T = (R.copy n w T).map h.map := by
  induction T generalizing w with
  | nil =>
      rfl
  | cons t T ih =>
      rw [TreeRep.copy_cons, TreeRep.copy_cons, h.get_map, h.set_map hR', ih]

/-- Copying is correct up to the map, under the same condition. -/
theorem copy_correct_iff
    (hR' : R'.Extensional)
    {n w : Option Q}
    {T : List (List K)}
    (hw : R.Blank w)
    (hsolid : R.Solid n) :
    (∀ t ∈ T, (R.container.get (R.copy n w T) t).map h.map =
        (R.container.get n t).map h.map) ↔
      R.Restored n False T := by
  have hw' : R'.Blank (w.map h.map) := by
    refine ⟨?_, ?_⟩
    · rcases hw.1 with rfl | ⟨m, hm⟩
      · exact .inl rfl
      · refine .inr ⟨h.mapMembers m, ?_⟩
        rw [h.shapeOf_map, hm]
    · intro k
      rw [h.child_map, hw.2 k]
      rfl
  obtain ⟨size, hsize⟩ := exists_length_bound T
  have hexact := hR'.copy_correct_iff size hw' hsize (h.solid_map hsolid)
  simp only [h.copy_map hR', h.get_map] at hexact
  rw [hexact, h.restored_map_iff]

end TreeHom

end Lib
end AgencyNode
