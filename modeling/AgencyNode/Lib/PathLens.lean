import Mathlib.Data.List.Perm.Basic
import Mathlib.Data.List.Infix

/-!
# Lenses along paths

A container has children under keys: `child` reads one of them and `put`
writes it.  Iterating the two along a list of keys gives `get` and `set` for
nested containers.  This module lifts the laws of one level to whole paths:

* the three lens laws (`get_set_self`, `set_get_self`, `set_set_self`);
* the frame law for two paths that part somewhere (`get_set_incomparable`);
* the exchange of two writes (`set_comm`).

`put` may be defined on every value of `P`, also on those that have no
children yet.  Two values that `child` and `put` can not tell apart are
`Alike`; writing below alike values gives the same result.
-/

namespace AgencyNode
namespace Lib

universe u v w

/-- One level of a nested container. -/
structure Container (P : Type u) (K : Type v) where
  child : P → K → P
  put : P → K → P → P

namespace Container

variable {P : Type u} {K : Type v}

/-- The value at a path. -/
def get (C : Container P K) :
    P → List K → P
  | c, [] => c
  | c, k :: p => C.get (C.child c k) p

/-- Replace the value at a path. -/
def set (C : Container P K) :
    P → List K → P → P
  | _, [], v => v
  | c, k :: p, v => C.put c k (C.set (C.child c k) p v)

/-- Two values with the same children and the same updates. -/
def Alike (C : Container P K) (c d : P) : Prop :=
  (∀ k, C.child c k = C.child d k) ∧ ∀ k x, C.put c k x = C.put d k x

variable (C : Container P K)

@[simp] theorem get_nil
    (c : P) :
    C.get c [] = c := by
  rfl

@[simp] theorem get_cons
    (c : P)
    (k : K)
    (p : List K) :
    C.get c (k :: p) = C.get (C.child c k) p := by
  rfl

@[simp] theorem set_nil
    (c v : P) :
    C.set c [] v = v := by
  rfl

@[simp] theorem set_cons
    (c : P)
    (k : K)
    (p : List K)
    (v : P) :
    C.set c (k :: p) v = C.put c k (C.set (C.child c k) p v) := by
  rfl

theorem get_append
    (c : P)
    (p q : List K) :
    C.get c (p ++ q) = C.get (C.get c p) q := by
  induction p generalizing c with
  | nil =>
      rfl
  | cons k p ih =>
      simpa using ih (C.child c k)

theorem set_append
    (c : P)
    (r p : List K)
    (v : P) :
    C.set c (r ++ p) v = C.set c r (C.set (C.get c r) p v) := by
  induction r generalizing c with
  | nil =>
      rfl
  | cons k r ih =>
      rw [List.cons_append, set_cons, set_cons, get_cons, ih]

theorem Alike.refl
    (c : P) :
    C.Alike c c := by
  exact ⟨fun _ => rfl, fun _ _ => rfl⟩

/-- Writing below alike values gives the same result. -/
theorem Alike.set_eq
    {C : Container P K}
    {c d : P}
    (h : C.Alike c d)
    (p : List K)
    (v : P) :
    C.set c p v = C.set d p v := by
  cases p with
  | nil =>
      rfl
  | cons k p =>
      rw [set_cons, set_cons, h.1 k, h.2 k]

/-- Below the values themselves, alike values can not be told apart. -/
theorem Alike.get_eq
    {C : Container P K}
    {c d : P}
    (h : C.Alike c d)
    {p : List K}
    (hp : p ≠ []) :
    C.get c p = C.get d p := by
  cases p with
  | nil =>
      exact absurd rfl hp
  | cons k p =>
      rw [get_cons, get_cons, h.1 k]

section Lens

variable {C}

/-- **Put-get** along a path. -/
theorem get_set_self
    (hput : ∀ c k x, C.child (C.put c k x) k = x)
    (c : P)
    (p : List K)
    (v : P) :
    C.get (C.set c p v) p = v := by
  induction p generalizing c with
  | nil =>
      rfl
  | cons k p ih =>
      rw [set_cons, get_cons, hput]
      exact ih (C.child c k)

/-- Above the place that is written the write goes on below. -/
theorem get_set_append
    (hput : ∀ c k x, C.child (C.put c k x) k = x)
    (c : P)
    (r p : List K)
    (v : P) :
    C.get (C.set c (r ++ p) v) r = C.set (C.get c r) p v := by
  induction r generalizing c with
  | nil =>
      rfl
  | cons k r ih =>
      rw [List.cons_append, set_cons, get_cons, hput]
      exact ih (C.child c k)

/-- Nothing is found below a value without children. -/
theorem get_of_childless
    {nil : P}
    (hnil : ∀ k, C.child nil k = nil)
    (p : List K) :
    C.get nil p = nil := by
  induction p with
  | nil =>
      rfl
  | cons k p ih =>
      rw [get_cons, hnil]
      exact ih

/-- **Get-put** along a path, where there is something to get. -/
theorem set_get_self
    {nil : P}
    (hnil : ∀ k, C.child nil k = nil)
    (hget : ∀ c k, C.child c k ≠ nil → C.put c k (C.child c k) = c)
    (c : P)
    (p : List K)
    (hne : C.get c p ≠ nil) :
    C.set c p (C.get c p) = c := by
  induction p generalizing c with
  | nil =>
      rfl
  | cons k p ih =>
      have hchild : C.child c k ≠ nil := by
        intro h
        apply hne
        rw [get_cons, h]
        exact get_of_childless hnil p
      rw [get_cons] at hne ⊢
      rw [set_cons, ih (C.child c k) hne]
      exact hget c k hchild

/-- **Put-put** along a path: the last write of something wins. -/
theorem set_set_self
    {nil : P}
    (hput : ∀ c k x, C.child (C.put c k x) k = x)
    (hne : ∀ c k x, C.put c k x ≠ nil)
    (hlast : ∀ c k x y, y ≠ nil → C.put (C.put c k x) k y = C.put c k y)
    (c : P)
    (p : List K)
    (v w : P)
    (hw : w ≠ nil) :
    C.set (C.set c p v) p w = C.set c p w := by
  induction p generalizing c with
  | nil =>
      rfl
  | cons k p ih =>
      have hinner :
          C.set (C.child c k) p w ≠ nil := by
        cases p with
        | nil =>
            exact hw
        | cons k' p =>
            exact hne _ _ _
      rw [set_cons, set_cons, set_cons, hput, ih (C.child c k)]
      exact hlast c k _ _ hinner

end Lens

/-- Neither path is a prefix of the other. -/
def Incomparable (p q : List K) : Prop :=
  ¬ p <+: q ∧ ¬ q <+: p

instance [DecidableEq K] (p q : List K) : Decidable (Incomparable p q) :=
  inferInstanceAs (Decidable (¬ p <+: q ∧ ¬ q <+: p))

theorem Incomparable.symm
    {p q : List K}
    (h : Incomparable p q) :
    Incomparable q p := by
  exact ⟨h.2, h.1⟩

theorem not_incomparable_nil_left
    (q : List K) :
    ¬ Incomparable [] q := by
  intro h
  exact h.1 List.nil_prefix

theorem not_incomparable_nil_right
    (p : List K) :
    ¬ Incomparable p [] := by
  intro h
  exact h.2 List.nil_prefix

/-- Below a shared first key two incomparable paths remain incomparable. -/
theorem Incomparable.tail
    {k : K}
    {p q : List K}
    (h : Incomparable (k :: p) (k :: q)) :
    Incomparable p q := by
  refine ⟨fun hp => h.1 ?_, fun hq => h.2 ?_⟩
  · exact List.cons_prefix_cons.mpr ⟨rfl, hp⟩
  · exact List.cons_prefix_cons.mpr ⟨rfl, hq⟩

theorem Incomparable.cons
    {p q : List K}
    (h : Incomparable p q)
    (k : K) :
    Incomparable (k :: p) (k :: q) := by
  refine ⟨fun hp => h.1 ?_, fun hq => h.2 ?_⟩
  · exact (List.cons_prefix_cons.mp hp).2
  · exact (List.cons_prefix_cons.mp hq).2

theorem incomparable_cons_ne
    {a b : K}
    {p q : List K}
    (hab : a ≠ b) :
    Incomparable (a :: p) (b :: q) := by
  refine ⟨fun hp => hab ?_, fun hq => hab ?_⟩
  · exact (List.cons_prefix_cons.mp hp).1
  · exact (List.cons_prefix_cons.mp hq).1.symm

theorem Incomparable.ne_nil
    {p q : List K}
    (h : Incomparable p q) :
    p ≠ [] := by
  intro hp
  subst hp
  exact not_incomparable_nil_left q h

section Frame

variable {C}

/--
A write at `p` may fill the place `q` addresses: the two paths part at one
container, `q` ends there, and `fills` holds of the two keys.
-/
def Filled
    (C : Container P K)
    (fills : P → K → K → Prop)
    (c : P)
    (p q : List K) : Prop :=
  ∃ (r : List K) (a b : K) (p' : List K),
    p = r ++ a :: p' ∧ q = r ++ [b] ∧ a ≠ b ∧ fills (C.get c r) a b

theorem filled_cons_self
    {fills : P → K → K → Prop}
    {c : P}
    {k : K}
    {p q : List K} :
    C.Filled fills c (k :: p) (k :: q) ↔
      C.Filled fills (C.child c k) p q := by
  constructor
  · rintro ⟨r, a, b, p', hp, hq, hab, hfill⟩
    cases r with
    | nil =>
        simp at hp hq
        exact absurd (hp.1.symm.trans hq.1) hab
    | cons k' r =>
        simp at hp hq
        obtain ⟨rfl, hp⟩ := hp
        exact ⟨r, a, b, p', hp, hq.2, hab, hfill⟩
  · rintro ⟨r, a, b, p', hp, hq, hab, hfill⟩
    refine ⟨k :: r, a, b, p', ?_, ?_, hab, hfill⟩
    · simp [hp]
    · simp [hq]

theorem filled_cons_ne
    {fills : P → K → K → Prop}
    {c : P}
    {a b : K}
    {p q : List K}
    (hab : a ≠ b) :
    C.Filled fills c (a :: p) (b :: q) ↔ q = [] ∧ fills c a b := by
  constructor
  · rintro ⟨r, a', b', p', hp, hq, _, hfill⟩
    cases r with
    | nil =>
        simp at hp hq
        obtain ⟨ha, _⟩ := hp
        obtain ⟨hb, hnil⟩ := hq
        rw [ha, hb]
        exact ⟨hnil, hfill⟩
    | cons k r =>
        simp at hp hq
        exact absurd (hp.1.trans hq.1.symm) hab
  · rintro ⟨rfl, hfill⟩
    exact ⟨[], a, b, p, rfl, rfl, hab, hfill⟩

/--
**Frame law** along two incomparable paths: the write leaves the value at the
other path alone, unless it fills that place.
-/
theorem get_set_incomparable
    (ok : K → Prop)
    {fills : P → K → K → Prop}
    {filler : P}
    (hput : ∀ c k x, C.child (C.put c k x) k = x)
    (hframe : ∀ c a b x, ok a → ok b → a ≠ b →
      C.Alike (C.child (C.put c a x) b) (C.child c b))
    (hkeep : ∀ c a b x, ok a → ok b → a ≠ b → ¬ fills c a b →
      C.child (C.put c a x) b = C.child c b)
    (hfill : ∀ c a b x, ok a → ok b → a ≠ b → fills c a b →
      C.child (C.put c a x) b = filler)
    (c : P)
    (p q : List K)
    (v : P)
    (hp : ∀ k ∈ p, ok k)
    (hq : ∀ k ∈ q, ok k)
    (hpq : Incomparable p q) :
    (C.Filled fills c p q → C.get (C.set c p v) q = filler) ∧
      (¬ C.Filled fills c p q → C.get (C.set c p v) q = C.get c q) := by
  induction p generalizing c q with
  | nil =>
      exact absurd hpq (not_incomparable_nil_left q)
  | cons a p ih =>
      cases q with
      | nil =>
          exact absurd hpq (not_incomparable_nil_right _)
      | cons b q =>
          have hoka : ok a := hp a List.mem_cons_self
          have hokb : ok b := hq b List.mem_cons_self
          by_cases hab : a = b
          · subst hab
            rw [filled_cons_self, set_cons, get_cons, get_cons, hput]
            exact ih (C.child c a) q
              (fun k hk => hp k (List.mem_cons_of_mem _ hk))
              (fun k hk => hq k (List.mem_cons_of_mem _ hk))
              hpq.tail
          · rw [filled_cons_ne hab, set_cons, get_cons, get_cons]
            constructor
            · rintro ⟨rfl, hf⟩
              exact hfill c a b _ hoka hokb hab hf
            · intro hnot
              cases q with
              | nil =>
                  exact hkeep c a b _ hoka hokb hab
                    (fun hf => hnot ⟨rfl, hf⟩)
              | cons k q =>
                  exact (hframe c a b _ hoka hokb hab).get_eq (by simp)

end Frame

section Exchange

variable {C}

/--
Two writes are exchangeable: at the container where their paths part, the two
one-level writes commute.
-/
def Exchangeable (C : Container P K) :
    P → List K → P → List K → P → Prop
  | c, a :: p, v, b :: q, w =>
      (a = b ∧ C.Exchangeable (C.child c a) p v q w) ∨
        (a ≠ b ∧
          C.put (C.put c a (C.set (C.child c a) p v)) b
              (C.set (C.child c b) q w) =
            C.put (C.put c b (C.set (C.child c b) q w)) a
              (C.set (C.child c a) p v))
  | _, _, _, _, _ => False

/-- **Exchange of two writes** whose paths part at a commuting container. -/
theorem set_comm
    (ok : K → Prop)
    {nil : P}
    (hput : ∀ c k x, C.child (C.put c k x) k = x)
    (hne : ∀ c k x, C.put c k x ≠ nil)
    (hlast : ∀ c k x y, y ≠ nil → C.put (C.put c k x) k y = C.put c k y)
    (hframe : ∀ c a b x, ok a → ok b → a ≠ b →
      C.Alike (C.child (C.put c a x) b) (C.child c b))
    (c : P)
    (p q : List K)
    (v w : P)
    (hp : ∀ k ∈ p, ok k)
    (hq : ∀ k ∈ q, ok k)
    (hex : C.Exchangeable c p v q w) :
    C.set (C.set c p v) q w = C.set (C.set c q w) p v := by
  induction p generalizing c q with
  | nil =>
      simp [Exchangeable] at hex
  | cons a p ih =>
      cases q with
      | nil =>
          simp [Exchangeable] at hex
      | cons b q =>
          have hoka : ok a := hp a List.mem_cons_self
          have hokb : ok b := hq b List.mem_cons_self
          rcases hex with ⟨rfl, hex⟩ | ⟨hab, hex⟩
          · have hinner :=
              ih (C.child c a) q
                (fun k hk => hp k (List.mem_cons_of_mem _ hk))
                (fun k hk => hq k (List.mem_cons_of_mem _ hk))
                hex
            -- Both inner paths are non-empty, so the joint inner write is not `nil`.
            have hjoint :
                C.set (C.set (C.child c a) p v) q w ≠ nil := by
              cases p with
              | nil =>
                  simp [Exchangeable] at hex
              | cons k p =>
                  cases q with
                  | nil =>
                      simp [Exchangeable] at hex
                  | cons k' q =>
                      exact hne _ _ _
            simp only [set_cons, hput]
            rw [hlast _ _ _ _ hjoint, hinner,
              hlast _ _ _ _ (hinner ▸ hjoint)]
          · have hb :=
              (hframe c a b (C.set (C.child c a) p v) hoka hokb hab).set_eq q w
            have ha :=
              (hframe c b a (C.set (C.child c b) q w) hokb hoka
                (fun h => hab h.symm)).set_eq p v
            simp only [set_cons]
            rw [hb, ha]
            exact hex

end Exchange

end Container

/--
**Order independence.**  If steps that are independent in the current state
commute, and independence survives every third independent step, then the
order of pairwise independent steps does not matter.
-/
theorem foldl_perm_of_independent
    {S : Type u}
    {A : Type v}
    {step : S → A → S}
    (indep : S → A → A → Prop)
    (hsymm : ∀ s a b, indep s a b → indep s b a)
    (hcomm : ∀ s a b, indep s a b →
      step (step s a) b = step (step s b) a)
    (hkeep : ∀ s a b c, indep s c a → indep s c b → indep s a b →
      indep (step s c) a b)
    {l l' : List A}
    (hperm : l.Perm l')
    (s : S)
    (hl : l.Pairwise (indep s)) :
    l.foldl step s = l'.foldl step s := by
  induction hperm generalizing s with
  | nil =>
      rfl
  | @cons a l l' _ ih =>
      obtain ⟨ha, hl⟩ := List.pairwise_cons.mp hl
      have hl' : l.Pairwise (indep (step s a)) :=
        hl.imp_of_mem
          (fun hb hc hbc => hkeep s _ _ a (ha _ hb) (ha _ hc) hbc)
      exact ih (step s a) hl'
  | swap a b l =>
      obtain ⟨hb, _⟩ := List.pairwise_cons.mp hl
      have hba := hb a List.mem_cons_self
      simp only [List.foldl_cons]
      rw [hcomm s b a hba]
  | trans h₁ _ ih₁ ih₂ =>
      have hmid := (h₁.pairwise_iff (fun {a b} h => hsymm s a b h)).mp hl
      exact (ih₁ s hl).trans (ih₂ s hmid)

end Lib
end AgencyNode
