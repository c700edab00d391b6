import Mathlib.Data.List.Forall2

/-!
# Computations that reject or fail

A decoder has two ways of not returning a value.  It may reject its input and
say why, which is part of its contract, or it may fail on a step it should not
have taken, which is not.  `Outcome F E` is the monad of such computations: the
rejections `E` stand on top of the failures `F`.

Every computation is read in three ways: which values it accepts its input with
(`Accepts`), what it says when it rejects it (`Rejects`), and whether it gets by
without a failure (`Returns`).  The readings are compositional, and `collect`
lifts them to a loop over a list.
-/

namespace AgencyNode
namespace Lib

universe u v

/-- Computations that return a value, reject with an `E` or fail with an `F`. -/
abbrev Outcome (F E : Type u) := ExceptT E (Except F)

namespace Outcome

variable {F E α β : Type u}

/-- The computation returns the value. -/
def Accepts (x : Outcome F E α) (a : α) : Prop :=
  x.run = .ok (.ok a)

/-- The computation rejects its input with the rejection. -/
def Rejects (x : Outcome F E α) (e : E) : Prop :=
  x.run = .ok (.error e)

/-- The computation does not fail. -/
def Returns (x : Outcome F E α) : Prop :=
  ∃ r, x.run = .ok r

theorem Accepts.unique
    {x : Outcome F E α}
    {a b : α}
    (ha : x.Accepts a)
    (hb : x.Accepts b) :
    a = b := by
  have hab : (Except.ok (.ok a) : Except F (Except E α)) = .ok (.ok b) :=
    ha.symm.trans hb
  cases hab
  rfl

theorem Rejects.unique
    {x : Outcome F E α}
    {e f : E}
    (he : x.Rejects e)
    (hf : x.Rejects f) :
    e = f := by
  have hef : (Except.ok (.error e) : Except F (Except E α)) = .ok (.error f) :=
    he.symm.trans hf
  cases hef
  rfl

theorem Accepts.not_rejects
    {x : Outcome F E α}
    {a : α}
    (ha : x.Accepts a)
    (e : E) :
    ¬ x.Rejects e := by
  intro he
  have hae : (Except.ok (.ok a) : Except F (Except E α)) = .ok (.error e) :=
    ha.symm.trans he
  cases hae

theorem returns_iff
    {x : Outcome F E α} :
    x.Returns ↔ (∃ a, x.Accepts a) ∨ ∃ e, x.Rejects e := by
  constructor
  · rintro ⟨r, hr⟩
    cases r with
    | error e => exact .inr ⟨e, hr⟩
    | ok a => exact .inl ⟨a, hr⟩
  · rintro (⟨a, ha⟩ | ⟨e, he⟩)
    · exact ⟨_, ha⟩
    · exact ⟨_, he⟩

/-- Return a value or a rejection that is already there. -/
def ofExcept (r : Except E α) : Outcome F E α :=
  ExceptT.mk (.ok r)

/-! ## The readings of the primitives -/

@[simp] theorem accepts_ofExcept
    {r : Except E α}
    {a : α} :
    Accepts (ofExcept r : Outcome F E α) a ↔ r = .ok a := by
  constructor
  · intro h
    cases h
    rfl
  · rintro rfl
    rfl

@[simp] theorem rejects_ofExcept
    {r : Except E α}
    {e : E} :
    Rejects (ofExcept r : Outcome F E α) e ↔ r = .error e := by
  constructor
  · intro h
    cases h
    rfl
  · rintro rfl
    rfl

@[simp] theorem returns_ofExcept
    (r : Except E α) :
    Returns (ofExcept r : Outcome F E α) :=
  ⟨r, rfl⟩

@[simp] theorem accepts_pure
    {a b : α} :
    Accepts (pure a : Outcome F E α) b ↔ a = b := by
  constructor
  · intro h
    cases h
    rfl
  · rintro rfl
    rfl

@[simp] theorem not_rejects_pure
    (a : α)
    (e : E) :
    ¬ Rejects (pure a : Outcome F E α) e := by
  intro h
  cases h

@[simp] theorem returns_pure
    (a : α) :
    Returns (pure a : Outcome F E α) :=
  ⟨_, rfl⟩

@[simp] theorem not_accepts_throw
    (e : E)
    (a : α) :
    ¬ Accepts (throw e : Outcome F E α) a := by
  intro h
  cases h

@[simp] theorem rejects_throw
    {e f : E} :
    Rejects (throw e : Outcome F E α) f ↔ e = f := by
  constructor
  · intro h
    cases h
    rfl
  · rintro rfl
    rfl

@[simp] theorem returns_throw
    (e : E) :
    Returns (throw e : Outcome F E α) :=
  ⟨_, rfl⟩

@[simp] theorem accepts_lift
    {x : Except F α}
    {a : α} :
    Accepts (liftM x : Outcome F E α) a ↔ x = .ok a := by
  cases x with
  | error f =>
      constructor
      · intro h
        cases h
      · intro h
        cases h
  | ok b =>
      constructor
      · intro h
        cases h
        rfl
      · intro h
        cases h
        rfl

@[simp] theorem not_rejects_lift
    (x : Except F α)
    (e : E) :
    ¬ Rejects (liftM x : Outcome F E α) e := by
  cases x <;>
    · intro h
      cases h

@[simp] theorem returns_lift
    {x : Except F α} :
    Returns (liftM x : Outcome F E α) ↔ ∃ a, x = .ok a := by
  cases x with
  | error f =>
      constructor
      · rintro ⟨r, hr⟩
        cases hr
      · rintro ⟨a, ha⟩
        cases ha
  | ok a =>
      exact ⟨fun _ => ⟨a, rfl⟩, fun _ => ⟨_, rfl⟩⟩

/-! ## Sequencing -/

@[simp] theorem accepts_bind
    {x : Outcome F E α}
    {f : α → Outcome F E β}
    {b : β} :
    Accepts (x >>= f) b ↔ ∃ a, x.Accepts a ∧ (f a).Accepts b := by
  unfold Accepts
  rw [ExceptT.run_bind]
  cases x.run with
  | error e =>
      constructor
      · intro h
        cases h
      · rintro ⟨a, h, _⟩
        cases h
  | ok r =>
      cases r with
      | error e =>
          constructor
          · intro h
            cases h
          · rintro ⟨a, h, _⟩
            cases h
      | ok a =>
          constructor
          · intro h
            exact ⟨a, rfl, h⟩
          · rintro ⟨a', h, hf⟩
            cases h
            exact hf

/-- A sequence rejects in its first part or, on a value, in its second. -/
@[simp] theorem rejects_bind
    {x : Outcome F E α}
    {f : α → Outcome F E β}
    {e : E} :
    Rejects (x >>= f) e ↔
      x.Rejects e ∨ ∃ a, x.Accepts a ∧ (f a).Rejects e := by
  unfold Rejects Accepts
  rw [ExceptT.run_bind]
  cases x.run with
  | error g =>
      constructor
      · intro h
        cases h
      · rintro (h | ⟨a, h, _⟩) <;> cases h
  | ok r =>
      cases r with
      | error e' =>
          constructor
          · intro h
            cases h
            exact .inl rfl
          · rintro (h | ⟨a, h, _⟩) <;> cases h
            rfl
      | ok a =>
          constructor
          · intro h
            exact .inr ⟨a, rfl, h⟩
          · rintro (h | ⟨a', h, hf⟩) <;> cases h
            exact hf

/-- A sequence returns if its first part does and, on a value, its second. -/
@[simp] theorem returns_bind
    {x : Outcome F E α}
    {f : α → Outcome F E β} :
    Returns (x >>= f) ↔ x.Returns ∧ ∀ a, x.Accepts a → (f a).Returns := by
  unfold Returns Accepts
  rw [ExceptT.run_bind]
  cases x.run with
  | error e =>
      constructor
      · rintro ⟨r, h⟩
        cases h
      · rintro ⟨⟨r, h⟩, _⟩
        cases h
  | ok r =>
      cases r with
      | error e =>
          constructor
          · intro _
            refine ⟨⟨_, rfl⟩, ?_⟩
            intro a h
            cases h
          · intro _
            exact ⟨_, rfl⟩
      | ok a =>
          constructor
          · intro h
            refine ⟨⟨_, rfl⟩, ?_⟩
            intro a' h'
            cases h'
            exact h
          · rintro ⟨_, h⟩
            exact h a rfl

/-- What follows a computation matters on the values it is accepted with only. -/
theorem bind_congr
    {x : Outcome F E α}
    {f g : α → Outcome F E β}
    (h : ∀ a, x.Accepts a → f a = g a) :
    x >>= f = x >>= g := by
  apply ExceptT.ext
  rw [ExceptT.run_bind, ExceptT.run_bind]
  unfold Accepts at h
  cases hx : x.run with
  | error e =>
      rfl
  | ok r =>
      cases r with
      | error e =>
          rfl
      | ok a =>
          exact congrArg ExceptT.run (h a hx)

@[simp] theorem accepts_map
    {x : Outcome F E α}
    {f : α → β}
    {b : β} :
    Accepts (f <$> x) b ↔ ∃ a, x.Accepts a ∧ f a = b := by
  rw [map_eq_pure_bind, accepts_bind]
  simp only [accepts_pure]

@[simp] theorem rejects_map
    {x : Outcome F E α}
    {f : α → β}
    {e : E} :
    Rejects (f <$> x) e ↔ x.Rejects e := by
  rw [map_eq_pure_bind, rejects_bind]
  simp only [not_rejects_pure, and_false, exists_false, or_false]

@[simp] theorem returns_map
    {x : Outcome F E α}
    {f : α → β} :
    Returns (f <$> x) ↔ x.Returns := by
  rw [map_eq_pure_bind, returns_bind]
  simp only [returns_pure, implies_true, and_true]

@[simp] theorem accepts_ite
    {p : Prop}
    [Decidable p]
    {x y : Outcome F E α}
    {a : α} :
    Accepts (if p then x else y) a ↔
      (p ∧ x.Accepts a) ∨ (¬ p ∧ y.Accepts a) := by
  by_cases hp : p
  · simp [hp]
  · simp [hp]

@[simp] theorem rejects_ite
    {p : Prop}
    [Decidable p]
    {x y : Outcome F E α}
    {e : E} :
    Rejects (if p then x else y) e ↔
      (p ∧ x.Rejects e) ∨ (¬ p ∧ y.Rejects e) := by
  by_cases hp : p
  · simp [hp]
  · simp [hp]

@[simp] theorem returns_ite
    {p : Prop}
    [Decidable p]
    {x y : Outcome F E α} :
    Returns (if p then x else y) ↔
      (p → x.Returns) ∧ (¬ p → y.Returns) := by
  by_cases hp : p
  · simp [hp]
  · simp [hp]

/-- Decorating the rejections changes neither what is accepted nor what fails. -/
@[simp] theorem accepts_adapt
    {x : Outcome F E α}
    {f : E → E}
    {a : α} :
    Accepts (ExceptT.adapt f x) a ↔ x.Accepts a := by
  unfold Accepts
  rw [ExceptT.run_adapt]
  cases x.run with
  | error e =>
      exact Iff.rfl
  | ok r =>
      cases r with
      | error e =>
          constructor
          · intro h
            cases h
          · intro h
            cases h
      | ok b =>
          exact Iff.rfl

@[simp] theorem rejects_adapt
    {x : Outcome F E α}
    {f : E → E}
    {e : E} :
    Rejects (ExceptT.adapt f x) e ↔ ∃ e', x.Rejects e' ∧ f e' = e := by
  unfold Rejects
  rw [ExceptT.run_adapt]
  cases x.run with
  | error g =>
      constructor
      · intro h
        cases h
      · rintro ⟨e', h, _⟩
        cases h
  | ok r =>
      cases r with
      | error e' =>
          constructor
          · intro h
            cases h
            exact ⟨e', rfl, rfl⟩
          · rintro ⟨e'', h, rfl⟩
            cases h
            rfl
      | ok a =>
          constructor
          · intro h
            cases h
          · rintro ⟨e', h, _⟩
            cases h

@[simp] theorem returns_adapt
    {x : Outcome F E α}
    {f : E → E} :
    Returns (ExceptT.adapt f x) ↔ x.Returns := by
  unfold Returns
  rw [ExceptT.run_adapt]
  cases x.run with
  | error e =>
      constructor
      · rintro ⟨r, hr⟩
        cases hr
      · rintro ⟨r, hr⟩
        cases hr
  | ok r =>
      exact ⟨fun _ => ⟨_, rfl⟩, fun _ => ⟨_, rfl⟩⟩

/-! ## Loops -/

variable {ι : Type v}

/--
Run a step on one element after the other, with its index, and collect the
values; the first element that is not accepted ends the loop.
-/
def collect (step : Nat → ι → Outcome F E α) :
    Nat → List ι → Outcome F E (List α)
  | _, [] => pure []
  | index, x :: xs => do
      let a ← step index x
      let rest ← collect step (index + 1) xs
      return a :: rest

/--
What a scan that stops at the first element that is not `good` meets is `safe`.
-/
def ScanSafe (good safe : ι → Prop) : List ι → Prop
  | [] => True
  | x :: xs => safe x ∧ (good x → ScanSafe good safe xs)

theorem scanSafe_of_forall
    {good safe : ι → Prop}
    {xs : List ι}
    (h : ∀ x ∈ xs, safe x) :
    ScanSafe good safe xs := by
  induction xs with
  | nil =>
      trivial
  | cons x xs ih =>
      obtain ⟨hx, hxs⟩ := List.forall_mem_cons.mp h
      exact ⟨hx, fun _ => ih hxs⟩

/-- **A loop accepts a list if its step accepts every element.** -/
theorem accepts_collect
    {step : Nat → ι → Outcome F E α}
    {R : ι → α → Prop}
    {xs : List ι}
    (hstep : ∀ x ∈ xs, ∀ index a, (step index x).Accepts a ↔ R x a)
    {index : Nat}
    {as : List α} :
    (collect step index xs).Accepts as ↔ List.Forall₂ R xs as := by
  induction xs generalizing index as with
  | nil =>
      simp [collect, eq_comm]
  | cons x xs ih =>
      have hx := hstep x List.mem_cons_self
      have hxs := fun y hy => hstep y (List.mem_cons_of_mem x hy)
      simp only [collect, accepts_bind, accepts_pure, hx, ih hxs,
        List.forall₂_cons_left_iff]
      constructor
      · rintro ⟨a, ha, rest, hrest, rfl⟩
        exact ⟨a, rest, ha, hrest, rfl⟩
      · rintro ⟨a, rest, ha, hrest, rfl⟩
        exact ⟨a, ha, rest, hrest, rfl⟩

/-- A list of values exists if there is one for every element. -/
theorem exists_forall₂_iff
    {R : ι → α → Prop}
    {xs : List ι} :
    (∃ as, List.Forall₂ R xs as) ↔ ∀ x ∈ xs, ∃ a, R x a := by
  induction xs with
  | nil =>
      simp
  | cons x xs ih =>
      simp only [List.forall₂_cons_left_iff, List.forall_mem_cons, ← ih]
      constructor
      · rintro ⟨_, a, as, ha, has, rfl⟩
        exact ⟨⟨a, ha⟩, as, has⟩
      · rintro ⟨⟨a, ha⟩, as, has⟩
        exact ⟨_, a, as, ha, has, rfl⟩

/--
Where every value is the image of something that describes its element, the
values of a list are the images of a list of descriptions.
-/
theorem forall₂_exists_iff
    {γ : Type v}
    {S : ι → γ → Prop}
    {f : γ → α}
    {xs : List ι}
    {as : List α} :
    List.Forall₂ (fun x a => ∃ c, S x c ∧ f c = a) xs as ↔
      ∃ cs, List.Forall₂ S xs cs ∧ cs.map f = as := by
  constructor
  · intro h
    induction h with
    | nil =>
        exact ⟨[], .nil, rfl⟩
    | cons hx _ ih =>
        obtain ⟨c, hc, rfl⟩ := hx
        obtain ⟨cs, hcs, rfl⟩ := ih
        exact ⟨c :: cs, .cons hc hcs, rfl⟩
  · rintro ⟨cs, hcs, rfl⟩
    rw [List.forall₂_map_right_iff]
    exact hcs.imp fun _ c hc => ⟨c, hc, rfl⟩

/--
**A loop rejects a list if its step rejects an element**, and accepts all the
elements in front of it.
-/
theorem rejects_collect
    {step : Nat → ι → Outcome F E α}
    {good : ι → Prop}
    {xs : List ι}
    (hgood : ∀ x ∈ xs, ∀ index, (∃ a, (step index x).Accepts a) ↔ good x)
    {index : Nat}
    {e : E} :
    (collect step index xs).Rejects e ↔
      ∃ front x back, xs = front ++ x :: back ∧ (∀ y ∈ front, good y) ∧
        (step (index + front.length) x).Rejects e := by
  induction xs generalizing index with
  | nil =>
      simp [collect]
  | cons x xs ih =>
      have hx := hgood x List.mem_cons_self index
      have hxs :
          (collect step (index + 1) xs).Rejects e ↔
            ∃ front y back, xs = front ++ y :: back ∧ (∀ z ∈ front, good z) ∧
              (step (index + 1 + front.length) y).Rejects e :=
        ih (fun y hy => hgood y (List.mem_cons_of_mem x hy))
      simp only [collect, rejects_bind, not_rejects_pure, and_false, exists_false,
        or_false, hxs]
      constructor
      · rintro (hx | ⟨a, ha, front, y, back, rfl, hfront, hy⟩)
        · exact ⟨[], x, xs, rfl, by simp, hx⟩
        · refine ⟨x :: front, y, back, rfl,
            List.forall_mem_cons.mpr ⟨hx.mp ⟨a, ha⟩, hfront⟩, ?_⟩
          rwa [List.length_cons, Nat.add_comm front.length, ← Nat.add_assoc]
      · rintro ⟨front, y, back, hsplit, hfront, hy⟩
        cases front with
        | nil =>
            cases hsplit
            exact .inl hy
        | cons z front =>
            cases hsplit
            obtain ⟨hz, hfront⟩ := List.forall_mem_cons.mp hfront
            obtain ⟨a, ha⟩ := hx.mpr hz
            refine .inr ⟨a, ha, front, y, back, rfl, hfront, ?_⟩
            rwa [List.length_cons, Nat.add_comm front.length, ← Nat.add_assoc] at hy

/-- **A loop returns if its step returns on every element it gets to.** -/
theorem returns_collect
    {step : Nat → ι → Outcome F E α}
    {good safe : ι → Prop}
    {xs : List ι}
    (hgood : ∀ x ∈ xs, ∀ index, (∃ a, (step index x).Accepts a) ↔ good x)
    (hsafe : ∀ x ∈ xs, ∀ index, (step index x).Returns ↔ safe x)
    {index : Nat} :
    (collect step index xs).Returns ↔ ScanSafe good safe xs := by
  induction xs generalizing index with
  | nil =>
      simp [collect, ScanSafe]
  | cons x xs ih =>
      have hx := hgood x List.mem_cons_self index
      have hsafe' := hsafe x List.mem_cons_self index
      have hxs :
          (collect step (index + 1) xs).Returns ↔ ScanSafe good safe xs :=
        ih (fun y hy => hgood y (List.mem_cons_of_mem x hy))
          (fun y hy => hsafe y (List.mem_cons_of_mem x hy))
      simp only [collect, returns_bind, returns_pure, hsafe', hxs, ScanSafe,
        ← hx, implies_true, and_true]
      constructor
      · rintro ⟨hx, hxs⟩
        exact ⟨hx, fun ⟨a, ha⟩ => hxs a ha⟩
      · rintro ⟨hx, hxs⟩
        exact ⟨hx, fun a ha => hxs ⟨a, ha⟩⟩

end Outcome
end Lib
end AgencyNode
