import Mathlib.Data.List.Basic

/-!
# Guarded runs

A run feeds a list of inputs to a step function that may fail.  It is guarded
if every input meets a condition in the state it is fed to.  An invariant that
guarded steps preserve holds after a guarded run, and a guarded run fails only
in the ways guarded steps do.
-/

namespace AgencyNode
namespace Lib

universe u v w

variable {S : Type u} {A : Type v} {E : Type u}
variable {step : S → A → Except E S} {meets : S → A → Prop}

/-- Every input of the run meets the condition in the state it is fed to. -/
def Guarded
    (step : S → A → Except E S)
    (meets : S → A → Prop)
    (s : S)
    (l : List A) : Prop :=
  ∀ before a after s', l = before ++ a :: after →
    before.foldlM step s = .ok s' → meets s' a

theorem guarded_nil
    (s : S) :
    Guarded step meets s [] := by
  intro before a after s' h
  simp at h

theorem guarded_cons
    {s : S}
    {a : A}
    {l : List A}
    (hmeets : meets s a)
    (htail : ∀ s', step s a = .ok s' → Guarded step meets s' l) :
    Guarded step meets s (a :: l) := by
  intro before b after t hl hrun
  cases before with
  | nil =>
      obtain ⟨rfl, rfl⟩ := hl
      cases hrun
      exact hmeets
  | cons b' before =>
      simp only [List.cons_append, List.cons.injEq] at hl
      obtain ⟨rfl, rfl⟩ := hl
      rw [List.foldlM_cons] at hrun
      cases hstep : step s a with
      | error e =>
          rw [hstep] at hrun
          cases hrun
      | ok s' =>
          rw [hstep] at hrun
          exact htail s' hstep before b after t rfl hrun

theorem Guarded.head
    {s : S}
    {a : A}
    {l : List A}
    (h : Guarded step meets s (a :: l)) :
    meets s a := by
  exact h [] a l s rfl rfl

theorem Guarded.tail
    {s s' : S}
    {a : A}
    {l : List A}
    (h : Guarded step meets s (a :: l))
    (hstep : step s a = .ok s') :
    Guarded step meets s' l := by
  intro before b after t hl hrun
  refine h (a :: before) b after t (by rw [hl, List.cons_append]) ?_
  rw [List.foldlM_cons, hstep]
  exact hrun

theorem Guarded.mono
    {meets' : S → A → Prop}
    {s : S}
    {l : List A}
    (h : Guarded step meets s l)
    (himp : ∀ t, ∀ a ∈ l, meets t a → meets' t a) :
    Guarded step meets' s l := by
  intro before a after t hl hrun
  have hmem : a ∈ l := by
    rw [hl]
    exact List.mem_append_right _ List.mem_cons_self
  exact himp t a hmem (h before a after t hl hrun)

/-- **Invariants of guarded runs**, for the state reached and for failures. -/
theorem Guarded.invariant
    (inv : S → Prop)
    (allowed : E → Prop)
    (hok : ∀ s a s', inv s → meets s a → step s a = .ok s' → inv s')
    (herror : ∀ s a e, inv s → meets s a → step s a = .error e → allowed e)
    {s : S}
    {l : List A}
    (h : Guarded step meets s l)
    (hs : inv s) :
    (∀ s', l.foldlM step s = .ok s' → inv s') ∧
      ∀ e, l.foldlM step s = .error e → allowed e := by
  induction l generalizing s with
  | nil =>
      refine ⟨?_, ?_⟩
      · rintro s' ⟨⟩
        exact hs
      · rintro e ⟨⟩
  | cons a l ih =>
      rw [List.foldlM_cons]
      cases hstep : step s a with
      | error e =>
          refine ⟨?_, ?_⟩
          · rintro s' ⟨⟩
          · rintro e' ⟨⟩
            exact herror s a e hs h.head hstep
      | ok s₁ =>
          exact ih (h.tail hstep) (hok s a s₁ hs h.head hstep)

end Lib
end AgencyNode
