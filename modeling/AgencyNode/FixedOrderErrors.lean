import AgencyNode.Deserialize.Containers

/-!
# The errors of a fixed order

The fold over the deserializers moves one iterator and stops at the first error.
What is looked at afterwards is the iterator alone: it has not reached its end if
the error came before the last element, and it has passed its end if the array is
too short.  In both cases the error that was found is replaced by the one about
excess elements.
-/

namespace AgencyNode
namespace Deserialize

open Lib

variable {D : Type}

namespace FixedOrder

variable {τ : Type}

/-! ## What is to be reported -/

/-- No deserializer throws. -/
def Returning : {τ : Type} → FixedOrder D τ → Prop
  | _, .nil => True
  | _, .cons d ds => (∀ x, (d [] (some x)).Returns) ∧ ds.Returning

/-- The `i`-th deserializer is the first one that rejects its element. -/
def FirstFailure :
    {τ : Type} → FixedOrder D τ → List (Json D) → Nat → DeserializeError → Prop
  | _, .cons d _, x :: _, 0, e => (d [] (some x)).Rejects e
  | _, .cons d ds, x :: xs, i + 1, e =>
      (∃ a, (d [] (some x)).Accepts a) ∧ ds.FirstFailure xs i e
  | _, _, _, _, _ => False

/-- The error of the `i`-th deserializer, wrapped and traced. -/
def elementError (i : Nat) (e : DeserializeError) : DeserializeError :=
  (e.wrap ("in fixed order array at position " ++ toString i)).traceIndex i

/-- There are too few elements. -/
def shortError (found expected : Nat) : DeserializeError :=
  .ofMessage
    ("bad array length, found: " ++ toString found ++
      ", expected: " ++ toString expected)

/-- There are too many elements. -/
def excessError (expected : Nat) : DeserializeError :=
  .ofMessage
    ("bad array length, excess elements, expected: " ++ toString expected)

/-- Arrays are matched exactly, and failures are reported for what they are. -/
structure Reported
    (ds : FixedOrder D τ)
    (hints : HintList D)
    (elements : List (Json D)) : Prop where
  accepts : ∀ v,
    (fixedOrderDeserializer ds hints (some (.array elements))).Accepts v ↔
      elements.length = ds.length ∧ ds.Matches elements v
  element : ∀ i e, ds.FirstFailure elements i e →
    (fixedOrderDeserializer ds hints (some (.array elements))).Rejects
      (elementError i e)
  short : (∀ i e, ¬ ds.FirstFailure elements i e) →
    elements.length < ds.length →
      (fixedOrderDeserializer ds hints (some (.array elements))).Rejects
        (shortError elements.length ds.length)
  excess :
    (fixedOrderDeserializer ds hints (some (.array elements))).Rejects
        (excessError ds.length) →
      ds.length < elements.length

theorem Matches.length_eq
    {ds : FixedOrder D τ}
    {elements : List (Json D)}
    {v : τ}
    (h : ds.Matches elements v) :
    elements.length = ds.length := by
  induction ds generalizing elements with
  | nil =>
      rw [show elements = [] from h]
      rfl
  | cons d ds ih =>
      cases elements with
      | nil => exact h.elim
      | cons x xs => exact congrArg (· + 1) (ih h.2)

/-- Where nothing fails, as many elements as deserializers match. -/
theorem exists_matches
    {ds : FixedOrder D τ}
    (hds : ds.Returning)
    {elements : List (Json D)}
    (hnone : ∀ i e, ¬ ds.FirstFailure elements i e)
    (hlength : elements.length = ds.length) :
    ∃ v, ds.Matches elements v := by
  induction ds generalizing elements with
  | nil =>
      exact ⟨(), List.length_eq_zero_iff.mp hlength⟩
  | cons d ds ih =>
      cases elements with
      | nil =>
          cases hlength
      | cons x xs =>
          obtain ⟨a, ha⟩ := (Outcome.returns_iff.mp (hds.1 x)).resolve_right
            (fun h => h.elim (fun e he => hnone 0 e he))
          obtain ⟨v, hv⟩ := ih hds.2
            (fun i e h => hnone (i + 1) e ⟨⟨a, ha⟩, h⟩)
            (Nat.succ.inj hlength)
          exact ⟨(a, v), ha, hv⟩

theorem elementError_ne_excessError
    (i n : Nat)
    (e : DeserializeError) :
    elementError i e ≠ excessError n := by
  intro h
  have hbacktrace := congrArg DeserializeError.backtrace h
  simp [elementError, excessError, DeserializeError.traceIndex,
    DeserializeError.ofMessage] at hbacktrace

/-! ## The fold -/

/-- The fold stops behind the element that is rejected. -/
theorem unpackInternal_of_firstFailure
    (n i : Nat)
    {ds : FixedOrder D τ}
    {j : Nat}
    (front : List (Json D))
    {rest : List (Json D)}
    {e : DeserializeError}
    (h : ds.FirstFailure rest j e) :
    ∃ used unused, rest = used ++ unused ∧ used.length = j + 1 ∧
      unpackInternal n ds i (iteratorBehind front rest) =
        .ok (iteratorBehind (front ++ used) unused,
          .error (elementError (i + j) e)) := by
  induction ds generalizing i j front rest with
  | nil =>
      exact h.elim
  | cons d ds ih =>
      cases rest with
      | nil =>
          exact h.elim
      | cons x xs =>
          cases j with
          | zero =>
              refine ⟨[x], xs, rfl, rfl, ?_⟩
              have hrun : (d [] (some x)).run = .ok (.error e) := h
              rw [unpackInternal_cons, hrun]
              rfl
          | succ j =>
              obtain ⟨⟨a, ha⟩, h⟩ := h
              obtain ⟨used, unused, rfl, hused, hfold⟩ :=
                ih (i + 1) (front ++ [x]) h
              refine ⟨x :: used, unused, rfl, by rw [List.length_cons, hused], ?_⟩
              have hrun : (d [] (some x)).run = .ok (.ok a) := ha
              have hindex : i + 1 + j = i + (j + 1) := by omega
              rw [unpackInternal_cons, hrun, Exec.ok_bind, hfold, hindex,
                List.append_assoc]
              rfl

/-- The fold steps past the end of an array that is too short. -/
theorem unpackInternal_of_short
    (n i : Nat)
    {ds : FixedOrder D τ}
    (hds : ds.Returning)
    (front : List (Json D))
    {rest : List (Json D)}
    (hnone : ∀ j e, ¬ ds.FirstFailure rest j e)
    (hshort : rest.length < ds.length) :
    unpackInternal n ds i (iteratorBehind front rest) =
      .ok ((iteratorBehind (front ++ rest) []).next,
        .error (shortError (i + rest.length) n)) := by
  induction ds generalizing i front rest with
  | nil =>
      cases hshort
  | cons d ds ih =>
      cases rest with
      | nil =>
          rw [unpackInternal, notAtEnd_iteratorBehind, List.append_nil]
          rfl
      | cons x xs =>
          obtain ⟨a, ha⟩ := (Outcome.returns_iff.mp (hds.1 x)).resolve_right
            (fun h => h.elim (fun e he => hnone 0 e he))
          have hfold := ih (i + 1) hds.2 (front ++ [x])
            (fun j e h => hnone (j + 1) e ⟨⟨a, ha⟩, h⟩)
            (Nat.lt_of_succ_lt_succ hshort)
          have hrun : (d [] (some x)).run = .ok (.ok a) := ha
          have hindex : i + 1 + xs.length = i + (x :: xs).length := by
            rw [List.length_cons]
            omega
          rw [unpackInternal_cons, hrun, Exec.ok_bind, hfold, hindex,
            List.append_assoc]
          rfl

/-- What the fold has found counts if the iterator is at its end. -/
theorem rejects_of_fold
    {ds : FixedOrder D τ}
    (hints : HintList D)
    {elements : List (Json D)}
    {last : ArrayIterator D}
    {e : DeserializeError}
    (hfold : unpackInternal ds.length ds 0 (iteratorBehind [] elements) =
      .ok (last, .error e)) :
    (fixedOrderDeserializer ds hints (some (.array elements))).Rejects
      (if last.notAtEnd then excessError ds.length else e) := by
  simp only [fixedOrderDeserializer, Slice.isArray, if_true, ofSlice_array,
    Outcome.rejects_bind, Outcome.not_rejects_lift, Outcome.accepts_lift,
    false_or]
  refine ⟨_, rfl, (last, .error e), hfold, ?_⟩
  cases hlast : last.notAtEnd with
  | true => simp [excessError]
  | false => simp

/-- The error of an element is reported if the element is the last one. -/
theorem rejects_of_firstFailure
    {ds : FixedOrder D τ}
    (hints : HintList D)
    {elements : List (Json D)}
    {i : Nat}
    {e : DeserializeError}
    (h : ds.FirstFailure elements i e) :
    (fixedOrderDeserializer ds hints (some (.array elements))).Rejects
      (if i + 1 = elements.length then elementError i e
        else excessError ds.length) := by
  obtain ⟨used, unused, rfl, hused, hfold⟩ :=
    unpackInternal_of_firstFailure ds.length 0 [] h
  have hrejects := rejects_of_fold hints hfold
  rw [Nat.zero_add, List.nil_append, notAtEnd_iteratorBehind] at hrejects
  rw [List.length_append, hused]
  cases unused with
  | nil => simpa using hrejects
  | cons y ys => simpa using hrejects

/-- An array that is too short is said to have excess elements. -/
theorem rejects_of_short
    {ds : FixedOrder D τ}
    (hds : ds.Returning)
    {hints : HintList D}
    {elements : List (Json D)}
    (hnone : ∀ i e, ¬ ds.FirstFailure elements i e)
    (hshort : elements.length < ds.length) :
    (fixedOrderDeserializer ds hints (some (.array elements))).Rejects
      (excessError ds.length) := by
  have hrejects := rejects_of_fold hints
    (unpackInternal_of_short ds.length 0 hds [] hnone hshort)
  have hpast : (iteratorBehind ([] ++ elements) []).next.notAtEnd = true := by
    simp [iteratorBehind, ArrayIterator.next, ArrayIterator.notAtEnd]
  rwa [hpast] at hrejects

/-- The fold ends with the error of an element or with the one about the length. -/
theorem firstFailure_or_short
    {n : Nat}
    {ds : FixedOrder D τ}
    {i : Nat}
    {front rest : List (Json D)}
    {last : ArrayIterator D}
    {e : DeserializeError}
    (h : unpackInternal n ds i (iteratorBehind front rest) = .ok (last, .error e)) :
    (∃ j e', ds.FirstFailure rest j e') ∨ ∃ found, e = shortError found n := by
  induction ds generalizing i front rest last with
  | nil =>
      cases h
  | cons d ds ih =>
      cases rest with
      | nil =>
          rw [unpackInternal, notAtEnd_iteratorBehind] at h
          cases h
          exact .inr ⟨i, rfl⟩
      | cons x xs =>
          rw [unpackInternal_cons] at h
          obtain ⟨result, hrun, h⟩ := Exec.bind_eq_ok.mp h
          cases result with
          | error e' =>
              exact .inl ⟨0, e', hrun⟩
          | ok a =>
              obtain ⟨⟨last', values⟩, hfold, h⟩ := Exec.bind_eq_ok.mp h
              cases values with
              | ok vs =>
                  cases h
              | error e' =>
                  cases h
                  rcases ih hfold with ⟨j, e'', hfailure⟩ | hshort
                  · exact .inl ⟨j + 1, e'', ⟨a, hrun⟩, hfailure⟩
                  · exact .inr hshort

/-- What is reported is the error of the last element, or one about the length. -/
theorem rejects_fixedOrderDeserializer_cases
    {ds : FixedOrder D τ}
    {hints : HintList D}
    {s : Slice D}
    {e : DeserializeError}
    (h : (fixedOrderDeserializer ds hints s).Rejects e) :
    (∃ elements i e', s = some (.array elements) ∧
      ds.FirstFailure elements i e' ∧ i + 1 = elements.length ∧
        elementError i e' = e) ∨
      ∃ message, .ofMessage message = e := by
  by_cases harray : s.isArray = true
  · obtain ⟨elements, rfl⟩ := isArray_iff.mp harray
    by_cases hfailure : ∃ i e', ds.FirstFailure elements i e'
    · obtain ⟨i, e', hfailure⟩ := hfailure
      have he := h.unique (rejects_of_firstFailure hints hfailure)
      split at he
      · rename_i hlast
        exact .inl ⟨elements, i, e', rfl, hfailure, hlast, he.symm⟩
      · exact .inr ⟨_, he.symm⟩
    · simp only [fixedOrderDeserializer, harray, if_true, ofSlice_array,
        Outcome.rejects_bind, Outcome.not_rejects_lift, Outcome.accepts_lift,
        false_or, Outcome.rejects_ite, rejects_reject,
        Outcome.rejects_ofExcept] at h
      obtain ⟨_, hiter, ⟨last, result⟩, hfold, h⟩ := h
      cases hiter
      rcases h with ⟨_, he⟩ | ⟨_, rfl⟩
      · exact .inr ⟨_, he⟩
      · rcases firstFailure_or_short hfold with hfirst | ⟨found, rfl⟩
        · exact absurd hfirst hfailure
        · exact .inr ⟨_, rfl⟩
  · simp [fixedOrderDeserializer, harray] at h
    exact .inr ⟨_, h⟩

/--
**Failures are reported for what they are** if and only if the first one is that
of the last element, or there is none and the array is not too short.
-/
theorem reported_iff
    (ds : FixedOrder D τ)
    (hds : ds.Returning)
    (hints : HintList D)
    (elements : List (Json D)) :
    ds.Reported hints elements ↔
      (∀ i e, ds.FirstFailure elements i e → i + 1 = elements.length) ∧
        ((∀ i e, ¬ ds.FirstFailure elements i e) →
          ds.length ≤ elements.length) := by
  constructor
  · intro h
    refine ⟨?_, ?_⟩
    · intro i e hfailure
      by_contra hlast
      have hexcess := rejects_of_firstFailure hints hfailure
      rw [if_neg hlast] at hexcess
      exact elementError_ne_excessError i ds.length e
        ((h.element i e hfailure).unique hexcess)
    · intro hnone
      by_contra hshort
      have hshort := Nat.lt_of_not_le hshort
      exact Nat.lt_asymm hshort (h.excess (rejects_of_short hds hnone hshort))
  · rintro ⟨hlast, hlong⟩
    have helement : ∀ i e, ds.FirstFailure elements i e →
        (fixedOrderDeserializer ds hints (some (.array elements))).Rejects
          (elementError i e) := by
      intro i e hfailure
      have hrejects := rejects_of_firstFailure hints hfailure
      rwa [if_pos (hlast i e hfailure)] at hrejects
    refine ⟨?_, helement, ?_, ?_⟩
    · intro v
      rw [accepts_fixedOrderDeserializer]
      exact ⟨fun hv => ⟨hv.length_eq, hv⟩, And.right⟩
    · intro hnone hshort
      exact absurd (hlong hnone) (Nat.not_le.mpr hshort)
    · intro hexcess
      by_cases hnone : ∀ i e, ¬ ds.FirstFailure elements i e
      · refine Nat.lt_of_le_of_ne (hlong hnone) ?_
        intro hlength
        obtain ⟨v, hv⟩ := exists_matches hds hnone hlength.symm
        exact (accepts_fixedOrderDeserializer.mpr hv).not_rejects _ hexcess
      · push Not at hnone
        obtain ⟨i, e, hfailure⟩ := hnone
        exact absurd ((helement i e hfailure).unique hexcess)
          (elementError_ne_excessError i ds.length e)

/-- Two deserializers for numbers. -/
def twoNumbers : FixedOrder Int (Int × Int × Unit) :=
  .cons (valueDeserializer readDouble)
    (.cons (valueDeserializer readDouble) .nil)

theorem returning_twoNumbers :
    twoNumbers.Returning :=
  ⟨fun x => returns_readDouble (some x),
    fun x => returns_readDouble (some x), trivial⟩

/-- Three numbers are too many. -/
theorem reported_iff_excess :
    twoNumbers.Reported [] [.number 12, .number 11, .number 13] := by
  refine (reported_iff twoNumbers returning_twoNumbers _ _).mpr ⟨?_, ?_⟩
  · intro i e h
    rcases i with _ | _ | i
    · cases h
    · cases h.2
    · exact h.2.2.elim
  · intro _
    decide

/-- One number is too few, and is reported as too many. -/
theorem not_reported_short :
    ¬ ∀ {τ : Type} (ds : FixedOrder Int τ), ds.Returning →
      ∀ hints elements, ds.Reported hints elements := by
  intro h
  have hreported := h twoNumbers returning_twoNumbers [] [.number 12]
  exact absurd (hreported.excess rfl) (by decide)

end FixedOrder

end Deserialize
end AgencyNode
