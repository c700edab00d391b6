import Mathlib.Data.List.Lex
import Mathlib.Order.Lattice

/-!
# helper-immut.h: immutable_list

An `immutable_list` is compared element by element from the head on.
`operator==` and `has_prefix` go on to the tails where the heads are equal;
`operator<` goes on where the first head is the smaller one.
-/

namespace AgencyNode

universe u

variable {T : Type u}

/-- `immutable_list`: the values in its `element_container`s from the head on. -/
abbrev ImmutableList (T : Type u) := List T

namespace ImmutableList

/-- `immutable_list::operator==`. -/
def equal [DecidableEq T] :
    ImmutableList T → ImmutableList T → Bool
  | [], [] => true
  | [], _ :: _ => false
  | _ :: _, [] => false
  | value :: tail, otherValue :: otherTail =>
      if value = otherValue then
        equal tail otherTail
      else
        false

/-- `immutable_list::has_prefix`. -/
def hasPrefix [DecidableEq T] :
    ImmutableList T → ImmutableList T → Bool
  | _, [] => true
  | [], _ :: _ => false
  | value :: tail, prefixValue :: prefixTail =>
      if value = prefixValue then
        hasPrefix tail prefixTail
      else
        false

/-- `immutable_list::operator<`. -/
def less [LT T] [DecidableLT T] :
    ImmutableList T → ImmutableList T → Bool
  | _, [] => false
  | [], _ :: _ => true
  | value :: tail, otherValue :: otherTail =>
      if value < otherValue then
        less tail otherTail
      else
        false

section Equality

variable [DecidableEq T]

theorem equal_iff
    (a b : ImmutableList T) :
    equal a b = true ↔ a = b := by
  induction a generalizing b with
  | nil =>
      cases b <;> simp [equal]
  | cons value tail ih =>
      cases b with
      | nil =>
          simp [equal]
      | cons otherValue otherTail =>
          by_cases hvalue : value = otherValue
          · simp [equal, hvalue, ih]
          · simp [equal, hvalue]

theorem hasPrefix_iff
    (a b : ImmutableList T) :
    hasPrefix a b = true ↔ ∃ rest, a = b ++ rest := by
  induction b generalizing a with
  | nil =>
      simp [hasPrefix]
  | cons prefixValue prefixTail ih =>
      cases a with
      | nil =>
          simp [hasPrefix]
      | cons value tail =>
          by_cases hvalue : value = prefixValue
          · simp [hasPrefix, hvalue, ih]
          · simp [hasPrefix, hvalue]

end Equality

/-! ## What `operator<` decides -/

section Order

variable [LinearOrder T]

/--
The first list is the shorter one, and each of its elements is smaller than the
element of the second list at its position.
-/
def PointwiseBelow (a b : ImmutableList T) : Prop :=
  a.length < b.length ∧
    ∀ (i : Nat) (x y : T), a[i]? = some x → b[i]? = some y → x < y

theorem pointwiseBelow_cons_iff
    {x y : T}
    {a b : ImmutableList T} :
    PointwiseBelow (x :: a) (y :: b) ↔ x < y ∧ PointwiseBelow a b := by
  constructor
  · rintro ⟨hlength, h⟩
    refine ⟨h 0 x y rfl rfl, ?_, ?_⟩
    · simpa using hlength
    · intro i v w hv hw
      exact h (i + 1) v w hv hw
  · rintro ⟨hxy, hlength, h⟩
    refine ⟨by simpa using hlength, ?_⟩
    intro i v w hv hw
    cases i with
    | zero =>
        cases hv
        cases hw
        exact hxy
    | succ i =>
        exact h i v w hv hw

theorem less_iff
    (a b : ImmutableList T) :
    less a b = true ↔ PointwiseBelow a b := by
  induction a generalizing b with
  | nil =>
      cases b <;> simp [less, PointwiseBelow]
  | cons value tail ih =>
      cases b with
      | nil =>
          simp [less, PointwiseBelow]
      | cons otherValue otherTail =>
          rw [pointwiseBelow_cons_iff, ← ih]
          by_cases hvalue : value < otherValue
          · simp [less, hvalue]
          · simp [less, hvalue]

/-- What is found smaller precedes in the lexicographic order. -/
theorem PointwiseBelow.lt
    {a b : ImmutableList T}
    (h : PointwiseBelow a b) :
    a < b := by
  obtain ⟨hlength, h⟩ := h
  cases b with
  | nil =>
      simp at hlength
  | cons y b =>
      cases a with
      | nil =>
          exact List.nil_lt_cons y b
      | cons x a =>
          exact List.cons_lt_cons_iff.mpr (.inl (h 0 x y rfl rfl))

theorem PointwiseBelow.trans
    {a b c : ImmutableList T}
    (hab : PointwiseBelow a b)
    (hbc : PointwiseBelow b c) :
    PointwiseBelow a c := by
  refine ⟨hab.1.trans hbc.1, ?_⟩
  intro i x z hx hz
  -- The list in the middle is longer than the first one.
  have hi : i < b.length := (List.getElem?_eq_some_iff.mp hx).1.trans hab.1
  have hy : b[i]? = some b[i] := List.getElem?_eq_getElem hi
  exact (hab.2 i x b[i] hx hy).trans (hbc.2 i b[i] z hy hz)

/-- The laws of a list that is ordered lexicographically, for three lists. -/
structure OrderedLexicographically (a b c : ImmutableList T) : Prop where
  lexicographic : less a b = true ↔ a < b
  trichotomy :
    (less a b = true ∧ less b a = false ∧ equal a b = false) ∨
      (less a b = false ∧ less b a = true ∧ equal a b = false) ∨
        (less a b = false ∧ less b a = false ∧ equal a b = true)
  transitive : less a b = true → less b c = true → less a c = true
  hasPrefix : hasPrefix a b = true ↔ ∃ rest, a = b ++ rest

theorem equal_eq_false
    {a b : ImmutableList T}
    (h : a ≠ b) :
    equal a b = false := by
  rwa [Bool.eq_false_iff, ne_eq, equal_iff]

theorem less_eq_false
    {a b : ImmutableList T}
    (h : ¬ a < b) :
    less a b = false := by
  rw [Bool.eq_false_iff, ne_eq, less_iff]
  exact fun hbelow => h hbelow.lt

/--
**`immutable_list` is ordered lexicographically** only where the two lists are
equal, or one is shorter and smaller at each of its positions.
-/
theorem orderedLexicographically_iff
    (a b c : ImmutableList T) :
    OrderedLexicographically a b c ↔
      a = b ∨ PointwiseBelow a b ∨ PointwiseBelow b a := by
  constructor
  · intro h
    rcases h.trichotomy with ⟨hless, _⟩ | ⟨_, hless, _⟩ | ⟨_, _, hequal⟩
    · exact .inr (.inl ((less_iff a b).mp hless))
    · exact .inr (.inr ((less_iff b a).mp hless))
    · exact .inl ((equal_iff a b).mp hequal)
  · intro h
    have htransitive : less a b = true → less b c = true → less a c = true := by
      intro hab hbc
      rw [less_iff] at hab hbc ⊢
      exact hab.trans hbc
    rcases h with rfl | hbelow | hbelow
    · have hirrefl := less_eq_false (lt_irrefl a)
      exact ⟨by simp [hirrefl], .inr (.inr ⟨hirrefl, hirrefl, (equal_iff a a).mpr rfl⟩),
        htransitive, hasPrefix_iff a a⟩
    · have hlt := hbelow.lt
      have hless := (less_iff a b).mpr hbelow
      exact ⟨by simp [hless, hlt],
        .inl ⟨hless, less_eq_false hlt.asymm, equal_eq_false hlt.ne⟩,
        htransitive, hasPrefix_iff a b⟩
    · have hlt := hbelow.lt
      have hless := (less_iff b a).mpr hbelow
      have hnot := less_eq_false hlt.asymm
      exact ⟨by simp [hnot, hlt.asymm],
        .inr (.inl ⟨hnot, hless, equal_eq_false hlt.ne'⟩),
        htransitive, hasPrefix_iff a b⟩

/-- Of two lists with one element none is smaller. -/
theorem orderedLexicographically_singletons :
    ¬ OrderedLexicographically (T := Nat) [1] [2] [] := by
  rintro ⟨_, htrichotomy, _, _⟩
  revert htrichotomy
  decide

end Order

end ImmutableList

end AgencyNode
