import AgencyNode.Tree

/-!
# `get` and `set` form a lens

The lens laws of `node::get` and `node::set`, and what a write leaves alone.
Reading back what has been written gives the very node; the two laws that
compare trees hold up to the order in which objects list their members.
-/

namespace AgencyNode

open Lib

variable {D : Type}

namespace Node

/--
**`get` and `set` form a lens**, for every path along which no key is used as
the array index `2 ^ 64 - 1`.
-/
theorem get_set_lens
    (n : Node D)
    (p : Path)
    (v w : NodePtr D)
    (hne : p ≠ [])
    (hp : IndexUseInBounds (some n) p) :
    (∃ m, n.set p v = .ok (some m) ∧ m.get p = v) ∧
      (n.get p ≠ none →
        ∃ m, n.set p (n.get p) = .ok (some m) ∧ m.Equal n) ∧
      (w ≠ none →
        ∃ m m₁ m₂, n.set p v = .ok (some m) ∧ m.set p w = .ok (some m₁) ∧
          n.set p w = .ok (some m₂) ∧ m₁.Equal m₂) := by
  obtain ⟨m, hm, hmset⟩ := n.set_eq_some p v hp hne
  have hmp : IndexUseInBounds (some m) p := by
    rw [hmset]
    exact hp.set v
  refine ⟨⟨m, hm, ?_⟩, ?_, ?_⟩
  · rw [m.get_eq p hmp, hmset]
    exact (nodeRep D).get_set_self (some n) p v
  · intro hget
    obtain ⟨m', hm', hmset'⟩ := n.set_eq_some p (n.get p) hp hne
    refine ⟨m', hm', ?_⟩
    rw [n.get_eq p hp] at hget hmset'
    rw [← NodePtr.equal_some_iff, hmset']
    exact equal_set_get_self (some n) p hget
  · intro hw
    obtain ⟨m₁, hm₁, hmset₁⟩ := m.set_eq_some p w hmp hne
    obtain ⟨m₂, hm₂, hmset₂⟩ := n.set_eq_some p w hp hne
    refine ⟨m, m₁, m₂, hm, hm₁, hm₂, ?_⟩
    rw [← NodePtr.equal_some_iff, hmset₁, hmset₂, hmset]
    exact equal_set_set_self (some n) p v w hw

/-- The laws at the second element of an array, which is removed and written. -/
theorem get_set_lens_array :
    let n : Node Int :=
      .object [("a", some (.array [some (.bool true), some .null]))]
    (∃ m, n.set ["a", "1"] none = .ok (some m) ∧ m.get ["a", "1"] = none) ∧
      (∃ m, n.set ["a", "1"] (n.get ["a", "1"]) = .ok (some m) ∧ m.Equal n) ∧
      ∃ m m₁ m₂, n.set ["a", "1"] none = .ok (some m) ∧
        m.set ["a", "1"] (some (.double 1)) = .ok (some m₁) ∧
        n.set ["a", "1"] (some (.double 1)) = .ok (some m₂) ∧ m₁.Equal m₂ := by
  intro n
  obtain ⟨h₁, h₂, h₃⟩ :=
    get_set_lens n ["a", "1"] none (some (.double 1)) (by decide)
      (PathInBounds.indexUse (by decide) _)
  exact ⟨h₁, h₂ (by exact Option.some_ne_none _), h₃ (by simp)⟩

/--
The write at `p` pads the place `q`: it is an index of an array on the way of
`p`, from the old end of the array on and below the index `p` uses.
-/
def PaddedBy (n : Node D) (p q : Path) : Prop :=
  ∃ r a b p' l i j, p = r ++ a :: p' ∧ q = r ++ [b] ∧
    n.get r = some (.array l) ∧ stringToNumber a = some i ∧
    stringToNumber b = some j ∧ l.length ≤ j ∧ j < i

theorem paddedBy_iff_filled
    {n : Node D}
    {p q : Path}
    (hp : PathInBounds p) :
    n.PaddedBy p q ↔
      (nodeContainer D).Filled (nodeRep D).Pads (some n) p q := by
  have hget : ∀ r a p', p = r ++ a :: p' →
      n.get r = (nodeContainer D).get (some n) r := by
    intro r a p' h
    refine n.get_eq r (PathInBounds.indexUse ?_ _)
    intro key hkey
    exact hp key (h ▸ List.mem_append_left _ hkey)
  constructor
  · rintro ⟨r, a, b, p', l, i, j, hpr, hqr, hl, hai, hbj, hlj, hji⟩
    refine ⟨r, a, b, p', hpr, hqr, ?_, l, i, j, ?_, hai, hbj, hlj, hji⟩
    · rintro rfl
      rw [hai] at hbj
      cases hbj
      exact absurd hji (Nat.lt_irrefl _)
    · rw [shapeOf_eq_array_iff, ← hget r a p' hpr]
      exact hl
  · rintro ⟨r, a, b, p', hpr, hqr, _, l, i, j, hl, hai, hbj, hlj, hji⟩
    refine ⟨r, a, b, p', l, i, j, hpr, hqr, ?_, hai, hbj, hlj, hji⟩
    rw [hget r a p' hpr]
    exact shapeOf_eq_array_iff.mp hl

/--
**A write leaves unrelated paths alone**; only the places it pads change, from
nothing to a null node.
-/
theorem get_set_frame
    (n : Node D)
    (p q : Path)
    (v : NodePtr D)
    (hp : CanonicalPath p)
    (hq : CanonicalPath q)
    (hpq : Container.Incomparable p q) :
    ∃ m, n.set p v = .ok (some m) ∧
      (n.get q ≠ none → m.get q = n.get q) ∧
      (n.get q = none →
        (¬ n.PaddedBy p q → m.get q = none) ∧
        (n.PaddedBy p q → m.get q = some .null)) := by
  obtain ⟨m, hm, hmset⟩ :=
    n.set_eq_some p v (hp.inBounds.indexUse _) hpq.ne_nil
  obtain ⟨hfilled, hkept⟩ :=
    (nodeRep D).get_set_incomparable (some n) p q v hp.canonical hq.canonical hpq
  have hmq : m.get q =
      (nodeContainer D).get ((nodeContainer D).set (some n) p v) q := by
    rw [m.get_eq q (hq.inBounds.indexUse _), hmset]
  refine ⟨m, hm, ?_⟩
  rw [n.get_eq q (hq.inBounds.indexUse _), hmq,
    paddedBy_iff_filled hp.inBounds]
  refine ⟨?_, ?_⟩
  · intro hne
    exact hkept (fun h => hne ((nodeRep D).get_of_filled h))
  · intro hnone
    refine ⟨?_, hfilled⟩
    intro h
    rw [hkept h, hnone]

/-- Writing the third element of an array pads the second one. -/
theorem get_set_frame_padded :
    let n : Node Int := .object [("a", some (.array [some (.bool true)]))]
    ∃ m, n.set ["a", "2"] none = .ok (some m) ∧
      m.get ["a", "1"] = some .null := by
  intro n
  obtain ⟨m, hm, _, hnone⟩ :=
    get_set_frame n ["a", "2"] ["a", "1"] none (by decide) (by decide)
      (by decide)
  refine ⟨m, hm, (hnone rfl).2 ?_⟩
  exact ⟨["a"], "2", "1", [], [some (.bool true)], 2, 1, rfl, rfl, rfl, rfl,
    rfl, by decide, by decide⟩

end Node

end AgencyNode
