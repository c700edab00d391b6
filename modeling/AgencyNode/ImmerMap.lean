import AgencyNode.Runtime
import AgencyNode.Lib.AssocMap
import Mathlib.Algebra.Group.Nat.Defs

/-!
# immer::map

An `immer::map<std::string, V>` is kept as the association list of its
entries, the one written last first.  Lookup, `set` and `erase` do not depend
on the hash function.  Iteration does: the map is a trie over five bit chunks
of the hash.  At every level the chunks that belong to a single key come
first, then the chunks that several keys share, each of them iterated one
level deeper.  Keys with the same hash end up in a collision bucket, in which
the entry inserted or replaced last comes first.
-/

namespace AgencyNode

open Lib

/-- `immer::map<std::string, V>`. -/
abbrev ImmerMap (V : Type) := List (String × V)

namespace ImmerMap

variable {V : Type} [StdHash]

/-- `default_bits`. -/
def bits : Nat := 5

/-- `branches<B>`. -/
def branches : Nat := 2 ^ bits

/-- `max_depth<B>`: the levels of inner nodes that cover a 64 bit hash. -/
def maxDepth : Nat := 13

/-- The chunk of a hash that selects the branch at one level. -/
def branch (depth : Nat) (key : String) : Nat :=
  ((StdHash.hash key).toNat >>> (bits * depth)) % branches

/-- The entries that take one branch of a level. -/
def onBranch
    (depth : Nat)
    (entries : ImmerMap V)
    (b : Nat) : ImmerMap V :=
  entries.filter (fun e => branch depth e.1 == b)

/-- `champ_iterator` with that many levels of inner nodes left. -/
def champOrder : Nat → ImmerMap V → ImmerMap V
  | 0, entries => entries
  | levels + 1, entries =>
      let depth := maxDepth - (levels + 1)
      let values := fun b =>
        if (onBranch depth entries b).length = 1 then
          onBranch depth entries b
        else
          []
      let children := fun b =>
        if (onBranch depth entries b).length ≥ 2 then
          champOrder levels (onBranch depth entries b)
        else
          []
      (List.range branches).flatMap values ++
        (List.range branches).flatMap children

/-- The entries in the order of iteration. -/
def iterate (m : ImmerMap V) : ImmerMap V :=
  champOrder maxDepth m

theorem branch_lt
    (depth : Nat)
    (key : String) :
    branch depth key < branches := by
  exact Nat.mod_lt _ (by decide)

/-- The branches of a level partition the entries. -/
theorem flatMap_onBranch_perm
    (depth : Nat)
    (entries : ImmerMap V)
    (bs : List Nat)
    (hbs : bs.Nodup) :
    (bs.flatMap (onBranch depth entries)).Perm
      (entries.filter (fun e => decide (branch depth e.1 ∈ bs))) := by
  induction bs with
  | nil =>
      simp
  | cons b bs ih =>
      obtain ⟨hb, hbs⟩ := List.nodup_cons.mp hbs
      have hsplit :=
        List.filter_append_perm
          (fun e : String × V => branch depth e.1 == b)
          (entries.filter (fun e => decide (branch depth e.1 ∈ b :: bs)))
      have hhead :
          (entries.filter (fun e => decide (branch depth e.1 ∈ b :: bs))).filter
              (fun e => branch depth e.1 == b) =
            onBranch depth entries b := by
        rw [List.filter_filter, onBranch]
        apply List.filter_congr
        intro e _
        by_cases he : branch depth e.1 = b <;> simp [he]
      have htail :
          (entries.filter (fun e => decide (branch depth e.1 ∈ b :: bs))).filter
              (fun e => !(branch depth e.1 == b)) =
            entries.filter (fun e => decide (branch depth e.1 ∈ bs)) := by
        rw [List.filter_filter]
        apply List.filter_congr
        intro e _
        by_cases he : branch depth e.1 = b
        · simp [he, hb]
        · simp [he]
      rw [hhead, htail] at hsplit
      rw [List.flatMap_cons]
      exact ((ih hbs).append_left _).trans hsplit

theorem champOrder_perm
    (levels : Nat)
    (entries : ImmerMap V) :
    (champOrder levels entries).Perm entries := by
  induction levels generalizing entries with
  | zero =>
      exact List.Perm.refl _
  | succ levels ih =>
      simp only [champOrder]
      refine (List.flatMap_append_perm _ _ _).trans ?_
      have hall :
          entries.filter (fun e =>
              decide (branch (maxDepth - (levels + 1)) e.1 ∈
                List.range branches)) = entries := by
        apply List.filter_eq_self.mpr
        intro e _
        simp [branch_lt]
      have hpart :=
        flatMap_onBranch_perm (maxDepth - (levels + 1)) entries
          (List.range branches) List.nodup_range
      rw [hall] at hpart
      refine List.Perm.trans ?_ hpart
      apply List.Perm.flatMap_left
      intro b _
      generalize onBranch (maxDepth - (levels + 1)) entries b = group
      match group with
      | [] =>
          simp
      | [e] =>
          simp
      | e :: e' :: group =>
          simpa using ih (e :: e' :: group)

/-- Iteration visits every entry once. -/
theorem iterate_perm
    (m : ImmerMap V) :
    (iterate m).Perm m := by
  exact champOrder_perm maxDepth m

@[simp] theorem mem_iterate
    {m : ImmerMap V}
    {e : String × V} :
    e ∈ iterate m ↔ e ∈ m := by
  exact (iterate_perm m).mem_iff

end ImmerMap

end AgencyNode
