/-
SystemsStudy/Lib/Chase.lean

Following pointers.

Every node names at most one next node, so from a start there is one path, and
it either ends or comes back to a node it has already visited.  It does not do
both: a path that comes back never ends (`ne_none_of_repeat`).  A path that stays
inside a finite set of nodes for longer than it has nodes has come back
(`exists_repeat`).
-/
import Mathlib.Tactic
import Mathlib.Combinatorics.Pigeonhole

namespace Chase

variable {α : Type} (next : α → Option α)

/-- The `i`-th node of the path from `a`, unless the path ends before. -/
def node (a : α) : ℕ → Option α
  | 0 => some a
  | i + 1 => (node a i).bind next

variable {next} {a b : α} {i j n p : ℕ}

@[simp] theorem node_zero : node next a 0 = some a := rfl

theorem node_succ : node next a (i + 1) = (node next a i).bind next := rfl

/-- The path from a node of the path is the rest of the path. -/
theorem node_add (h : node next a i = some b) : node next a (i + j) = node next b j := by
  induction j with
  | zero => exact h
  | succ j ih => rw [← Nat.add_assoc, node_succ, ih, node_succ]

theorem node_eq_none_of_le (h : node next a i = none) (hij : i ≤ j) : node next a j = none := by
  induction j, hij using Nat.le_induction with
  | base => exact h
  | succ j _ ih => rw [node_succ, ih, Option.bind_none]

/-- Before its last node a path has all of them. -/
theorem exists_node_of_le (h : node next a j ≠ none) (hij : i ≤ j) :
    ∃ b, node next a i = some b :=
  Option.ne_none_iff_exists'.mp fun hi => h (node_eq_none_of_le hi hij)

/-! ### Coming back -/

theorem node_mul (h : node next b p = some b) (n : ℕ) : node next b (n * p) = some b := by
  induction n with
  | zero => simp
  | succ n ih => rw [Nat.succ_mul, node_add ih, h]

/-- A path that comes back to one of its nodes never ends. -/
theorem ne_none_of_repeat (hij : i < j) (hi : node next a i = some b)
    (hj : node next a j = some b) (n : ℕ) : node next a n ≠ none := by
  obtain ⟨p, rfl⟩ := Nat.exists_eq_add_of_lt hij
  have hp : node next b (p + 1) = some b := by
    rw [← node_add hi, ← hj, Nat.add_assoc]
  intro hn
  have hlate : node next a (i + n * (p + 1)) = none := by
    refine node_eq_none_of_le hn ?_
    have : n ≤ n * (p + 1) := Nat.le_mul_of_pos_right n p.succ_pos
    omega
  rw [node_add hi, node_mul hp] at hlate
  cases hlate

/-- More nodes than there are places for: two of them are the same. -/
theorem exists_repeat (s : Finset α) (hs : s.card < n)
    (h : ∀ i < n, ∃ b ∈ s, node next a i = some b) :
    ∃ i j b, i < j ∧ j < n ∧ node next a i = some b ∧ node next a j = some b := by
  have : Nonempty α := ⟨a⟩
  choose! f hf using h
  have hmaps : ∀ i ∈ Finset.range n, f i ∈ s := fun i hi => (hf i (Finset.mem_range.mp hi)).1
  obtain ⟨i, hi, j, hj, hne, heq⟩ := Finset.exists_ne_map_eq_of_card_lt_of_maps_to
    (by rwa [Finset.card_range]) hmaps
  rw [Finset.mem_range] at hi hj
  rcases Nat.lt_or_gt_of_ne hne with hij | hji
  · exact ⟨i, j, f i, hij, hj, (hf i hi).2, heq ▸ (hf j hj).2⟩
  · exact ⟨j, i, f j, hji, hi, (hf j hj).2, heq ▸ (hf i hi).2⟩

end Chase
