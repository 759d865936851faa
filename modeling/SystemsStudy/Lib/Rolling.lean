/-
SystemsStudy/Lib/Rolling.lean

Free-running 16-bit counters.

A rolling counter is an unbounded position `n : ℕ` of which a program keeps
only `UInt16.ofNat n`.  Nothing can be read off one such value; what survives
the truncation is the *distance* between two counters that are less than
`2 ^ 16` apart (`toNat_ofNat_sub`), and hence their equality (`ofNat_inj`).

Two further facts make a ring buffer indexed by such counters work:

* the slot of a position is the same before and after truncation as soon as
  the ring size divides `2 ^ 16` (`toNat_ofNat_mod`);
* fewer than `n` apart positions have different slots (`mod_ne_mod`).

Last, `sub_sub_one_lt_iff` is the arithmetic behind event thresholds: comparing
two distances decides whether a target lies in a batch of increments, for a
batch of any size below `2 ^ 16` and wherever the counter wraps.  In terms of
positions the target recurs once a turn, and a batch is asked whether it has
crossed it (`sub_lt_iff_exists_crossing`).
-/
import Mathlib.Tactic

namespace Rolling

/-! ### Distances -/

theorem ofNat_sub_ofNat {a b : ℕ} (h : b ≤ a) :
    UInt16.ofNat a - UInt16.ofNat b = UInt16.ofNat (a - b) := by
  obtain ⟨c, rfl⟩ := Nat.exists_eq_add_of_le h
  rw [UInt16.ofNat_add, Nat.add_sub_cancel_left]
  grind

/-- The wrapped difference of two counters is their true distance. -/
theorem toNat_ofNat_sub {a b : ℕ} (h : b ≤ a) (hd : a - b < 2 ^ 16) :
    (UInt16.ofNat a - UInt16.ofNat b).toNat = a - b := by
  rw [ofNat_sub_ofNat h, UInt16.toNat_ofNat', Nat.mod_eq_of_lt hd]

/-- Counters less than a full turn apart are equal exactly when their
truncations are. -/
theorem ofNat_inj {a b : ℕ} (h : b ≤ a) (hd : a - b < 2 ^ 16) :
    UInt16.ofNat a = UInt16.ofNat b ↔ a = b := by
  constructor
  · intro e
    have hz : (UInt16.ofNat a - UInt16.ofNat b).toNat = 0 := by simp [e]
    rw [toNat_ofNat_sub h hd] at hz
    omega
  · rintro rfl
    rfl

theorem ofNat_succ (a : ℕ) : UInt16.ofNat (a + 1) = UInt16.ofNat a + 1 :=
  UInt16.ofNat_add a 1

/-- A distance that is not zero goes down by one. -/
theorem toNat_sub_one {x : UInt16} (h : x ≠ 0) : (x - 1).toNat + 1 = x.toNat := by
  have hx : x.toNat ≠ 0 := fun h₀ => h (UInt16.toNat_inj.mp h₀)
  have hle : (1 : UInt16) ≤ x := UInt16.le_iff_toNat_le.mpr (Nat.one_le_iff_ne_zero.mpr hx)
  rw [UInt16.toNat_sub_of_le _ _ hle, UInt16.toNat_one]
  omega

/-! ### Ring slots -/

/-- Truncating a position does not change its slot, because the ring size
divides the range of the counter. -/
theorem toNat_ofNat_mod {a : ℕ} {n : UInt16} (hn : n.toNat ∣ 2 ^ 16) :
    (UInt16.ofNat a % n).toNat = a % n.toNat := by
  rw [UInt16.toNat_mod, UInt16.toNat_ofNat', Nat.mod_mod_of_dvd _ hn]

/-- Positions fewer than `n` apart occupy different slots of a ring of `n`. -/
theorem mod_ne_mod {n i j : ℕ} (h : i < j) (hn : j < i + n) : i % n ≠ j % n := by
  intro e
  have hd : n ∣ j - i := (Nat.modEq_iff_dvd' h.le).mp e
  exact absurd (Nat.le_of_dvd (by omega) hd) (by omega)

/-! ### Lying in a batch -/

/-- Among the counters `old, .., new - 1` of a batch there is `event` exactly if
there are fewer increments from it to the last than the batch has. -/
theorem sub_sub_one_lt_iff (event new old : UInt16) :
    new - event - 1 < new - old ↔ event - old < new - old := by
  grind

/-- The counters of the batch, one by one. -/
theorem sub_lt_iff_exists (event new old : UInt16) :
    event - old < new - old ↔ ∃ n < (new - old).toNat, event = old + UInt16.ofNat n := by
  rw [UInt16.lt_iff_toNat_lt]
  constructor
  · intro h
    refine ⟨(event - old).toNat, h, ?_⟩
    rw [UInt16.ofNat_toNat]
    grind
  · rintro ⟨n, hn, rfl⟩
    have hlt := (new - old).toNat_lt
    rw [show old + UInt16.ofNat n - old = UInt16.ofNat n by grind, UInt16.toNat_ofNat',
      Nat.mod_eq_of_lt (by omega)]
    exact hn

/-- A position from `old` on that `new` has passed lies in the batch. -/
theorem ofNat_sub_lt {event new old : ℕ} (h : old ≤ event) (h' : event < new)
    (hd : new - old < 2 ^ 16) :
    UInt16.ofNat event - UInt16.ofNat old < UInt16.ofNat new - UInt16.ofNat old := by
  rw [UInt16.lt_iff_toNat_lt, toNat_ofNat_sub h (by omega), toNat_ofNat_sub (by omega) hd]
  omega

/-- The positions a counter stands for are those congruent to it. -/
theorem eq_ofNat_iff_modEq {event : UInt16} {a : ℕ} :
    event = UInt16.ofNat a ↔ a ≡ event.toNat [MOD 2 ^ 16] := by
  have hlt := event.toNat_lt
  rw [← UInt16.toNat_inj, UInt16.toNat_ofNat', Nat.ModEq, Nat.mod_eq_of_lt hlt, eq_comm]

/-! ### Crossing a target

A target is met by the positions congruent to it, one in every `2 ^ 16`. -/

/-- The positions after `a`, up to `b`, that meet the target. -/
def crossings (target a b : ℕ) : Finset ℕ :=
  (Finset.Ioc a b).filter fun t => t ≡ target [MOD 2 ^ 16]

variable {target a b c : ℕ}

theorem mem_crossings {t : ℕ} :
    t ∈ crossings target a b ↔ (a < t ∧ t ≤ b) ∧ t ≡ target [MOD 2 ^ 16] := by
  rw [crossings, Finset.mem_filter, Finset.mem_Ioc]

/-- Nothing is lost and nothing repeated where one batch ends and the next
begins. -/
theorem card_crossings_add (hab : a ≤ b) (hbc : b ≤ c) :
    (crossings target a c).card = (crossings target a b).card + (crossings target b c).card := by
  have hdis : Disjoint (crossings target a b) (crossings target b c) :=
    Finset.disjoint_filter_filter (Finset.Ioc_disjoint_Ioc_of_le le_rfl)
  rw [← Finset.card_union_of_disjoint hdis, crossings, crossings, crossings,
    ← Finset.filter_union, Finset.Ioc_union_Ioc_eq_Ioc hab hbc]

/-- A batch below a full turn crosses the target at most once. -/
theorem card_crossings_le_one {n : ℕ} (hn : n < 2 ^ 16) :
    (crossings target a (a + n)).card ≤ 1 := by
  refine Finset.card_le_one_iff.mpr fun {t u} ht hu => ?_
  obtain ⟨⟨ht₁, ht₂⟩, ht⟩ := mem_crossings.mp ht
  obtain ⟨⟨hu₁, hu₂⟩, hu⟩ := mem_crossings.mp hu
  have e : t % 2 ^ 16 = u % 2 ^ 16 := ht.trans hu.symm
  omega

/-- The batch of `n` after position `c` holds the counter `event` exactly if it
crosses the position after it. -/
theorem sub_lt_iff_exists_crossing (event : UInt16) {n : ℕ} (hn : n < 2 ^ 16) :
    event - UInt16.ofNat c < UInt16.ofNat (c + n) - UInt16.ofNat c ↔
      ∃ t, c < t ∧ t ≤ c + n ∧ t ≡ event.toNat + 1 [MOD 2 ^ 16] := by
  rw [sub_lt_iff_exists, toNat_ofNat_sub (Nat.le_add_right _ _) (by omega)]
  constructor
  · rintro ⟨k, hk, he⟩
    rw [← UInt16.ofNat_add, eq_ofNat_iff_modEq] at he
    exact ⟨c + k + 1, by omega, by omega, he.add_right 1⟩
  · rintro ⟨t, hlo, hhi, ht⟩
    obtain ⟨k, rfl⟩ : ∃ k, t = c + k + 1 := ⟨t - c - 1, by omega⟩
    refine ⟨k, by omega, ?_⟩
    rw [← UInt16.ofNat_add, eq_ofNat_iff_modEq]
    exact Nat.ModEq.add_right_cancel' 1 ht

/-! ### Batches that grow -/

theorem toNat_add_ofNat {a : UInt16} {n : ℕ} (h : a.toNat + n < 2 ^ 16) :
    (a + UInt16.ofNat n).toNat = a.toNat + n := by
  rw [UInt16.toNat_add, UInt16.toNat_ofNat', Nat.add_mod_mod, Nat.mod_eq_of_lt h]

/-- Subtracting does not wrap exactly if the result is not larger. -/
theorem sub_le_self_iff (a x : UInt16) : a - x ≤ a ↔ x ≤ a := by
  grind

end Rolling
