/-
SystemsStudy/Lib/Rounding.lean

Rounding to an integer, and to a binary floating-point number.

Two ways to round to the nearest integer differ only where there are two: one
takes the integer further from zero (`halfAway`), the other the even one
(`halfEven`).  Half of a natural number is where this shows
(`halfAway_natCast_div_two`, `halfEven_natCast_div_two`).

`binary64 x` is the number nearest to `x` with a significand of 53 bits, and the
one with an even significand where there are two.  The range of the exponent is not
limited, which makes no difference to numbers that are neither tiny nor huge.
What a proof needs of it is that it keeps the numbers that have such a significand
(`binary64_eq_self`), that it ends in one (`exists_binary64`), that its relative
error is small (`binary64_le`), and that it keeps the order (`binary64_mono`).
-/
import Mathlib.Data.Int.Log
import Mathlib.Data.Rat.Floor
import Mathlib.Tactic

namespace Rounding

/-! ### Rounding to an integer -/

section Integer

variable {K : Type*} [Field K] [LinearOrder K] [FloorRing K]

/-- The nearest integer, and of two the one further from zero. -/
def halfAway (x : K) : ℤ := if 0 ≤ x then ⌊x + 1 / 2⌋ else ⌈x - 1 / 2⌉

/-- The nearest integer, and of two the even one. -/
def halfEven (x : K) : ℤ :=
  if x - ⌊x⌋ < 1 / 2 then ⌊x⌋
  else if 1 / 2 < x - ⌊x⌋ then ⌊x⌋ + 1
  else ⌊x⌋ + ⌊x⌋ % 2

variable [IsStrictOrderedRing K]

theorem halfEven_intCast (k : ℤ) : halfEven (k : K) = k := by
  rw [halfEven, Int.floor_intCast, if_pos]
  rw [sub_self]
  norm_num

omit [IsStrictOrderedRing K] in
theorem halfEven_bounds (x : K) : ⌊x⌋ ≤ halfEven x ∧ halfEven x ≤ ⌊x⌋ + 1 := by
  unfold halfEven
  split_ifs <;> omega

/-- Half of a natural number, as an integer and a fraction. -/
theorem floor_natCast_div_two (n : ℕ) : ⌊(n : K) / 2⌋ = (n / 2 : ℕ) := by
  rw [Int.floor_eq_iff]
  obtain ⟨k, rfl | rfl⟩ := Nat.even_or_odd' n
  · rw [Nat.mul_div_cancel_left _ two_pos]
    push_cast
    constructor <;> linarith
  · rw [show (2 * k + 1) / 2 = k by omega]
    push_cast
    constructor <;> linarith

theorem halfAway_natCast_div_two (n : ℕ) : halfAway ((n : K) / 2) = ((n + 1) / 2 : ℕ) := by
  have hsucc : (n : K) / 2 + 1 / 2 = ((n + 1 : ℕ) : K) / 2 := by
    push_cast
    ring
  rw [halfAway, if_pos (by positivity), hsucc, floor_natCast_div_two]

theorem halfEven_natCast_div_two (n : ℕ) :
    halfEven ((n : K) / 2) = (if n % 2 = 0 then n / 2 else n / 2 + n / 2 % 2 : ℕ) := by
  rw [halfEven, floor_natCast_div_two]
  obtain ⟨k, rfl | rfl⟩ := Nat.even_or_odd' n
  · have hfrac : ((2 * k : ℕ) : K) / 2 - ((2 * k / 2 : ℕ) : ℤ) = 0 := by
      rw [Nat.mul_div_cancel_left _ two_pos]
      push_cast
      ring
    rw [hfrac, if_pos (by norm_num), if_pos (Nat.mul_mod_right 2 k)]
  · have hfrac : ((2 * k + 1 : ℕ) : K) / 2 - (((2 * k + 1) / 2 : ℕ) : ℤ) = 1 / 2 := by
      rw [show (2 * k + 1) / 2 = k by omega]
      push_cast
      ring
    rw [hfrac, if_neg (lt_irrefl _), if_neg (lt_irrefl _), if_neg (by omega)]
    push_cast
    rfl

theorem halfAway_mono {x y : K} (hx : 0 ≤ x) (h : x ≤ y) : halfAway x ≤ halfAway y := by
  rw [halfAway, halfAway, if_pos hx, if_pos (hx.trans h)]
  exact Int.floor_le_floor (by linarith)

theorem halfEven_mono {x y : K} (h : x ≤ y) : halfEven x ≤ halfEven y := by
  rcases (Int.floor_le_floor h).lt_or_eq with hlt | heq
  · have hx := (halfEven_bounds x).2
    have hy := (halfEven_bounds y).1
    omega
  · unfold halfEven
    rw [heq]
    -- the fraction of `x` is no larger than the one of `y`
    split_ifs <;> first | omega | (exfalso; linarith)

/-- The two roundings differ by at most one. -/
theorem halfEven_le_halfAway {x : K} (hx : 0 ≤ x) :
    halfEven x ≤ halfAway x ∧ halfAway x ≤ halfEven x + 1 := by
  rw [halfAway, if_pos hx, halfEven]
  -- both round to the floor or to its successor, and they differ only on a tie
  have hlo : ⌊x⌋ ≤ ⌊x + 1 / 2⌋ := Int.floor_le_floor (by linarith)
  have hhi : ⌊x + 1 / 2⌋ ≤ ⌊x⌋ + 1 := by
    rw [← Int.floor_add_one]
    exact Int.floor_le_floor (by linarith)
  split_ifs with h₁ h₂
  · have hsame : ⌊x + 1 / 2⌋ ≤ ⌊x⌋ := by
      apply Int.lt_add_one_iff.mp
      rw [Int.floor_lt]
      push_cast
      linarith
    omega
  · have hnext : ⌊x⌋ + 1 ≤ ⌊x + 1 / 2⌋ := by
      rw [Int.le_floor]
      push_cast
      linarith
    omega
  · have hnext : ⌊x⌋ + 1 ≤ ⌊x + 1 / 2⌋ := by
      rw [Int.le_floor]
      push_cast
      linarith
    omega

end Integer

/-! ### Rounding to a floating-point number -/

/-- The exponent of the last of the 53 significant bits. -/
def lastBit (x : ℚ) : ℤ := Int.log 2 |x| - 52

/-- The nearest number with 53 significant bits, and of two the even one. -/
def binary64 (x : ℚ) : ℚ := halfEven (x / 2 ^ lastBit x) * 2 ^ lastBit x

theorem binary64_eq_self_of_lt {k e : ℤ} (hk : |k| < 2 ^ 53) :
    binary64 (k * 2 ^ e) = k * 2 ^ e := by
  rcases eq_or_ne k 0 with rfl | hne
  · rw [Int.cast_zero, zero_mul, binary64, zero_div, ← Int.cast_zero, halfEven_intCast,
      Int.cast_zero, zero_mul]
  have hpos : 0 < |(k : ℚ) * 2 ^ e| := by positivity
  have hlt : |(k : ℚ) * 2 ^ e| < 2 ^ (53 + e) := by
    have hpow : (0 : ℚ) < 2 ^ e := zpow_pos two_pos e
    rw [abs_mul, abs_of_pos hpow, zpow_add₀ two_ne_zero, ← Int.cast_abs]
    apply mul_lt_mul_of_pos_right _ hpow
    exact_mod_cast hk
  have hlog : Int.log 2 |(k : ℚ) * 2 ^ e| < 53 + e :=
    (Int.lt_zpow_iff_log_lt one_lt_two hpos).mp (by exact_mod_cast hlt)
  -- the last significant bit is no higher than the one of weight `2 ^ e`
  have hle : lastBit (k * 2 ^ e) ≤ e := by
    rw [lastBit]
    omega
  obtain ⟨d, hd⟩ := Int.le.dest hle
  rw [binary64]
  generalize lastBit (k * 2 ^ e) = u at hd
  have hscaled : (k : ℚ) * 2 ^ e / 2 ^ u = (k * 2 ^ d : ℤ) := by
    rw [← hd, zpow_add₀ two_ne_zero, zpow_natCast]
    push_cast
    field_simp
  rw [hscaled, halfEven_intCast, ← hscaled, div_mul_cancel₀ _ (zpow_ne_zero u two_ne_zero)]

/-- A number with such a significand is kept. -/
theorem binary64_eq_self {k : ℤ} (e : ℤ) (hk : |k| ≤ 2 ^ 53) :
    binary64 (k * 2 ^ e) = k * 2 ^ e := by
  rcases hk.lt_or_eq with hlt | heq
  · exact binary64_eq_self_of_lt hlt
  · -- a significand that is a power of two is shifted
    obtain ⟨s, hs, rfl⟩ : ∃ s : ℤ, |s| < 2 ^ 53 ∧ k = s * 2 ^ 53 := by
      rcases abs_eq (by norm_num) |>.mp heq with rfl | rfl
      · exact ⟨1, by norm_num, by norm_num⟩
      · exact ⟨-1, by norm_num, by norm_num⟩
    have hshift : ((s * 2 ^ 53 : ℤ) : ℚ) * 2 ^ e = s * 2 ^ (53 + e) := by
      rw [zpow_add₀ two_ne_zero]
      push_cast
      ring
    rw [hshift]
    exact binary64_eq_self_of_lt hs

/-- The result is a number with such a significand. -/
theorem exists_binary64 (x : ℚ) :
    ∃ k : ℤ, |k| ≤ 2 ^ 53 ∧ binary64 x = k * 2 ^ lastBit x := by
  refine ⟨_, ?_, rfl⟩
  have hu : (0 : ℚ) < 2 ^ lastBit x := zpow_pos two_pos _
  have hlt : |x / 2 ^ lastBit x| < 2 ^ 53 := by
    have hlog := Int.lt_zpow_succ_log_self one_lt_two |x|
    rw [abs_div, abs_of_pos hu, div_lt_iff₀ hu, ← zpow_natCast, ← zpow_add₀ two_ne_zero]
    rw [show ((53 : ℕ) : ℤ) + lastBit x = Int.log 2 |x| + 1 by rw [lastBit]; push_cast; ring]
    exact_mod_cast hlog
  obtain ⟨hlo, hhi⟩ := halfEven_bounds (x / 2 ^ lastBit x)
  obtain ⟨hlt₁, hlt₂⟩ := abs_lt.mp hlt
  have hfloor : -2 ^ 53 ≤ ⌊x / 2 ^ lastBit x⌋ := Int.le_floor.mpr (by push_cast; exact hlt₁.le)
  have hfloor' : ⌊x / 2 ^ lastBit x⌋ < 2 ^ 53 := Int.floor_lt.mpr (by push_cast; exact hlt₂)
  rw [abs_le]
  constructor <;> omega

theorem binary64_nonneg {x : ℚ} (h : 0 ≤ x) : 0 ≤ binary64 x := by
  have hu : (0 : ℚ) < 2 ^ lastBit x := zpow_pos two_pos _
  have hfloor : 0 ≤ ⌊x / 2 ^ lastBit x⌋ := Int.floor_nonneg.mpr (div_nonneg h hu.le)
  have hround := hfloor.trans (halfEven_bounds (x / 2 ^ lastBit x)).1
  exact mul_nonneg (by exact_mod_cast hround) hu.le

/-- The relative error is at most one unit of the last bit. -/
theorem binary64_le {x : ℚ} (h : 0 ≤ x) : binary64 x ≤ x * (1 + 1 / 2 ^ 52) := by
  rcases h.eq_or_lt with rfl | hpos
  · rw [binary64, zero_div, ← Int.cast_zero, halfEven_intCast, Int.cast_zero, zero_mul, zero_mul]
  have hu : (0 : ℚ) < 2 ^ lastBit x := zpow_pos two_pos _
  have hunit : (2 : ℚ) ^ lastBit x ≤ x / 2 ^ 52 := by
    have hlog : (2 : ℚ) ^ Int.log 2 |x| ≤ |x| := by
      exact_mod_cast Int.zpow_log_le_self one_lt_two (abs_pos.mpr hpos.ne')
    rw [lastBit, zpow_sub₀ two_ne_zero]
    rw [abs_of_pos hpos] at hlog ⊢
    exact div_le_div_of_nonneg_right hlog (by positivity)
  have hround : (halfEven (x / 2 ^ lastBit x) : ℚ) ≤ x / 2 ^ lastBit x + 1 := by
    have hhi : (halfEven (x / 2 ^ lastBit x) : ℚ) ≤ ⌊x / 2 ^ lastBit x⌋ + 1 := by
      exact_mod_cast (halfEven_bounds (x / 2 ^ lastBit x)).2
    linarith [Int.floor_le (x / 2 ^ lastBit x)]
  calc
    binary64 x ≤ (x / 2 ^ lastBit x + 1) * 2 ^ lastBit x :=
      mul_le_mul_of_nonneg_right hround hu.le
    _ = x + 2 ^ lastBit x := by field_simp
    _ ≤ x + x / 2 ^ 52 := by linarith
    _ = x * (1 + 1 / 2 ^ 52) := by ring

/-- A number is rounded within its power of two. -/
theorem binary64_bounds {x : ℚ} (h : 0 < x) :
    2 ^ Int.log 2 |x| ≤ binary64 x ∧ binary64 x ≤ 2 ^ (Int.log 2 |x| + 1) := by
  -- 52 units above the last bit is the binade of `x`, 53 the end of it
  have hu : (0 : ℚ) < 2 ^ lastBit x := zpow_pos two_pos _
  have hsplit : ∀ k : ℕ, (2 : ℚ) ^ k * 2 ^ lastBit x = 2 ^ (Int.log 2 |x| + (k - 52)) := by
    intro k
    rw [← zpow_natCast, ← zpow_add₀ two_ne_zero, lastBit]
    congr 1
    ring
  constructor
  · have hscaled : (2 : ℚ) ^ 52 ≤ x / 2 ^ lastBit x := by
      have hlog : (2 : ℚ) ^ Int.log 2 |x| ≤ |x| := by
        exact_mod_cast Int.zpow_log_le_self one_lt_two (abs_pos.mpr h.ne')
      rw [le_div_iff₀ hu, hsplit 52]
      rw [abs_of_pos h] at hlog ⊢
      simpa using hlog
    have hfloor : 2 ^ 52 ≤ ⌊x / 2 ^ lastBit x⌋ := Int.le_floor.mpr (by push_cast; exact hscaled)
    have hround : (2 : ℚ) ^ 52 ≤ halfEven (x / 2 ^ lastBit x) := by
      exact_mod_cast hfloor.trans (halfEven_bounds _).1
    have hmul := mul_le_mul_of_nonneg_right hround hu.le
    rw [hsplit 52] at hmul
    rw [binary64]
    simpa using hmul
  · obtain ⟨k, hk, hround⟩ := exists_binary64 x
    have hle : (k : ℚ) ≤ 2 ^ 53 := by exact_mod_cast (le_abs_self k).trans hk
    have hmul := mul_le_mul_of_nonneg_right hle hu.le
    rw [hsplit 53, ← hround] at hmul
    norm_num at hmul
    exact hmul

theorem binary64_zero : binary64 0 = 0 := by
  have h := binary64_eq_self (k := 0) 0 (by norm_num)
  simpa using h

theorem binary64_mono {x y : ℚ} (hx : 0 ≤ x) (h : x ≤ y) : binary64 x ≤ binary64 y := by
  rcases hx.eq_or_lt with rfl | hpos
  · rw [binary64_zero]
    exact binary64_nonneg h
  have hpos' := hpos.trans_le h
  have hlog : Int.log 2 |x| ≤ Int.log 2 |y| := by
    rw [abs_of_pos hpos, abs_of_pos hpos']
    exact Int.log_mono_right hpos h
  rcases hlog.lt_or_eq with hlt | heq
  · -- there is a power of two between them
    calc
      binary64 x ≤ 2 ^ (Int.log 2 |x| + 1) := (binary64_bounds hpos).2
      _ ≤ 2 ^ Int.log 2 |y| := zpow_le_zpow_right₀ one_le_two (by omega)
      _ ≤ binary64 y := (binary64_bounds hpos').1
  · have hbit : lastBit x = lastBit y := by rw [lastBit, lastBit, heq]
    have hu : (0 : ℚ) < 2 ^ lastBit y := zpow_pos two_pos _
    rw [binary64, binary64, hbit]
    apply mul_le_mul_of_nonneg_right _ hu.le
    exact_mod_cast halfEven_mono (div_le_div_of_nonneg_right h hu.le)

/-! ### Natural numbers -/

theorem binary64_natCast {n : ℕ} (h : n ≤ 2 ^ 53) : binary64 n = n := by
  have hn := binary64_eq_self (k := n) 0 (by rw [Nat.abs_cast]; exact_mod_cast h)
  simpa using hn

/-- A number with more bits than the significand becomes an even one. -/
theorem exists_binary64_natCast {n : ℕ} (h : 2 ^ 53 < n) :
    ∃ m : ℕ, m ≤ n ∧ binary64 n = 2 * m ∧ binary64 m = m := by
  obtain ⟨k, hk, hround⟩ := exists_binary64 n
  have hpos : (0 : ℚ) < n := by exact_mod_cast (Nat.zero_le _).trans_lt h
  -- past `2 ^ 53` the last bit is worth at least two
  obtain ⟨d, hd⟩ : ∃ d : ℕ, lastBit n = 1 + d := by
    have hlog : (53 : ℤ) ≤ Int.log 2 |(n : ℚ)| := by
      rw [abs_of_pos hpos]
      apply (Int.zpow_le_iff_le_log one_lt_two hpos).mp
      exact_mod_cast h.le
    refine ⟨(lastBit n - 1).toNat, ?_⟩
    rw [lastBit]
    omega
  have hk0 : 0 ≤ k := by
    have hnonneg := binary64_nonneg hpos.le
    rw [hround] at hnonneg
    exact_mod_cast nonneg_of_mul_nonneg_left hnonneg (zpow_pos two_pos _)
  obtain ⟨j, rfl⟩ := Int.eq_ofNat_of_zero_le hk0
  have htwo : binary64 n = 2 * (j * 2 ^ d : ℕ) := by
    rw [hround, hd, zpow_add₀ two_ne_zero, zpow_natCast]
    push_cast
    ring
  refine ⟨j * 2 ^ d, ?_, htwo, ?_⟩
  · have hle := binary64_le hpos.le
    rw [htwo] at hle
    have hle' : ((j * 2 ^ d : ℕ) : ℚ) ≤ n := by linarith
    exact_mod_cast hle'
  · have hself := binary64_eq_self d hk
    simpa using hself

/-- A number has a half. -/
theorem binary64_natCast_div_two {n : ℕ} (h : n ≤ 2 ^ 53) :
    binary64 ((n : ℚ) / 2) = n / 2 := by
  have hn := binary64_eq_self (k := n) (-1) (by rw [Nat.abs_cast]; exact_mod_cast h)
  rw [zpow_neg_one] at hn
  exact_mod_cast hn

end Rounding
