/-
SystemsStudy/Percentiles.lean

What the summaries print.

Every number is a sample: the ranks are positions of the sorted list, although
they go through two roundings of a product of floating-point numbers.  Rounding
keeps the order, so the numbers of a line ascend, from the least sample to the
greatest.  The script takes the rank of the programs or the one before it.
-/
import SystemsStudy.Median

namespace SystemsStudy

open Rounding

/-! ### Ranks -/

/-- The position of a percentile before it is rounded to an integer. -/
def position (n : ℕ) (p : ℚ) : ℚ := binary64 (binary64 n * binary64 p)

/-- The rank that the programs use. -/
def rustRank (n : ℕ) (p : ℚ) : ℕ := (halfAway (position n p)).toNat

/-- The rank that the script uses. -/
def scriptRank (n : ℕ) (p : ℚ) : ℕ := (halfEven (position n p)).toNat

section Ranks

variable {n : ℕ} {p q : ℚ}

theorem position_nonneg (hp : 0 ≤ p) : 0 ≤ position n p :=
  binary64_nonneg (mul_nonneg (binary64_nonneg (Nat.cast_nonneg n)) (binary64_nonneg hp))

theorem position_mono (hp : 0 ≤ p) (h : p ≤ q) : position n p ≤ position n q := by
  have hn : 0 ≤ binary64 (n : ℚ) := binary64_nonneg (Nat.cast_nonneg n)
  apply binary64_mono (mul_nonneg hn (binary64_nonneg hp))
  exact mul_le_mul_of_nonneg_left (binary64_mono hp h) hn

theorem rustRank_mono (hp : 0 ≤ p) (h : p ≤ q) : rustRank n p ≤ rustRank n q :=
  Int.toNat_le_toNat (halfAway_mono (position_nonneg hp) (position_mono hp h))

theorem scriptRank_mono (hp : 0 ≤ p) (h : p ≤ q) : scriptRank n p ≤ scriptRank n q :=
  Int.toNat_le_toNat (halfEven_mono (position_mono hp h))

theorem rustRank_le (hp : 0 ≤ p) (hp' : p ≤ 999 / 1000) : rustRank n p ≤ n :=
  Int.toNat_le.mpr (halfAway_rank_le hp hp')

/-- The script takes the same rank or the one before. -/
theorem scriptRank_le_rustRank (hp : 0 ≤ p) :
    scriptRank n p ≤ rustRank n p ∧ rustRank n p ≤ scriptRank n p + 1 := by
  have h := halfEven_le_halfAway (position_nonneg (n := n) hp)
  unfold scriptRank rustRank
  omega

theorem scriptRank_zero : scriptRank n 0 = 0 := by
  have hposition : position n 0 = ((0 : ℤ) : ℚ) := by
    rw [position, binary64_zero, mul_zero, binary64_zero, Int.cast_zero]
  rw [scriptRank, hposition, halfEven_intCast]
  rfl

/-- The last rank, where the length is exact. -/
theorem scriptRank_one (hn : n ≤ 2 ^ 53) : scriptRank n 1 = n := by
  have hone : binary64 1 = 1 := by
    have h := binary64_natCast (n := 1) (by norm_num)
    rwa [Nat.cast_one] at h
  have hposition : position n 1 = ((n : ℤ) : ℚ) := by
    rw [position, hone, mul_one, binary64_natCast hn, binary64_natCast hn, Int.cast_natCast]
  rw [scriptRank, hposition, halfEven_intCast, Int.toNat_natCast]

/-- The ranks of a line of the script. -/
def scriptRanks (n : ℕ) : List ℕ := quantiles.map fun q => scriptRank n q.2

/-- The ranks of a line of the programs. -/
def rustRanks (n : ℕ) : List ℕ :=
  [0, rustRank n (1 / 2), rustRank n (9 / 10), rustRank n (99 / 100), rustRank n (999 / 1000), n]

theorem pairwise_rustRanks (n : ℕ) : (rustRanks n).Pairwise (· ≤ ·) := by
  have h₁ : rustRank n (1 / 2) ≤ rustRank n (9 / 10) := rustRank_mono (by norm_num) (by norm_num)
  have h₂ : rustRank n (9 / 10) ≤ rustRank n (99 / 100) :=
    rustRank_mono (by norm_num) (by norm_num)
  have h₃ : rustRank n (99 / 100) ≤ rustRank n (999 / 1000) :=
    rustRank_mono (by norm_num) (by norm_num)
  have h₄ : rustRank n (999 / 1000) ≤ n := rustRank_le (by norm_num) le_rfl
  simp only [rustRanks, List.pairwise_cons, List.mem_cons, List.not_mem_nil, or_false,
    forall_eq_or_imp, forall_eq]
  refine ⟨?_, ?_, ?_, ?_, ?_, nofun, .nil⟩
  all_goals omega

theorem rustRanks_le (n : ℕ) : ∀ r ∈ rustRanks n, r ≤ n := by
  simp only [rustRanks, List.mem_cons, List.not_mem_nil, or_false, forall_eq_or_imp, forall_eq]
  refine ⟨Nat.zero_le n, ?_, ?_, ?_, ?_, le_rfl⟩
  · exact rustRank_le (by norm_num) (by norm_num)
  · exact rustRank_le (by norm_num) (by norm_num)
  · exact rustRank_le (by norm_num) (by norm_num)
  · exact rustRank_le (by norm_num) le_rfl

theorem pairwise_scriptRanks (n : ℕ) : (scriptRanks n).Pairwise (· ≤ ·) := by
  have hascend : (quantiles.map Prod.snd).Pairwise fun p q => 0 ≤ p ∧ p ≤ q := by
    simp only [quantiles, List.map_cons, List.map_nil, List.pairwise_cons, List.mem_cons,
      List.not_mem_nil, or_false, forall_eq_or_imp, forall_eq]
    norm_num
  have hranks : scriptRanks n = (quantiles.map Prod.snd).map (scriptRank n) := by
    rw [scriptRanks, List.map_map]
    rfl
  rw [hranks]
  exact hascend.map _ fun p q h => scriptRank_mono h.1 h.2

theorem scriptRanks_le (hn : n ≤ 2 ^ 53) : ∀ r ∈ scriptRanks n, r ≤ n := by
  intro r hr
  obtain ⟨q, hq, rfl⟩ := List.mem_map.mp hr
  have hbounds : ∀ q ∈ quantiles, 0 ≤ q.2 ∧ q.2 ≤ 1 := by
    simp only [quantiles, List.mem_cons, List.not_mem_nil, or_false, forall_eq_or_imp, forall_eq]
    norm_num
  have h := scriptRank_mono (n := n) (hbounds q hq).1 (hbounds q hq).2
  rwa [scriptRank_one hn] at h

end Ranks

/-! ### Samples -/

section Samples

variable {v : List UInt64} {r r' : ℕ} {p : ℚ}

/-- The sample of this rank. -/
def ranked (v : List UInt64) (r : ℕ) : UInt64 := (v.insertionSort (· ≤ ·)).getD r 0

theorem getElem?_ranked (hr : r < v.length) :
    (v.insertionSort (· ≤ ·))[r]? = some (ranked v r) := by
  have hr' : r < (v.insertionSort (· ≤ ·)).length := by rwa [List.length_insertionSort]
  rw [ranked, List.getD_eq_getElem _ _ hr']
  exact List.getElem?_eq_getElem hr'

theorem ranked_mem (hr : r < v.length) : ranked v r ∈ v :=
  (List.mem_insertionSort (· ≤ ·)).mp (List.mem_of_getElem? (getElem?_ranked hr))

theorem ranked_mono (h : r ≤ r') (hr : r' < v.length) : ranked v r ≤ ranked v r' := by
  have hlen : (v.insertionSort (· ≤ ·)).length = v.length := List.length_insertionSort _ _
  have hsorted : (v.insertionSort (· ≤ ·)).Pairwise (· ≤ ·) := List.pairwise_insertionSort _ _
  rw [ranked, ranked, List.getD_eq_getElem _ _ (by omega), List.getD_eq_getElem _ _ (by omega)]
  rcases h.lt_or_eq with hlt | rfl
  · exact List.pairwise_iff_getElem.mp hsorted r r' (by omega) (by omega) hlt
  · exact UInt64.le_refl _

/-- Every sample has a rank. -/
theorem exists_ranked {x : UInt64} (hx : x ∈ v) : ∃ r < v.length, ranked v r = x := by
  obtain ⟨r, hr⟩ := List.mem_iff_getElem?.mp ((List.mem_insertionSort (· ≤ ·)).mpr hx)
  have hlt : r < v.length := by
    obtain ⟨hlt, -⟩ := List.getElem?_eq_some_iff.mp hr
    rwa [List.length_insertionSort] at hlt
  exact ⟨r, hlt, Option.some.inj ((getElem?_ranked hlt).symm.trans hr)⟩

/-- Ranks that ascend give samples that do. -/
theorem pairwise_ranked {ranks : List ℕ} (h : ranks.Pairwise (· ≤ ·))
    (hlt : ∀ r ∈ ranks, r < v.length) : (ranks.map (ranked v)).Pairwise (· ≤ ·) := by
  apply List.Pairwise.map _ (fun r r' (h : r ≤ r' ∧ r' < v.length) => ranked_mono h.1 h.2)
  apply h.imp_of_mem
  exact fun _ hr' h => ⟨h, hlt _ hr'⟩

/-- In the programs. -/
theorem nearestRank_ranked (hv : v ≠ []) (hp : 0 ≤ p) (hp' : p ≤ 999 / 1000) :
    nearestRank (v.insertionSort (· ≤ ·)) p = some (ranked v (rustRank (v.length - 1) p)) := by
  have hlen := List.length_pos_of_ne_nil hv
  have hle := rustRank_le (n := v.length - 1) hp hp'
  rw [← getElem?_ranked (by omega), nearestRank, List.length_insertionSort]
  rfl

/-- In the script. -/
theorem quantile_ranked (hv : v ≠ []) {rows : List Row} {kind : String}
    (hrows : (load rows kind).Perm (v.map UInt64.toNat)) {q : ℚ}
    (hq : scriptRank (v.length - 1) q < v.length) :
    quantile ((load rows kind).insertionSort (· ≤ ·)) q =
      some (some (ranked v (scriptRank (v.length - 1) q)).toNat) := by
  have hget := getElem?_ranked hq
  rw [sort_load hrows, quantile, if_neg (by simpa using sort_ne_nil hv), List.length_map,
    List.length_insertionSort]
  show (((v.insertionSort (· ≤ ·)).map UInt64.toNat)[scriptRank (v.length - 1) q]?).map some = _
  rw [List.getElem?_map, hget]
  rfl

/-- The second sample is the first or the next one in order. -/
def Beside (v : List UInt64) (x y : UInt64) : Prop :=
  ∃ r, (v.insertionSort (· ≤ ·))[r]? = some x ∧
    ((v.insertionSort (· ≤ ·))[r]? = some y ∨ (v.insertionSort (· ≤ ·))[r + 1]? = some y)

theorem beside_ranked (h : r ≤ r' ∧ r' ≤ r + 1) (hr : r' < v.length) :
    Beside v (ranked v r) (ranked v r') := by
  refine ⟨r, getElem?_ranked (by omega), ?_⟩
  rcases Nat.lt_or_ge r r' with hlt | hge
  · obtain rfl : r' = r + 1 := by omega
    exact .inr (getElem?_ranked hr)
  · obtain rfl : r' = r := by omega
    exact .inl (getElem?_ranked hr)

end Samples

/-! ### What is printed -/

/-- For every list of samples whose length a floating-point number can tell, and
the rows of a file that hold them in any order.  No summary panics or raises.
The numbers of each are samples and ascend, from the least sample to the
greatest, and the ones that the three programs have in common are the same.
Where the script prints another sample than the programs do, theirs is the next
one in order. -/
theorem percentiles_are_samples {v : List UInt64} (hv : v ≠ []) (hlen : v.length ≤ 2 ^ 53 + 1)
    {rows : List Row} {kind : String} (hrows : (load rows kind).Perm (v.map UInt64.toNat)) :
    ∃ least p50 p90 p99 p999 greatest,
      Kvm.Stats.from v =
        some { n := v.length, min := least, p50, p90, p99, p999, max := greatest } ∧
      Uffd.Stats.from v = some { p50, p90, p99, p999, max := greatest } ∧
      summarise v = some { p50, p99 } ∧
      [least, p50, p90, p99, p999, greatest].Pairwise (· ≤ ·) ∧
      (∀ x ∈ [least, p50, p90, p99, p999, greatest], x ∈ v) ∧
      (∀ x ∈ v, least ≤ x ∧ x ≤ greatest) ∧
      ∃ printed, cells rows kind =
          (quantiles.map Prod.fst).zip (printed.map fun x => some (some x.toNat)) ∧
        printed.Pairwise (· ≤ ·) ∧ (∀ x ∈ printed, x ∈ v) ∧
        List.Forall₂ (Beside v) printed [least, p50, p90, p99, p999, greatest] := by
  have hpos := List.length_pos_of_ne_nil hv
  set n := v.length - 1 with hn
  have hrank : ∀ r ≤ n, r < v.length := fun r hr => by omega
  have h50 := nearestRank_ranked (p := 1 / 2) hv (by norm_num) (by norm_num)
  have h90 := nearestRank_ranked (p := 9 / 10) hv (by norm_num) (by norm_num)
  have h99 := nearestRank_ranked (p := 99 / 100) hv (by norm_num) (by norm_num)
  have h999 := nearestRank_ranked (p := 999 / 1000) hv (by norm_num) le_rfl
  have hmin := getElem?_ranked (hrank 0 (Nat.zero_le n))
  have hmax : (v.insertionSort (· ≤ ·))[v.length - 1]? = some (ranked v n) :=
    getElem?_ranked (hrank n le_rfl)
  -- all ranks, of the programs and of the script, are in range
  have hrust : ∀ r ∈ rustRanks n, r < v.length := fun r hr => hrank r (rustRanks_le n r hr)
  have hscript : ∀ r ∈ scriptRanks n, r < v.length :=
    fun r hr => hrank r (scriptRanks_le (by omega) r hr)
  refine ⟨ranked v 0, ranked v (rustRank n (1 / 2)), ranked v (rustRank n (9 / 10)),
    ranked v (rustRank n (99 / 100)), ranked v (rustRank n (999 / 1000)), ranked v n,
    ?_, ?_, ?_, pairwise_ranked (pairwise_rustRanks n) hrust, ?_, ?_,
    (scriptRanks n).map (ranked v), ?_, pairwise_ranked (pairwise_scriptRanks n) hscript, ?_, ?_⟩
  · simp only [Kvm.Stats.from, Kvm.statsFrom, if_neg hv, h50, h90, h99, h999, hmin, hmax,
      List.length_insertionSort, Option.bind_eq_bind, Option.bind_some]
    rfl
  · simp only [Uffd.Stats.from, if_neg hv, h50, h90, h99, h999, hmax, List.length_insertionSort,
      Option.bind_eq_bind, Option.bind_some]
    rfl
  · simp only [summarise, h50, h99, Option.bind_eq_bind, Option.bind_some]
    rfl
  · intro x hx
    obtain ⟨r, hr, rfl⟩ := List.mem_map.mp (show x ∈ (rustRanks n).map (ranked v) from hx)
    exact ranked_mem (hrust r hr)
  · intro x hx
    obtain ⟨r, hr, rfl⟩ := exists_ranked hx
    exact ⟨ranked_mono (Nat.zero_le r) hr, ranked_mono (by omega) (by omega)⟩
  · -- the script prints the sample at its own rank
    have hcell : ∀ q ∈ quantiles, quantile ((load rows kind).insertionSort (· ≤ ·)) q.2 =
        some (some (ranked v (scriptRank n q.2)).toNat) :=
      fun q hq => quantile_ranked hv hrows (hscript _ (List.mem_map_of_mem hq))
    rw [scriptRanks, List.map_map, List.map_map, List.zip_map', cells]
    exact List.map_congr_left fun q hq => by rw [hcell q hq]; rfl
  · intro x hx
    obtain ⟨r, hr, rfl⟩ := List.mem_map.mp hx
    exact ranked_mem (hscript r hr)
  · -- the two ranks of a percentile differ by one at most
    have hbeside : ∀ {p : ℚ}, 0 ≤ p → p ≤ 999 / 1000 →
        Beside v (ranked v (scriptRank n p)) (ranked v (rustRank n p)) :=
      fun hp hp' => beside_ranked (scriptRank_le_rustRank hp) (hrank _ (rustRank_le hp hp'))
    have hleast : Beside v (ranked v (scriptRank n 0)) (ranked v 0) := by
      rw [scriptRank_zero]
      exact beside_ranked (by omega) hpos
    have hgreatest : Beside v (ranked v (scriptRank n 1)) (ranked v n) := by
      rw [scriptRank_one (by omega)]
      exact beside_ranked (by omega) (by omega)
    exact .cons hleast (.cons (hbeside (by norm_num) (by norm_num))
      (.cons (hbeside (by norm_num) (by norm_num)) (.cons (hbeside (by norm_num) (by norm_num))
        (.cons (hbeside (by norm_num) le_rfl) (.cons hgreatest .nil)))))

/-- The file of three samples, in the order they were taken. -/
theorem percentiles_are_samples_three :
    ∃ s, Kvm.Stats.from [30, 10, 20] = some s ∧ s.min ≤ s.p50 ∧ s.p50 ∈ [30, 10, 20] := by
  have hrows : (load (Kvm.csvRows 16 [30, 10, 20]) "vmexit_io").Perm
      ([30, 10, 20].map UInt64.toNat) := by
    rw [Kvm.load_csvRows]
  obtain ⟨least, p50, p90, p99, p999, greatest, hstats, -, -, hascend, hmem, -⟩ :=
    percentiles_are_samples (by decide) (by decide) hrows
  exact ⟨_, hstats, List.rel_of_pairwise_cons hascend List.mem_cons_self,
    hmem p50 (by simp)⟩

end SystemsStudy
