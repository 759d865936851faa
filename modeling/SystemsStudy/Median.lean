/-
SystemsStudy/Median.lean

The medians that the programs print, and the ones of `tools/summarise.py`.

Both take the sample at position `(len - 1) * p` of the sorted list, rounded to the
nearest integer.  Where two integers are nearest, Rust rounds away from zero and
Python to the even one, so the medians of a list whose length leaves a remainder
of two modulo four are the two samples in the middle (`medians_agree_iff`).

The product is one of floating-point numbers, and exact for any list that fits a
memory.  Past that the length itself is rounded to an even number, which has a
half.
-/
import SystemsStudy.Kvm.Samples
import SystemsStudy.Lib.Rounding

namespace SystemsStudy

open Rounding

/-! ### In the programs -/

/-- The closure `q` of the summaries: a sample of the sorted list, by its rank. -/
def nearestRank (v : List UInt64) (p : ℚ) : Option UInt64 :=
  v[(halfAway (binary64 (binary64 (v.length - 1 : ℕ) * binary64 p))).toNat]?

/-- The percentiles of the exit-cost benchmark. -/
structure Kvm.Stats where
  n : ℕ
  min : UInt64
  p50 : UInt64
  p90 : UInt64
  p99 : UInt64
  p999 : UInt64
  max : UInt64
  deriving DecidableEq

/-- `Stats::from` of the exit benchmark; `none` where it panics. -/
def Kvm.Stats.from (v : List UInt64) : Option Kvm.Stats := do
  let v ← statsFrom v
  return {
    n := v.length
    min := ← v[0]?
    p50 := ← nearestRank v (1 / 2)
    p90 := ← nearestRank v (9 / 10)
    p99 := ← nearestRank v (99 / 100)
    p999 := ← nearestRank v (999 / 1000)
    max := ← v[v.length - 1]? }

/-- The percentiles of the chain walk. -/
structure Summary where
  p50 : UInt64
  p99 : UInt64
  deriving DecidableEq

/-- `summarise` of the notification benchmark; `none` where it panics. -/
def summarise (v : List UInt64) : Option Summary := do
  let v := v.insertionSort (· ≤ ·)
  return {
    p50 := ← nearestRank v (1 / 2)
    p99 := ← nearestRank v (99 / 100) }

/-- The percentiles of the fault benchmark. -/
structure Uffd.Stats where
  p50 : UInt64
  p90 : UInt64
  p99 : UInt64
  p999 : UInt64
  max : UInt64
  deriving DecidableEq

/-- `Stats::from` of the fault benchmark; `none` where it panics. -/
def Uffd.Stats.from (v : List UInt64) : Option Uffd.Stats := do
  if v = [] then none
  else
    let v := v.insertionSort (· ≤ ·)
    return {
      p50 := ← nearestRank v (1 / 2)
      p90 := ← nearestRank v (9 / 10)
      p99 := ← nearestRank v (99 / 100)
      p999 := ← nearestRank v (999 / 1000)
      max := ← v[v.length - 1]? }

/-! ### In the script -/

/-- A row of a results file. -/
structure Row where
  kind : String
  index : ℕ
  ns : ℕ
  deriving DecidableEq

/-- A row as it is written, without the newline. -/
def Row.line (row : Row) : String :=
  row.kind ++ "," ++ toString row.index ++ "," ++ toString row.ns

/-- The samples of one kind, in the order of the file. -/
def load (rows : List Row) (kind : String) : List ℕ :=
  (rows.filter fun row => row.kind = kind).map Row.ns

/-- `quantile`: a sample, or `None` where there are none. -/
def quantile (sortedValues : List ℕ) (q : ℚ) : Option (Option ℕ) :=
  if sortedValues = [] then some none
  else
    let idx := halfEven (binary64 (binary64 (sortedValues.length - 1 : ℕ) * binary64 q))
    sortedValues[idx.toNat]?.map some

/-- The quantiles the script prints, with their labels. -/
def quantiles : List (String × ℚ) :=
  [("min", 0), ("p50", 1 / 2), ("p90", 9 / 10), ("p99", 99 / 100), ("p99.9", 999 / 1000),
    ("max", 1)]

/-- The cells of the line that is printed for a kind. -/
def cells (rows : List Row) (kind : String) : List (String × Option (Option ℕ)) :=
  let values := (load rows kind).insertionSort (· ≤ ·)
  quantiles.map fun q => (q.1, quantile values q.2)

/-! ### The files -/

/-- The rows of a series of samples. -/
def series (kind : String) (samples : List UInt64) : List Row :=
  samples.mapIdx fun i ns => { kind, index := i, ns := ns.toNat }

theorem load_append (rows rows' : List Row) (kind : String) :
    load (rows ++ rows') kind = load rows kind ++ load rows' kind := by
  rw [load, List.filter_append, List.map_append]
  rfl

theorem load_series (kind : String) (samples : List UInt64) :
    load (series kind samples) kind = samples.map UInt64.toNat := by
  have hall : ∀ row ∈ series kind samples, decide (row.kind = kind) = true := by
    intro row hrow
    obtain ⟨i, hi, rfl⟩ := List.mem_mapIdx.mp hrow
    exact decide_eq_true rfl
  rw [load, List.filter_eq_self.mpr hall, series]
  apply List.ext_getElem?
  intro i
  rw [List.getElem?_map, List.getElem?_mapIdx, Option.map_map, List.getElem?_map]
  rfl

/-- The rows of the file of the exit-cost benchmark. -/
def Kvm.csvRows (timerNs : UInt64) (timings : List UInt64) : List Row :=
  series "timer_overhead_median" [timerNs] ++ series "vmexit_io" timings

theorem Kvm.writeCsv_eq (timerNs : UInt64) (timings : List UInt64) :
    writeCsv timerNs timings = "kind,index,ns" :: (csvRows timerNs timings).map Row.line := by
  have htimer : (series "timer_overhead_median" [timerNs]).map Row.line =
      ["timer_overhead_median,0," ++ toString timerNs.toNat] := by
    show ["timer_overhead_median" ++ "," ++ toString 0 ++ "," ++ toString timerNs.toNat] = _
    rfl
  have hrows : (series "vmexit_io" timings).map Row.line = timings.mapIdx csvRow := by
    apply List.ext_getElem?
    intro i
    rw [series, List.getElem?_map, List.getElem?_mapIdx, Option.map_map, List.getElem?_mapIdx]
    rfl
  rw [csvRows, List.map_append, htimer, hrows, writeCsv]
  rfl

theorem Kvm.load_csvRows (timerNs : UInt64) (timings : List UInt64) :
    load (csvRows timerNs timings) "vmexit_io" = timings.map UInt64.toNat := by
  rw [csvRows, load_append, load_series]
  rfl

/-! ### Ranks -/

theorem binary64_half : binary64 (1 / 2) = 1 / 2 := by
  have h := binary64_eq_self (k := 1) (-1) (by norm_num)
  rw [zpow_neg_one] at h
  norm_num at h ⊢
  exact h

/-- The two ranks of the median, up to where the length is exact. -/
theorem ranks_small {n : ℕ} (h : n ≤ 2 ^ 53) :
    halfAway (binary64 (binary64 n * binary64 (1 / 2))) = ((n + 1) / 2 : ℕ) ∧
      halfEven (binary64 (binary64 n * binary64 (1 / 2))) =
        (if n % 2 = 0 then n / 2 else n / 2 + n / 2 % 2 : ℕ) := by
  have hprod : binary64 (binary64 n * binary64 (1 / 2)) = (n : ℚ) / 2 := by
    rw [binary64_natCast h, binary64_half, mul_one_div, binary64_natCast_div_two h]
  rw [hprod]
  exact ⟨halfAway_natCast_div_two n, halfEven_natCast_div_two n⟩

/-- Past that the two ranks are the same. -/
theorem ranks_large {n : ℕ} (h : 2 ^ 53 < n) :
    ∃ m : ℕ, m ≤ n ∧ halfAway (binary64 (binary64 n * binary64 (1 / 2))) = m ∧
      halfEven (binary64 (binary64 n * binary64 (1 / 2))) = m := by
  obtain ⟨m, hle, htwo, hm⟩ := exists_binary64_natCast h
  have hprod : binary64 (binary64 n * binary64 (1 / 2)) = ((2 * m : ℕ) : ℚ) / 2 := by
    rw [htwo, binary64_half]
    push_cast
    rw [mul_one_div, mul_div_cancel_left₀ _ two_ne_zero, hm]
  refine ⟨m, hle, ?_, ?_⟩
  · rw [hprod, halfAway_natCast_div_two]
    congr 1
    omega
  · rw [hprod, halfEven_natCast_div_two, if_pos (Nat.mul_mod_right 2 m),
      Nat.mul_div_cancel_left _ two_pos]

/-- The rank of a percentile below the last lies in the list. -/
theorem halfAway_rank_le {n : ℕ} {p : ℚ} (hp : 0 ≤ p) (hp' : p ≤ 999 / 1000) :
    halfAway (binary64 (binary64 n * binary64 p)) ≤ n := by
  have hn : (0 : ℚ) ≤ n := Nat.cast_nonneg n
  have hprod := mul_nonneg (binary64_nonneg hn) (binary64_nonneg hp)
  have hle : binary64 (binary64 n * binary64 p) ≤ n := by
    calc
      binary64 (binary64 n * binary64 p)
          ≤ binary64 n * binary64 p * (1 + 1 / 2 ^ 52) := binary64_le hprod
      _ ≤ n * (1 + 1 / 2 ^ 52) * (p * (1 + 1 / 2 ^ 52)) * (1 + 1 / 2 ^ 52) := by
          gcongr
          · exact binary64_nonneg hp
          · exact binary64_le hn
          · exact binary64_le hp
      _ ≤ n * (1 + 1 / 2 ^ 52) * (999 / 1000 * (1 + 1 / 2 ^ 52)) * (1 + 1 / 2 ^ 52) := by
          gcongr
      _ ≤ n := by linarith
  rw [halfAway, if_pos (binary64_nonneg hprod), ← Int.lt_add_one_iff, Int.floor_lt]
  push_cast
  linarith

theorem exists_nearestRank {v : List UInt64} (hv : v ≠ []) {p : ℚ} (hp : 0 ≤ p)
    (hp' : p ≤ 999 / 1000) : ∃ x, nearestRank v p = some x := by
  have hlen := List.length_pos_of_ne_nil hv
  have hrank := halfAway_rank_le (n := v.length - 1) hp hp'
  rw [nearestRank]
  exact ⟨_, List.getElem?_eq_getElem (by omega)⟩

/-! ### The medians -/

/-- The programs and the script print one median. -/
def MediansAgree (v : List UInt64) (rows : List Row) (kind : String) : Prop :=
  ∃ m, (Kvm.Stats.from v).map Kvm.Stats.p50 = some m ∧
    (summarise v).map Summary.p50 = some m ∧
    (Uffd.Stats.from v).map Uffd.Stats.p50 = some m ∧
    (cells rows kind).lookup "p50" = some (some (some m.toNat))

section Medians

variable {v : List UInt64}

theorem sort_ne_nil (hv : v ≠ []) : v.insertionSort (· ≤ ·) ≠ [] := by
  apply List.ne_nil_of_length_pos
  rw [List.length_insertionSort]
  exact List.length_pos_of_ne_nil hv

/-- Every percentile that is printed is a sample. -/
theorem exists_percentiles (hv : v ≠ []) :
    (∃ p50, nearestRank v (1 / 2) = some p50) ∧ (∃ p90, nearestRank v (9 / 10) = some p90) ∧
      (∃ p99, nearestRank v (99 / 100) = some p99) ∧
      (∃ p999, nearestRank v (999 / 1000) = some p999) ∧
      (∃ min, v[0]? = some min) ∧ ∃ max, v[v.length - 1]? = some max := by
  have hlen := List.length_pos_of_ne_nil hv
  refine ⟨?_, ?_, ?_, ?_, ?_, ?_⟩
  · exact exists_nearestRank hv (by norm_num) (by norm_num)
  · exact exists_nearestRank hv (by norm_num) (by norm_num)
  · exact exists_nearestRank hv (by norm_num) (by norm_num)
  · exact exists_nearestRank hv (by norm_num) (by norm_num)
  · exact ⟨_, List.getElem?_eq_getElem hlen⟩
  · exact ⟨_, List.getElem?_eq_getElem (by omega)⟩

theorem Kvm.Stats.from_p50 (hv : v ≠ []) :
    (Kvm.Stats.from v).map Kvm.Stats.p50 = nearestRank (v.insertionSort (· ≤ ·)) (1 / 2) := by
  obtain ⟨⟨p50, h50⟩, ⟨p90, h90⟩, ⟨p99, h99⟩, ⟨p999, h999⟩, ⟨min, hmin⟩, max, hmax⟩ :=
    exists_percentiles (sort_ne_nil hv)
  simp only [Kvm.Stats.from, statsFrom, if_neg hv, h50, h90, h99, h999, hmin, hmax,
    Option.bind_eq_bind, Option.bind_some]
  rfl

theorem summarise_p50 (hv : v ≠ []) :
    (summarise v).map Summary.p50 = nearestRank (v.insertionSort (· ≤ ·)) (1 / 2) := by
  obtain ⟨⟨p50, h50⟩, -, ⟨p99, h99⟩, -⟩ := exists_percentiles (sort_ne_nil hv)
  simp only [summarise, h50, h99, Option.bind_eq_bind, Option.bind_some]
  rfl

theorem Uffd.Stats.from_p50 (hv : v ≠ []) :
    (Uffd.Stats.from v).map Uffd.Stats.p50 = nearestRank (v.insertionSort (· ≤ ·)) (1 / 2) := by
  obtain ⟨⟨p50, h50⟩, ⟨p90, h90⟩, ⟨p99, h99⟩, ⟨p999, h999⟩, -, max, hmax⟩ :=
    exists_percentiles (sort_ne_nil hv)
  simp only [Uffd.Stats.from, if_neg hv, h50, h90, h99, h999, hmax, Option.bind_eq_bind,
    Option.bind_some]
  rfl

/-- The script sorts the same numbers, in whatever order they were written. -/
theorem sort_load {rows : List Row} {kind : String}
    (hrows : (load rows kind).Perm (v.map UInt64.toNat)) :
    (load rows kind).insertionSort (· ≤ ·) = (v.insertionSort (· ≤ ·)).map UInt64.toNat := by
  rw [List.map_insertionSort _ (· ≤ ·) UInt64.toNat v fun a _ b _ => UInt64.le_iff_toNat_le]
  exact List.Perm.eq_of_pairwise' (List.pairwise_insertionSort _ _)
    (List.pairwise_insertionSort _ _)
    ((List.perm_insertionSort _ _).trans (hrows.trans (List.perm_insertionSort _ _).symm))

/-- The medians are the entries of the sorted list at the two ranks. -/
theorem mediansAgree_iff {rows : List Row} {kind : String} (hv : v ≠ [])
    (hrows : (load rows kind).Perm (v.map UInt64.toNat)) {r q : ℕ} (hq : q < v.length)
    (hr : halfAway (binary64 (binary64 (v.length - 1 : ℕ) * binary64 (1 / 2))) = r)
    (hq' : halfEven (binary64 (binary64 (v.length - 1 : ℕ) * binary64 (1 / 2))) = q) :
    MediansAgree v rows kind ↔
      (v.insertionSort (· ≤ ·))[r]? = (v.insertionSort (· ≤ ·))[q]? := by
  -- what the two programs index is one sorted vector, each at its own rank
  have hrust : nearestRank (v.insertionSort (· ≤ ·)) (1 / 2) = (v.insertionSort (· ≤ ·))[r]? := by
    rw [nearestRank, List.length_insertionSort, hr, Int.toNat_natCast]
  have hscript : (cells rows kind).lookup "p50" =
      some (((v.insertionSort (· ≤ ·))[q]?.map UInt64.toNat).map some) := by
    show some (quantile ((load rows kind).insertionSort (· ≤ ·)) (1 / 2)) = _
    rw [sort_load hrows, quantile, if_neg (by simpa using sort_ne_nil hv), List.length_map,
      List.length_insertionSort, hq']
    dsimp only
    rw [Int.toNat_natCast, List.getElem?_map]
  obtain ⟨x, hx⟩ : ∃ x, (v.insertionSort (· ≤ ·))[q]? = some x :=
    ⟨_, List.getElem?_eq_getElem (by rw [List.length_insertionSort]; exact hq)⟩
  rw [MediansAgree, Kvm.Stats.from_p50 hv, summarise_p50 hv, Uffd.Stats.from_p50 hv, hrust, hscript,
    hx]
  constructor
  · rintro ⟨m, hm, -, -, hm'⟩
    simp only [Option.map_some, Option.some.injEq, UInt64.toNat_inj] at hm'
    rw [hm, hm']
  · intro h
    exact ⟨x, h, h, h, rfl⟩

/-- Two lists of samples give one median unless there are two in the middle. -/
theorem medians_agree_iff {rows : List Row} {kind : String} (hv : v ≠ [])
    (hrows : (load rows kind).Perm (v.map UInt64.toNat)) :
    MediansAgree v rows kind ↔
      v.length % 4 ≠ 2 ∨ 2 ^ 53 + 1 < v.length ∨
        (v.insertionSort (· ≤ ·))[v.length / 2 - 1]? =
          (v.insertionSort (· ≤ ·))[v.length / 2]? := by
  have hlen := List.length_pos_of_ne_nil hv
  by_cases hlarge : 2 ^ 53 < v.length - 1
  · -- past `2 ^ 53` the last index rounds to an even number, whose half is no tie
    obtain ⟨m, hm, hr, hq⟩ := ranks_large hlarge
    rw [mediansAgree_iff hv hrows (by omega) hr hq]
    exact iff_of_true rfl (.inr (.inl (by omega)))
  · obtain ⟨hr, hq⟩ := ranks_small (Nat.not_lt.mp hlarge)
    have hrank : (v.length - 1 + 1) / 2 = v.length / 2 := by omega
    rw [hrank] at hr
    -- half of the last index is a tie whenever the length is even; the two roundings part
    -- where its floor is even
    by_cases hmod : v.length % 4 = 2
    · have hrank' : (if (v.length - 1) % 2 = 0 then (v.length - 1) / 2
          else (v.length - 1) / 2 + (v.length - 1) / 2 % 2) = v.length / 2 - 1 := by
        rw [if_neg (by omega)]
        omega
      rw [hrank'] at hq
      rw [mediansAgree_iff hv hrows (by omega) hr hq]
      constructor
      · exact fun h => .inr (.inr h.symm)
      · rintro (h | h | h)
        · exact absurd hmod h
        · omega
        · exact h.symm
    · have hrank' : (if (v.length - 1) % 2 = 0 then (v.length - 1) / 2
          else (v.length - 1) / 2 + (v.length - 1) / 2 % 2) = v.length / 2 := by
        split <;> omega
      rw [hrank'] at hq
      rw [mediansAgree_iff hv hrows (by omega) hr hq]
      exact iff_of_true rfl (.inl hmod)

end Medians

/-- The file of three samples, in the order they were taken. -/
theorem medians_agree_iff_threeSamples :
    MediansAgree [30, 10, 20] (Kvm.csvRows 16 [30, 10, 20]) "vmexit_io" :=
  (medians_agree_iff (by decide) (by rw [Kvm.load_csvRows])).mpr (.inl (by decide))

/-- Of two samples the programs print the larger one and the script the smaller. -/
theorem two_samples_two_medians :
    ¬ MediansAgree [10, 20] (Kvm.csvRows 16 [10, 20]) "vmexit_io" := by
  obtain ⟨hr, hq⟩ := ranks_small (n := ([10, 20] : List UInt64).length - 1) (by norm_num)
  rw [mediansAgree_iff (r := 1) (q := 0) (by decide) (by rw [Kvm.load_csvRows]) (by decide)
    (hr.trans rfl) (hq.trans rfl)]
  decide

end SystemsStudy
