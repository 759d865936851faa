/-
SystemsStudy/Uffd/Handler.lean

`main.rs`: one iteration of the fault handler.

`handler_loop` reads an event, turns the faulting address into a page of the
region, and installs a run of pages from there.  An iteration goes on, ends the
thread, or panics: the two subtractions of addresses are checked, as in a debug
build (`none`).  The stop flag is tested between iterations; whether events are
awaited by polling or by spinning does not matter to what is done with them.
-/
import SystemsStudy.Uffd.Kernel

namespace SystemsStudy.Uffd

/-- What one handler thread did. -/
structure HandlerStats where
  faults : UInt64 := 0
  pagesInstalled : UInt64 := 0
  writeFaults : UInt64 := 0
  deriving DecidableEq

/-- Count a fault, by its flags. -/
def HandlerStats.count (stats : HandlerStats) (flags : UInt64) : HandlerStats :=
  let stats := { stats with faults := stats.faults + 1 }
  if flags &&& uffdPagefaultFlagWrite != 0 then
    { stats with writeFaults := stats.writeFaults + 1 }
  else stats

/-- The thread that services the faults of one region. -/
structure Handler where
  /-- Address of the registered region, so a fault address becomes a page index. -/
  regionStart : ℕ
  regionPages : ℕ
  /-- The snapshot image: what belongs at each page. -/
  src : List UInt8
  /-- Pages installed per fault. -/
  batchPages : ℕ

/-- After an iteration the thread loops or returns. -/
inductive Flow where
  | looping
  | returned
  deriving DecidableEq

namespace Handler

/-- Install the run of pages for a fault message. -/
def service (h : Handler) (msg : UffdMsg) (stats : HandlerStats) (k : Kernel) :
    Option (Flow × HandlerStats × Kernel) :=
  let stats := stats.count msg.pagefaultFlags
  let addr := (msg.pagefaultAddress &&& ~~~(UInt64.ofNat pageSize - 1)).toNat
  if addr < h.regionStart then none
  else
    let page := (addr - h.regionStart) / pageSize
    -- clamped to the region
    if h.regionPages < page then none
    else
      let run := min h.batchPages (h.regionPages - page)
      let len := run * pageSize
      match copy k h.src addr (page * pageSize) len true with
      | (.ok n, k) =>
          some (.looping,
            { stats with pagesInstalled := stats.pagesInstalled + UInt64.ofNat (n / pageSize) }, k)
      | (.error _, k) => some (.returned, stats, k)

/-- One iteration, for what reading the event returned. -/
def iteration (h : Handler) (ev : Except ℤ (Option UffdMsg)) (stats : HandlerStats) (k : Kernel) :
    Option (Flow × HandlerStats × Kernel) :=
  match ev with
  | .ok none => some (.looping, stats, k)
  | .error _ => some (.returned, stats, k)
  | .ok (some msg) =>
      if msg.event != uffdEventPagefault then some (.looping, stats, k)
      else h.service msg stats k

end Handler

/-- The handler the demo starts for a region: one page per fault. -/
def onePage (r : Region) (image : List UInt8) : Handler where
  regionStart := r.ptr
  regionPages := r.pages
  src := image
  batchPages := 1

/-! ### Installing pages -/

section Install

variable {r : Region} {image : List UInt8} {k : Kernel} {p m n : ℕ}

theorem Region.page_of_offset (r : Region) (j : ℕ) :
    (r.ptr + j) / pageSize = r.ptr / pageSize + j / pageSize := by
  have h₁ := r.ptr_aligned
  simp only [pageSize] at *
  omega

/-- The page of an address of the region. -/
theorem present_offset (hk : k.region = r) (j : ℕ) :
    k.present ((r.ptr + j) / pageSize) = k.holds (j / pageSize) := by
  rw [r.page_of_offset, Kernel.holds, hk]

/-- The first `n` pages of a request become present, and no others. -/
theorem holds_install (hk : k.region = r) (v : ℕ) :
    (k.install image (r.request p m) n).holds v =
      if p ≤ v ∧ v < p + n then true else k.holds v := by
  have hpage := r.request_page p m
  show (if _ ∧ _ then true else _) = _
  rw [hpage]
  apply if_congr
  · show r.ptr / pageSize + p ≤ k.region.ptr / pageSize + v ∧ _ ↔ _
    rw [hk]
    show _ ∧ k.region.ptr / pageSize + v < _ ↔ _
    rw [hk]
    omega
  · rfl
  · rfl

/-- Their bytes come from the same offsets of the image. -/
theorem byte_install (j : ℕ) :
    (k.install image (r.request p m) n).byte (r.ptr + j) =
      if p ≤ j / pageSize ∧ j / pageSize < p + n then image.getD j 0 else k.byte (r.ptr + j) := by
  have hdst : (r.request p m).dst = r.ptr + p * pageSize := rfl
  have hsrc : (r.request p m).src = p * pageSize := rfl
  have hrange : ((r.request p m).dst ≤ r.ptr + j ∧
      r.ptr + j < (r.request p m).dst + n * pageSize) ↔
        p ≤ j / pageSize ∧ j / pageSize < p + n := by
    rw [hdst]
    simp only [pageSize] at *
    omega
  show (if _ ∧ _ then image.getD ((r.request p m).src +
    (r.ptr + j - (r.request p m).dst)) 0 else _) = _
  by_cases hj : p ≤ j / pageSize ∧ j / pageSize < p + n
  · have hle := (hrange.mpr hj).1
    rw [if_pos (hrange.mpr hj), if_pos hj, hsrc]
    rw [hdst] at hle ⊢
    -- `omega` is to see the product as one unknown
    have hoff : p * pageSize + (r.ptr + j - (r.ptr + p * pageSize)) = j := by
      generalize p * pageSize = q at hle ⊢
      omega
    rw [hoff]
  · rw [if_neg (fun h => hj (hrange.mp h)), if_neg hj]

/-- The thread that waits for one of them is woken. -/
theorem waiter_install (hk : k.region = r) {i : ℕ} (hwaiter : k.waiter = some (r.ptr + i))
    (hi : p ≤ i / pageSize ∧ i / pageSize < p + n) :
    (k.install image (r.request p m) n).waiter = none := by
  have hp := @holds_install r image k p m n hk (i / pageSize)
  rw [if_pos hi, ← present_offset (k := k.install image (r.request p m) n) hk] at hp
  have hwake : (r.request p m).mode &&& uffdioCopyModeDontwake = 0 := by
    show (0 : UInt64) &&& uffdioCopyModeDontwake = 0
    decide
  unfold Kernel.install at hp ⊢
  dsimp only at hp ⊢
  rw [if_pos hwake, hwaiter, Option.filter_some, hp]
  rfl

end Install

/-! ### Serving a fault -/

/-- The handler for a region, with this many pages per fault. -/
def batched (r : Region) (image : List UInt8) (batchPages : ℕ) : Handler where
  regionStart := r.ptr
  regionPages := r.pages
  src := image
  batchPages := batchPages

/-- What a fault adds to the counters before anything is installed. -/
def HandlerStats.faulted (stats : HandlerStats) (write : Bool) : HandlerStats where
  faults := stats.faults + 1
  pagesInstalled := stats.pagesInstalled
  writeFaults := stats.writeFaults + if write then 1 else 0

/-- What serving a fault with `n` pages adds to the counters. -/
def HandlerStats.installed (stats : HandlerStats) (write : Bool) (n : ℕ) : HandlerStats :=
  { stats.faulted write with pagesInstalled := stats.pagesInstalled + UInt64.ofNat n }

theorem HandlerStats.count_message (stats : HandlerStats) (a : ℕ) (write : Bool) :
    stats.count (Kernel.message a write).pagefaultFlags = stats.faulted write := by
  have hflag : (uffdPagefaultFlagWrite &&& uffdPagefaultFlagWrite != 0) = true := by decide
  rcases write with - | -
  · simp [HandlerStats.count, HandlerStats.faulted, Kernel.message]
  · simp only [HandlerStats.count, HandlerStats.faulted, Kernel.message, if_true, hflag]

/-- A page boundary at or below an address of the region is in the region. -/
theorem Region.page_bounds (r : Region) {i : ℕ} (hi : i < r.len) :
    (r.ptr + i) / pageSize * pageSize = r.ptr + i / pageSize * pageSize ∧
      i / pageSize < r.pages := by
  have h₁ := r.ptr_aligned
  have h₂ := r.len_aligned
  unfold Region.pages
  simp only [pageSize] at *
  omega

/-- Rounding the reported address down again changes nothing. -/
theorem toNat_pagefaultAddress (r : Region) {i : ℕ} (hi : i < r.len) (write : Bool) :
    ((Kernel.message (r.ptr + i) write).pagefaultAddress &&&
      ~~~(UInt64.ofNat pageSize - 1)).toNat = r.ptr + i / pageSize * pageSize := by
  have hend := r.end_le
  have hle := Nat.div_mul_le_self (r.ptr + i) pageSize
  have hreported : (Kernel.message (r.ptr + i) write).pagefaultAddress.toNat =
      (r.ptr + i) / pageSize * pageSize := by
    show (UInt64.ofNat ((r.ptr + i) / pageSize * pageSize)).toNat = _
    rw [UInt64.toNat_ofNat', Nat.mod_eq_of_lt (by omega)]
  rw [toNat_and_not_pageMask, hreported, Nat.mul_div_cancel _ (by decide), (r.page_bounds hi).1]

/-- One iteration for a fault of the region.  The run is installed in full if
it is absent; nothing happens if its first page is present; otherwise the
handler returns, with a part of the run installed and not counted. -/
theorem Handler.iteration_fault {r : Region} {k : Kernel} (hk : k.region = r)
    (image : List UInt8) {b : ℕ} (hb : 0 < b) {i : ℕ} (hi : i < r.len) (write : Bool)
    (stats : HandlerStats) :
    let p := i / pageSize
    let n := min b (r.pages - p)
    let c := r.request p n
    (batched r image b).iteration (.ok (some (Kernel.message (r.ptr + i) write))) stats k =
      some (if k.absentFrom p n = n then
          (.looping, stats.installed write n, (k.noted c).install image c n)
        else if k.absentFrom p n = 0 then (.looping, stats.faulted write, k.noted c)
        else (.returned, stats.faulted write,
          (k.noted c).install image c (k.absentFrom p n))) := by
  intro p n c
  have hp : p < r.pages := (r.page_bounds hi).2
  have hn : 0 < n := Nat.lt_min.mpr ⟨hb, by omega⟩
  have hin : p + n ≤ r.pages := by
    have hle : n ≤ r.pages - p := Nat.min_le_right _ _
    omega
  have hcopy : copy k image (r.ptr + p * pageSize) (p * pageSize) (n * pageSize) true = _ :=
    copy_request hk image hn hin
  have hservice : (batched r image b).iteration
      (.ok (some (Kernel.message (r.ptr + i) write))) stats k =
        (batched r image b).service (Kernel.message (r.ptr + i) write) stats k := rfl
  rw [hservice]
  unfold Handler.service
  dsimp only
  rw [toNat_pagefaultAddress r hi, HandlerStats.count_message]
  have hsub :
      (r.ptr + i / pageSize * pageSize - (batched r image b).regionStart) / pageSize = p := by
    show (r.ptr + i / pageSize * pageSize - r.ptr) / pageSize = p
    rw [Nat.add_sub_cancel_left, Nat.mul_div_cancel _ (by decide)]
  -- an address in the region passes both checks of `service`
  rw [if_neg (show ¬ r.ptr + i / pageSize * pageSize < (batched r image b).regionStart from
      Nat.not_lt.mpr (Nat.le_add_right _ _)), hsub,
    if_neg (show ¬ (batched r image b).regionPages < p from Nat.not_lt.mpr hp.le)]
  show (match copy k image (r.ptr + p * pageSize) (p * pageSize) (n * pageSize) true with
    | (.ok _, _) => _
    | (.error _, _) => _) = _
  rw [hcopy]
  -- the copy ends early at a page already there: EEXIST at the first, EAGAIN after it
  by_cases hall : k.absentFrom p n = n
  · rw [if_pos hall, if_pos hall]
    dsimp only
    rw [Nat.mul_div_cancel n (by decide)]
    rfl
  · rw [if_neg hall, if_neg hall]
    by_cases hnone : k.absentFrom p n = 0
    · rw [if_pos hnone, if_pos hnone]
      have hsame : stats.pagesInstalled + UInt64.ofNat (0 / pageSize) = stats.pagesInstalled :=
        UInt64.add_zero _
      show some (_, { stats.faulted write with
        pagesInstalled := stats.pagesInstalled + UInt64.ofNat (0 / pageSize) }, _) = _
      rw [hsame]
      rfl
    · rw [if_neg hnone, if_neg hnone]

/-! ### One page per fault -/

/-- The request for the page of the fault at `a`. -/
def pageRequest (r : Region) (a : ℕ) : UffdioCopy where
  dst := a / pageSize * pageSize
  src := a / pageSize * pageSize - r.ptr
  len := pageSize
  mode := 0

theorem pageRequest_eq (r : Region) {i : ℕ} (hi : i < r.len) :
    pageRequest r (r.ptr + i) = r.request (i / pageSize) 1 := by
  rw [pageRequest, Region.request, (r.page_bounds hi).1, Nat.add_sub_cancel_left, Nat.one_mul]

/-- What a fault adds to the counters, once its page is installed. -/
def HandlerStats.served (stats : HandlerStats) (write : Bool) : HandlerStats where
  faults := stats.faults + 1
  pagesInstalled := stats.pagesInstalled + 1
  writeFaults := stats.writeFaults + if write then 1 else 0

/-- An absent page is installed alone, from its own offset of the image. -/
theorem Handler.iteration_onePage (r : Region) (image : List UInt8) {i : ℕ} (hi : i < r.len)
    (write : Bool) (stats : HandlerStats) {k : Kernel} (hk : k.region = r)
    (habs : k.present ((r.ptr + i) / pageSize) = false) :
    (onePage r image).iteration (.ok (some (Kernel.message (r.ptr + i) write))) stats k =
      some (.looping, stats.served write,
        ({ k with copies := k.copies ++ [pageRequest r (r.ptr + i)] } : Kernel).install image
          (pageRequest r (r.ptr + i)) 1) := by
  have hp := (r.page_bounds hi).2
  have hone : min 1 (r.pages - i / pageSize) = 1 := Nat.min_eq_left (by omega)
  have hall : k.absentFrom (i / pageSize) 1 = 1 := by
    apply Kernel.absentFrom_eq_iff.mpr
    intro v h₁ h₂
    obtain rfl : v = i / pageSize := by omega
    rwa [present_offset hk] at habs
  have hiter := iteration_fault hk image Nat.one_pos hi write stats
  dsimp only at hiter
  rw [hone, if_pos hall] at hiter
  rw [pageRequest_eq r hi]
  exact hiter

end SystemsStudy.Uffd
