/-
SystemsStudy/Uffd/Walk.lean

Ascending walks, with any number of pages per fault.

Each round of the benchmark resets the region and touches its pages in order
(`walk`).  In a round the present pages are a prefix of the region, which ends
at a multiple of the batch size or at the end of the region (`Filled`).  A
touch finds its page in the prefix, or the page is the first one after it; then
all of the clamped run is absent, and installing it makes the next prefix.

So a round of `n` pages faults `⌈n / b⌉` times, and installs each page once
(`ascending_walk_faults`).
-/
import Mathlib.Algebra.Order.Floor.Div
import SystemsStudy.Uffd.Restore

namespace SystemsStudy.Uffd

/-! ### The walk -/

/-- Touch `m` pages from page `p` on, each at its first byte. -/
def touches (p m : ℕ) : List Access := (List.range' p m).map fun q => .read (q * pageSize)

/-- Rounds of the benchmark: reset the region, then touch its pages in order. -/
def walk (r : Region) : ℕ → List Access
  | 0 => []
  | rounds + 1 => .reset :: (touches 0 r.pages ++ walk r rounds)

/-- What a read should return, as long as nothing is written. -/
def Access.imageByte (image : List UInt8) : Access → Option UInt8
  | .read i => some (image.getD i 0)
  | _ => none

/-- The first bytes of the pages of the image. -/
def firstBytes (r : Region) (image : List UInt8) : List UInt8 :=
  (List.range r.pages).map fun p => image.getD (p * pageSize) 0

/-- The walk should read the first bytes, once in each round. -/
theorem filterMap_walk (r : Region) (image : List UInt8) (rounds : ℕ) :
    (walk r rounds).filterMap (Access.imageByte image) =
      (List.replicate rounds (firstBytes r image)).flatten := by
  induction rounds with
  | zero => rfl
  | succ rounds ih =>
      have hround : (touches 0 r.pages).filterMap (Access.imageByte image) =
          firstBytes r image := by
        rw [touches, List.filterMap_map, firstBytes, List.range_eq_range',
          ← List.filterMap_eq_map]
        rfl
      rw [walk, List.filterMap_cons, List.replicate_succ, List.flatten_cons]
      show List.filterMap _ (_ ++ _) = _
      rw [List.filterMap_append, hround, ih]

/-! ### The prefix of present pages -/

section Prefix

variable {r : Region} {image : List UInt8} {b c : ℕ} {k : Kernel}

/-- The pages of the first `c` batches are present, with the content of the
image, and no others. -/
structure Filled (r : Region) (image : List UInt8) (b c : ℕ) (k : Kernel) : Prop where
  /-- the last batch begins inside the region -/
  begins : c * b < r.pages + b
  holds : ∀ v < r.pages, k.holds v = decide (v < c * b)
  byte : ∀ j < r.len, j / pageSize < c * b → k.byte (r.ptr + j) = image.getD j 0

namespace Filled

theorem dontneed (hk : k.region = r) (hb : 1 ≤ b) : Filled r image b 0 k.dontneed where
  begins := by omega
  holds v hv := by
    rw [Kernel.holds_dontneed hk hv, Nat.zero_mul, decide_eq_false (Nat.not_lt_zero v)]
  byte j _ hj := by
    rw [Nat.zero_mul] at hj
    exact absurd hj (Nat.not_lt_zero _)

/-- There are no more batches than it takes to cover the region. -/
theorem le_ceilDiv (h : Filled r image b c k) (hb : 1 ≤ b) : c ≤ r.pages ⌈/⌉ b := by
  have hbegins := h.begins
  rw [Nat.ceilDiv_eq_add_pred_div]
  apply (Nat.le_div_iff_mul_le hb).mpr
  omega

/-- The batches that cover the region are as many as it takes. -/
theorem ceilDiv_eq (h : Filled r image b c k) (hb : 1 ≤ b) (hle : r.pages ≤ c * b) :
    r.pages ⌈/⌉ b = c := by
  apply le_antisymm
  · apply (ceilDiv_le_iff_le_mul hb).mpr
    rwa [Nat.mul_comm]
  · exact h.le_ceilDiv hb

/-- The run after the prefix is absent. -/
theorem absent (h : Filled r image b c k) {v : ℕ} (hv : c * b ≤ v)
    (hv' : v < c * b + min b (r.pages - c * b)) : k.holds v = false := by
  have hle : min b (r.pages - c * b) ≤ r.pages - c * b := Nat.min_le_right _ _
  rw [h.holds v (by omega), decide_eq_false (Nat.not_lt.mpr hv)]

/-- Installing it makes the next prefix. -/
theorem install (h : Filled r image b c k) (hk : k.region = r) (hc : c * b < r.pages) :
    Filled r image b (c + 1) (k.install image (r.request (c * b) (min b (r.pages - c * b)))
      (min b (r.pages - c * b))) where
  begins := by
    rw [Nat.succ_mul]
    omega
  holds v hv := by
    rw [holds_install hk, h.holds v hv, Nat.succ_mul]
    by_cases hnew : c * b ≤ v ∧ v < c * b + min b (r.pages - c * b)
    · rw [if_pos hnew, decide_eq_true (by omega)]
    · rw [if_neg hnew]
      apply decide_eq_decide.mpr
      omega
  byte j hj hv := by
    rw [Nat.succ_mul] at hv
    have hp := (r.page_bounds hj).2
    rw [byte_install]
    by_cases hnew : c * b ≤ j / pageSize ∧ j / pageSize < c * b + min b (r.pages - c * b)
    · rw [if_pos hnew]
    · rw [if_neg hnew]
      exact h.byte j hj (by omega)

end Filled

end Prefix

/-! ### Where a walk is -/

/-- The counters, the requests and the reads of a walk that should read
`wanted`. -/
structure Counted (r : Region) (image wanted : List UInt8) (faults pages : ℕ) (s : Pager) :
    Prop where
  region : s.kernel.region = r
  looping : s.looping = true
  stats : s.stats =
    { faults := UInt64.ofNat faults, pagesInstalled := UInt64.ofNat pages, writeFaults := 0 }
  copies : ∀ c ∈ s.kernel.copies, c.Inside r image
  /-- the reads so far, and those to come -/
  reads : s.reads ++ s.todo.filterMap (Access.imageByte image) = wanted

/-- Steps of a whole round: the reset, the touches, and two for each fault. -/
def roundSteps (r : Region) (b : ℕ) : ℕ := 1 + r.pages + 2 * (r.pages ⌈/⌉ b)

/-- Where a walk of `rounds` rounds is after `n` steps: between two rounds, at
page `p` after `c` faults, or parked at the page where the prefix ends. -/
inductive WalkAt (r : Region) (image : List UInt8) (b rounds : ℕ) : ℕ → Pager → Prop
  | between {n s done left} :
      Counted r image ((walk r rounds).filterMap (Access.imageByte image))
        (done * (r.pages ⌈/⌉ b)) (done * r.pages) s →
      s.kernel.waiter = none → s.kernel.queue = [] → done + left = rounds →
      s.todo = walk r left → n = done * roundSteps r b → WalkAt r image b rounds n s
  | ready {n s done left c p m} :
      Counted r image ((walk r rounds).filterMap (Access.imageByte image))
        (done * (r.pages ⌈/⌉ b) + c) (done * r.pages + min r.pages (c * b)) s →
      Filled r image b c s.kernel → s.kernel.waiter = none → s.kernel.queue = [] →
      done + (left + 1) = rounds → p + (m + 1) = r.pages → p ≤ c * b →
      s.todo = touches p (m + 1) ++ walk r left →
      n = done * roundSteps r b + (1 + p + 2 * c) → WalkAt r image b rounds n s
  | parked {n s done left c m} :
      Counted r image ((walk r rounds).filterMap (Access.imageByte image))
        (done * (r.pages ⌈/⌉ b) + c) (done * r.pages + min r.pages (c * b)) s →
      Filled r image b c s.kernel → s.kernel.waiter = some (r.ptr + c * b * pageSize) →
      s.kernel.queue = [Kernel.message (r.ptr + c * b * pageSize) false] →
      done + (left + 1) = rounds → c * b + (m + 1) = r.pages →
      s.todo = touches (c * b) (m + 1) ++ walk r left →
      n = done * roundSteps r b + (2 + c * b + 2 * c) → WalkAt r image b rounds n s

/-- The first byte of a page of the region. -/
theorem Region.start_of_page (r : Region) {p : ℕ} (hp : p < r.pages) :
    p * pageSize < r.len ∧ p * pageSize / pageSize = p := by
  have h₂ := r.len_aligned
  unfold Region.pages at hp
  simp only [pageSize] at *
  omega

theorem HandlerStats.installed_ofNat (faults pages run : ℕ) :
    ({ faults := UInt64.ofNat faults, pagesInstalled := UInt64.ofNat pages,
       writeFaults := 0 } : HandlerStats).installed false run =
      { faults := UInt64.ofNat (faults + 1), pagesInstalled := UInt64.ofNat (pages + run),
        writeFaults := 0 } := by
  rw [UInt64.ofNat_add, UInt64.ofNat_add]
  rfl

/-- Serving a fault with `run` pages of the region. -/
theorem Counted.serve {r : Region} {image wanted : List UInt8} {faults pages p run : ℕ} {s : Pager}
    (h : Counted r image wanted faults pages s) (himage : r.len ≤ image.length)
    (hin : p + run ≤ r.pages) :
    Counted r image wanted (faults + 1) (pages + run)
      { s with
        kernel := (({ s.kernel with queue := [] } : Kernel).noted (r.request p run)).install image
          (r.request p run) run
        stats := s.stats.installed false run
        looping := true } where
  region := h.region
  looping := rfl
  stats := by
    show s.stats.installed false run = _
    rw [h.stats, HandlerStats.installed_ofNat]
  copies := by
    intro c hc
    rcases List.mem_append.mp hc with hc | hc
    · exact h.copies c hc
    · rw [List.mem_singleton.mp hc]
      exact inside_request himage hin
  reads := h.reads

namespace WalkAt

variable {r : Region} {image : List UInt8} {b rounds n : ℕ} {s : Pager}

theorem init (r : Region) (image : List UInt8) (b rounds : ℕ) :
    WalkAt r image b rounds 0 (Pager.init r (walk r rounds)) := by
  refine .between ?_ rfl rfl (Nat.zero_add rounds) rfl (Nat.zero_mul _).symm
  constructor
  · rfl
  · rfl
  · rw [Nat.zero_mul, Nat.zero_mul]
    rfl
  · exact fun c hc => nomatch hc
  · rfl

/-- At page `p` of a round, with the pages before it touched.  The round is
over if this is the end of the region. -/
theorem at_page {done left c p m : ℕ} (hb : 1 ≤ b)
    (hcounted : Counted r image ((walk r rounds).filterMap (Access.imageByte image))
      (done * (r.pages ⌈/⌉ b) + c) (done * r.pages + min r.pages (c * b)) s)
    (hfilled : Filled r image b c s.kernel) (hw : s.kernel.waiter = none)
    (hq : s.kernel.queue = []) (hrounds : done + (left + 1) = rounds) (hpages : p + m = r.pages)
    (hp : p ≤ c * b) (htodo : s.todo = touches p m ++ walk r left)
    (hn : n = done * roundSteps r b + (1 + p + 2 * c)) : WalkAt r image b rounds n s := by
  cases m with
  | succ m => exact .ready hcounted hfilled hw hq hrounds hpages hp htodo hn
  | zero =>
      have hend : p = r.pages := hpages
      have hc := hfilled.ceilDiv_eq hb (hend ▸ hp)
      refine .between ?_ hw hq (show done + 1 + left = rounds by omega) htodo ?_
      · rw [Nat.succ_mul, Nat.succ_mul, hc]
        rw [hc, Nat.min_eq_left (hend ▸ hp)] at hcounted
        exact hcounted
      · rw [hn, Nat.add_mul, Nat.one_mul, roundSteps, hc, hend]

/-- The touching thread, unless it is parked or done, has a step. -/
theorem thread (h : WalkAt r image b rounds n s) (hb : 1 ≤ b) (hne : s.todo ≠ [])
    (hw : s.kernel.waiter = none) :
    ∃ s', s.thread = some s' ∧ WalkAt r image b rounds (n + 1) s' := by
  cases h with
  | parked _ _ hw' => exact absurd (hw.symm.trans hw') nofun
  -- a reset starts the next round, with nothing installed
  | @between done left hcounted _ hq hrounds htodo hn =>
      cases left with
      | zero => exact absurd htodo hne
      | succ left =>
          refine ⟨_, Pager.thread_reset hw htodo, ?_⟩
          refine at_page (c := 0) (p := 0) (m := r.pages) hb ?_
            (Filled.dontneed hcounted.region hb) hw hq hrounds (Nat.zero_add _) (Nat.zero_le _) rfl
            (by rw [hn])
          have hreads := hcounted.reads
          rw [htodo] at hreads
          rw [Nat.zero_mul, Nat.min_zero]
          exact { hcounted with reads := hreads }
  -- pages up to `c * b` are in; the page after them faults
  | @ready done left c p m hcounted hfilled _ hq hrounds hpages hp htodo hn =>
      obtain ⟨hstart, hpage⟩ := r.start_of_page (show p < r.pages by omega)
      have hpresent := present_offset hcounted.region (p * pageSize)
      rw [hpage, hfilled.holds p (by omega)] at hpresent
      by_cases hin : p < c * b
      · rw [decide_eq_true hin] at hpresent
        refine ⟨_, Pager.thread_read hcounted.region hw htodo hpresent, ?_⟩
        refine at_page (p := p + 1) (m := m) hb ?_ hfilled hw hq hrounds (by omega) hin rfl ?_
        · have hreads := hcounted.reads
          rw [htodo] at hreads
          refine { hcounted with reads := ?_ }
          rw [hfilled.byte _ hstart (by rwa [hpage]), List.append_assoc]
          exact hreads
        · rw [hn]
          omega
      · -- the first page of the next run
        rw [decide_eq_false hin] at hpresent
        obtain rfl : p = c * b := by omega
        refine ⟨_, Pager.thread_fault hcounted.region hw rfl htodo hpresent, ?_⟩
        refine .parked { hcounted with } { hfilled with } rfl ?_ hrounds hpages htodo ?_
        · show s.kernel.queue ++ [_] = _
          rw [hq, List.nil_append]
        · rw [hn]
          omega

/-- While the thread is parked, the handler has a message.  Its request is for
absent pages of the region. -/
theorem handler (h : WalkAt r image b rounds n s) (hb : 1 ≤ b) (himage : r.len ≤ image.length)
    (hw : s.kernel.waiter ≠ none) :
    ∃ s' p m, s.handler (batched r image b) = some s' ∧ WalkAt r image b rounds (n + 1) s' ∧
      s'.kernel.copies = s.kernel.copies ++ [r.request p m] ∧ p + m ≤ r.pages ∧
      ∀ v, p ≤ v → v < p + m → s.kernel.holds v = false := by
  cases h with
  | between _ hw' => exact absurd hw' hw
  | ready _ _ hw' => exact absurd hw' hw
  | @parked done left c m hcounted hfilled hwaiter hq hrounds hpages htodo hn =>
      obtain ⟨hstart, hpage⟩ := r.start_of_page (show c * b < r.pages by omega)
      have hk : ({ s.kernel with queue := [] } : Kernel).region = r := hcounted.region
      have hiter := Handler.iteration_fault hk image hb hstart false s.stats
      rw [hpage] at hiter
      dsimp only at hiter
      -- the run was absent as a whole, so the copy is not cut short
      have habsent : ∀ v, c * b ≤ v → v < c * b + min b (r.pages - c * b) →
          s.kernel.holds v = false := fun v => hfilled.absent
      have hnext := hfilled.install hcounted.region (by omega)
      have hmin : c * b + min b (r.pages - c * b) ≤ r.pages ∧
          0 < min b (r.pages - c * b) ∧
          min r.pages (c * b) + min b (r.pages - c * b) = min r.pages ((c + 1) * b) := by
        rw [Nat.succ_mul]
        omega
      set run := min b (r.pages - c * b)
      have hwhole : ({ s.kernel with queue := [] } : Kernel).absentFrom (c * b) run = run :=
        Kernel.absentFrom_eq_iff.mpr habsent
      rw [if_pos hwhole] at hiter
      refine ⟨_, c * b, run, Pager.handler_message hcounted.looping hq hiter, ?_, rfl, hmin.1,
        habsent⟩
      have hserved : c * b ≤ c * b * pageSize / pageSize ∧
          c * b * pageSize / pageSize < c * b + run := by
        rw [hpage]
        exact ⟨le_rfl, Nat.lt_add_of_pos_right hmin.2.1⟩
      refine .ready ?_ { hnext with } (waiter_install hk hwaiter hserved) rfl hrounds hpages ?_
        htodo ?_
      · rw [← hmin.2.2, ← Nat.add_assoc, ← Nat.add_assoc]
        exact hcounted.serve himage hmin.1
      · rw [Nat.succ_mul]
        exact Nat.le_add_right _ _
      · rw [hn]
        omega

/-- Messages are only there for a parked thread. -/
theorem queue_eq_nil (h : WalkAt r image b rounds n s) (hw : s.kernel.waiter = none) :
    s.kernel.queue = [] := by
  cases h with
  | between _ _ hq => exact hq
  | ready _ _ _ hq => exact hq
  | parked _ _ hw' => exact absurd (hw.symm.trans hw') nofun

/-- A walk takes the steps of its rounds. -/
theorem steps_le (h : WalkAt r image b rounds n s) (hb : 1 ≤ b) :
    n ≤ rounds * roundSteps r b := by
  cases h with
  | @between done left _ _ _ hrounds _ hn =>
      rw [hn]
      exact Nat.mul_le_mul_right _ (by omega)
  | @ready done left c p m _ hfilled _ _ hrounds hpages _ _ hn =>
      have hc := hfilled.le_ceilDiv hb
      have hle : (done + 1) * roundSteps r b ≤ rounds * roundSteps r b :=
        Nat.mul_le_mul_right _ (by omega)
      have hround : roundSteps r b = 1 + r.pages + 2 * (r.pages ⌈/⌉ b) := rfl
      rw [Nat.succ_mul] at hle
      omega
  | @parked done left c m _ hfilled _ _ hrounds hpages _ hn =>
      -- the fault that parked the thread is one of the round
      have hc : c + 1 ≤ r.pages ⌈/⌉ b := by
        rw [Nat.ceilDiv_eq_add_pred_div]
        apply (Nat.le_div_iff_mul_le hb).mpr
        rw [Nat.succ_mul]
        omega
      have hle : (done + 1) * roundSteps r b ≤ rounds * roundSteps r b :=
        Nat.mul_le_mul_right _ (by omega)
      have hround : roundSteps r b = 1 + r.pages + 2 * (r.pages ⌈/⌉ b) := rfl
      rw [Nat.succ_mul] at hle
      omega

/-- What is counted, wherever the walk is. -/
theorem exists_counted (h : WalkAt r image b rounds n s) :
    ∃ faults pages, Counted r image ((walk r rounds).filterMap (Access.imageByte image))
        faults pages s ∧
      (s.todo = [] → faults = rounds * (r.pages ⌈/⌉ b) ∧ pages = rounds * r.pages) := by
  cases h with
  | @between done left hcounted _ _ hrounds htodo =>
      refine ⟨_, _, hcounted, fun hnil => ?_⟩
      cases left with
      | zero =>
          obtain rfl : done = rounds := hrounds
          exact ⟨rfl, rfl⟩
      | succ left => cases htodo.symm.trans hnil
  | ready hcounted _ _ _ _ _ _ htodo =>
      exact ⟨_, _, hcounted, fun hnil => nomatch htodo.symm.trans hnil⟩
  | parked hcounted _ _ _ _ _ htodo =>
      exact ⟨_, _, hcounted, fun hnil => nomatch htodo.symm.trans hnil⟩

/-- While touches or resets are left, one of the two threads has a step. -/
theorem progress (h : WalkAt r image b rounds n s) (hb : 1 ≤ b) (himage : r.len ≤ image.length)
    (hne : s.todo ≠ []) :
    ∃ s', s.thread = some s' ∨ s.handler (batched r image b) = some s' := by
  by_cases hw : s.kernel.waiter = none
  · obtain ⟨s', hs', -⟩ := h.thread hb hne hw
    exact ⟨s', .inl hs'⟩
  · obtain ⟨s', -, -, hs', -⟩ := h.handler hb himage hw
    exact ⟨s', .inr hs'⟩

end WalkAt

/-! ### Every run -/

section Runs

variable {r : Region} {image : List UInt8} {b rounds n : ℕ} {s : Pager}

/-- The run lemma. -/
theorem Run.walkAt (himage : r.len ≤ image.length) (hb : 1 ≤ b)
    (hrun : Run (batched r image b) n (Pager.init r (walk r rounds)) s) :
    WalkAt r image b rounds n s := by
  refine hrun.invariant ?_ ?_ (WalkAt.init r image b rounds)
  · intro n s s' h hstep
    obtain ⟨hw, hne⟩ := Pager.of_thread hstep
    obtain ⟨t, ht, h'⟩ := h.thread hb hne hw
    cases ht.symm.trans hstep
    exact h'
  · intro n s s' h hstep
    have hw : s.kernel.waiter ≠ none := by
      intro hw
      rw [Pager.handler_idle _ (h.queue_eq_nil hw)] at hstep
      cases hstep
    obtain ⟨t, _, _, ht, h', -⟩ := h.handler hb himage hw
    cases ht.symm.trans hstep
    exact h'

/-- For every region, batch size of at least one page, image that covers the
region and number of rounds, in every interleaving of the walk with the
handler.  Every touch completes: a step is always possible while touches are
left, and the steps are bounded.  The handler stays in its loop.  Each request
stays inside the region and the image, and is for pages that are all absent.
The touches return the first bytes of their pages, and the rounds fault
`⌈pages / b⌉` times each and install each page once. -/
theorem ascending_walk_faults (r : Region) {image : List UInt8} (himage : r.len ≤ image.length)
    {b : ℕ} (hb : 1 ≤ b) (rounds : ℕ) {n : ℕ} {s : Pager}
    (hrun : Run (batched r image b) n (Pager.init r (walk r rounds)) s) :
    n ≤ rounds * roundSteps r b ∧
    (s.todo ≠ [] → ∃ s', s.thread = some s' ∨ s.handler (batched r image b) = some s') ∧
    s.looping = true ∧
    (∀ c ∈ s.kernel.copies, c.Inside r image) ∧
    (∀ s', s.handler (batched r image b) = some s' → ∃ p m,
      s'.kernel.copies = s.kernel.copies ++ [r.request p m] ∧ p + m ≤ r.pages ∧
      ∀ v, p ≤ v → v < p + m → s.kernel.holds v = false) ∧
    s.reads <+: (List.replicate rounds (firstBytes r image)).flatten ∧
    (s.todo = [] →
      s.reads = (List.replicate rounds (firstBytes r image)).flatten ∧
      s.stats.faults = UInt64.ofNat (rounds * (r.pages ⌈/⌉ b)) ∧
      s.stats.pagesInstalled = UInt64.ofNat (rounds * r.pages)) := by
  have h := hrun.walkAt himage hb
  obtain ⟨faults, pages, hcounted, hdone⟩ := h.exists_counted
  have hreads := hcounted.reads
  rw [filterMap_walk] at hreads
  refine ⟨h.steps_le hb, h.progress hb himage, hcounted.looping, hcounted.copies, ?_,
    ⟨_, hreads⟩, fun hnil => ?_⟩
  · -- the handler only moves on a message, and then some thread waits
    intro s' hs'
    have hw : s.kernel.waiter ≠ none := by
      intro hw
      rw [Pager.handler_idle _ (h.queue_eq_nil hw)] at hs'
      cases hs'
    obtain ⟨t, p, m, ht, -, hcopies⟩ := h.handler hb himage hw
    cases ht.symm.trans hs'
    exact ⟨p, m, hcopies⟩
  · obtain ⟨rfl, rfl⟩ := hdone hnil
    rw [hnil, List.filterMap_nil, List.append_nil] at hreads
    exact ⟨hreads, congrArg HandlerStats.faults hcounted.stats,
      congrArg HandlerStats.pagesInstalled hcounted.stats⟩

/-- A region of three pages. -/
def threePages : Region := .ofPages 2 3 (by decide)

theorem ascending_walk_faults_threePages :
    ∃ n s, Run (batched threePages (List.replicate 12288 7) 2) n
        (Pager.init threePages (walk threePages 2)) s ∧ n ≤ 16 ∧
      s.stats.faults = 4 ∧ s.stats.pagesInstalled = 6 := by
  have himage : threePages.len ≤ (List.replicate 12288 (7 : UInt8)).length :=
    List.length_replicate.ge
  obtain ⟨n, s, hrun, htodo⟩ := Run.exists_done (2 * roundSteps threePages 2)
    (fun hrun => (hrun.walkAt himage (by decide)).steps_le (by decide))
    (fun hrun => (hrun.walkAt himage (by decide)).progress (by decide) himage)
    (Run.refl (Pager.init threePages (walk threePages 2)))
  obtain ⟨hn, -, -, -, -, -, hdone⟩ :=
    ascending_walk_faults threePages himage (b := 2) (by decide) 2 hrun
  obtain ⟨-, hfaults, hpages⟩ := hdone htodo
  exact ⟨n, s, hrun, hn, hfaults, hpages⟩

end Runs

end SystemsStudy.Uffd
