/-
SystemsStudy/Uffd/Restore.lean

Demand paging restores the image.

A `Pager` is the whole system of a restore: the kernel, the handler thread with
its counters, and the thread that reads, writes and resets the region.  The two
threads interleave freely; the kernel parks the second while it waits for a
page, and the handler may find no event any number of times.

What the accesses mean is an `Eager` memory, which holds the image from the
start and again after a reset.  The pager fills pages only when they are
touched, and nobody can tell: a page that is not present has not been written
since the reset, so the image still says what belongs there (`Matches`).  Each
access takes at most three steps: the fault, its service and the retry.
-/
import SystemsStudy.Uffd.Handler

namespace SystemsStudy.Uffd

/-! ### The system -/

/-- What the restored thread does: access a byte of the region, or reset it. -/
inductive Access where
  | read (i : ℕ)
  | write (i : ℕ) (v : UInt8)
  | reset

/-- The byte an access touches, and whether it writes. -/
def Access.target : Access → Option (ℕ × Bool)
  | .read i => some (i, false)
  | .write i _ => some (i, true)
  | .reset => none

theorem Access.eq_reset {a : Access} (h : a.target = none) : a = .reset := by
  cases a with
  | read => cases h
  | write => cases h
  | reset => rfl

/-- The byte an access touches is one of the region. -/
def Access.InRegion (r : Region) (a : Access) : Prop :=
  ∀ i w, a.target = some (i, w) → i < r.len

/-- The accessing thread and the handler, with the kernel between them. -/
structure Pager where
  kernel : Kernel
  stats : HandlerStats
  /-- the handler thread is in its loop -/
  looping : Bool
  /-- the accesses to come; the thread is at the first -/
  todo : List Access
  /-- what the reads so far returned -/
  reads : List UInt8

namespace Pager

/-- Nothing is present, and the handler waits for a fault. -/
def init (r : Region) (as : List Access) : Pager where
  kernel := .registered r
  stats := {}
  looping := true
  todo := as
  reads := []

/-- A step of the accessing thread, unless the kernel has parked it: the access
happens, or it faults. -/
def thread (s : Pager) : Option Pager :=
  if s.kernel.waiter.isSome then none
  else match s.todo with
  | [] => none
  | .reset :: rest => some { s with kernel := s.kernel.dontneed, todo := rest }
  | .read i :: rest =>
      let a := s.kernel.region.ptr + i
      if s.kernel.present (a / pageSize) then
        some { s with todo := rest, reads := s.reads ++ [s.kernel.byte a] }
      else some { s with kernel := s.kernel.fault a false }
  | .write i v :: rest =>
      let a := s.kernel.region.ptr + i
      if s.kernel.present (a / pageSize) then
        some { s with
          kernel := { s.kernel with byte := Function.update s.kernel.byte a v }, todo := rest }
      else some { s with kernel := s.kernel.fault a true }

/-- An iteration of the handler that read a message. -/
def handler (h : Handler) (s : Pager) : Option Pager :=
  if s.looping then
    match s.kernel.queue with
    | [] => none
    | msg :: queue =>
        match h.iteration (.ok (some msg)) s.stats { s.kernel with queue } with
        | some (flow, stats, kernel) =>
            some { s with kernel, stats, looping := flow == .looping }
        | none => some { s with looping := false }
  else none

section Steps

variable {r : Region} {s : Pager} {rest : List Access} {i : ℕ}

theorem thread_reset (hw : s.kernel.waiter = none) (htodo : s.todo = .reset :: rest) :
    s.thread = some { s with kernel := s.kernel.dontneed, todo := rest } := by
  unfold thread
  rw [hw, htodo]
  rfl

theorem thread_read (hk : s.kernel.region = r) (hw : s.kernel.waiter = none)
    (htodo : s.todo = .read i :: rest) (hp : s.kernel.present ((r.ptr + i) / pageSize) = true) :
    s.thread = some { s with todo := rest, reads := s.reads ++ [s.kernel.byte (r.ptr + i)] } := by
  unfold thread
  rw [hw, htodo, hk]
  simp [hp]

/-- An access of an absent page faults. -/
theorem thread_fault (hk : s.kernel.region = r) (hw : s.kernel.waiter = none) {a : Access}
    {w : Bool} (ha : a.target = some (i, w)) (htodo : s.todo = a :: rest)
    (hp : s.kernel.present ((r.ptr + i) / pageSize) = false) :
    s.thread = some { s with kernel := s.kernel.fault (r.ptr + i) w } := by
  unfold thread
  rw [hw, htodo, hk]
  rcases a with j | ⟨j, v⟩ | -
  · cases ha
    simp [hp]
  · cases ha
    simp [hp]
  · cases ha

/-- A parked or finished thread has no step. -/
theorem of_thread {s' : Pager} (h : s.thread = some s') :
    s.kernel.waiter = none ∧ s.todo ≠ [] := by
  unfold thread at h
  constructor
  · rcases hw : s.kernel.waiter with - | a
    · rfl
    · rw [hw] at h
      cases h
  · intro hnil
    rw [hnil] at h
    split at h <;> cases h

/-- A handler without a message has no step. -/
theorem handler_idle (h : Handler) (hq : s.kernel.queue = []) : s.handler h = none := by
  unfold handler
  rw [hq]
  split <;> rfl

theorem handler_message {h : Handler} {msg : UffdMsg} {queue : List UffdMsg} {flow : Flow}
    {stats : HandlerStats} {kernel : Kernel} (hl : s.looping = true)
    (hq : s.kernel.queue = msg :: queue)
    (hiter : h.iteration (.ok (some msg)) s.stats { s.kernel with queue } =
      some (flow, stats, kernel)) :
    s.handler h = some { s with kernel, stats, looping := flow == .looping } := by
  unfold handler
  rw [if_pos hl, hq]
  dsimp only
  rw [hiter]

end Steps

end Pager

/-- Interleavings of the two threads, with the number of their steps.  A handler
iteration that read no event is not counted. -/
inductive Run (h : Handler) : ℕ → Pager → Pager → Prop
  | refl (s) : Run h 0 s s
  | thread {n s s' s''} : Run h n s s' → s'.thread = some s'' → Run h (n + 1) s s''
  | handler {n s s' s''} : Run h n s s' → s'.handler h = some s'' → Run h (n + 1) s s''
  | idle {n s s' flow stats kernel} : Run h n s s' →
      h.iteration (.ok none) s'.stats s'.kernel = some (flow, stats, kernel) →
      Run h n s { s' with kernel, stats, looping := s'.looping && flow == .looping }

/-- What both threads keep holds in every run. -/
theorem Run.invariant {h : Handler} {P : ℕ → Pager → Prop}
    (hthread : ∀ {n s s'}, P n s → s.thread = some s' → P (n + 1) s')
    (hhandler : ∀ {n s s'}, P n s → s.handler h = some s' → P (n + 1) s') {n : ℕ}
    {s s' : Pager} (hrun : Run h n s s') (hinit : P 0 s) : P n s' := by
  induction hrun with
  | refl => exact hinit
  | thread _ hstep ih => exact hthread (ih hinit) hstep
  | handler _ hstep ih => exact hhandler (ih hinit) hstep
  | @idle n s s' flow stats kernel _ hiter ih =>
      -- an iteration without an event changes nothing
      cases hiter
      have hlooping : (s'.looping && Flow.looping == Flow.looping) = s'.looping := by
        rw [show (Flow.looping == Flow.looping) = true from rfl, Bool.and_true]
      rw [hlooping]
      exact ih hinit

/-- Runs that are bounded, and never stuck while accesses are left, can be
continued until none is. -/
theorem Run.exists_done {h : Handler} {s₀ : Pager} (bound : ℕ)
    (hbound : ∀ {n s}, Run h n s₀ s → n ≤ bound)
    (hprogress : ∀ {n s}, Run h n s₀ s → s.todo ≠ [] →
      ∃ s', s.thread = some s' ∨ s.handler h = some s') {n : ℕ} {s : Pager}
    (hrun : Run h n s₀ s) : ∃ n' s', Run h n' s₀ s' ∧ s'.todo = [] := by
  induction hk : bound - n generalizing n s with
  | zero =>
      by_cases hne : s.todo = []
      · exact ⟨n, s, hrun, hne⟩
      obtain ⟨s', hs' | hs'⟩ := hprogress hrun hne
      · have hle := hbound (hrun.thread hs')
        omega
      · have hle := hbound (hrun.handler hs')
        omega
  | succ k ih =>
      by_cases hne : s.todo = []
      · exact ⟨n, s, hrun, hne⟩
      obtain ⟨s', hs' | hs'⟩ := hprogress hrun hne
      · exact ih (hrun.thread hs') (by omega)
      · exact ih (hrun.handler hs') (by omega)

/-! ### What the accesses mean -/

/-- A memory that holds the image without being asked, and counts the first
access to each page after each reset. -/
structure Eager where
  memory : ℕ → UInt8
  /-- by page: accessed since the last reset -/
  touched : ℕ → Bool
  reads : List UInt8
  faults : ℕ
  writeFaults : ℕ

namespace Eager

/-- The memory that is the image from the start. -/
def init (image : List UInt8) : Eager where
  memory i := image.getD i 0
  touched _ := false
  reads := []
  faults := 0
  writeFaults := 0

/-- The first touch of a page since the last reset is counted as a fault. -/
def touch (e : Eager) (i : ℕ) (write : Bool) : Eager :=
  if e.touched (i / pageSize) then e
  else
    { e with
      touched := Function.update e.touched (i / pageSize) true
      faults := e.faults + 1
      writeFaults := e.writeFaults + if write then 1 else 0 }

/-- An access of memory that is all there. -/
def access (image : List UInt8) (e : Eager) : Access → Eager
  | .read i => { e.touch i false with reads := e.reads ++ [e.memory i] }
  | .write i v => { e.touch i true with memory := Function.update e.memory i v }
  | .reset => { e with memory := fun i => image.getD i 0, touched := fun _ => false }

variable {image : List UInt8} {e : Eager} {i : ℕ} {w : Bool}

theorem touch_of_touched (h : e.touched (i / pageSize) = true) : e.touch i w = e := if_pos h

@[simp] theorem memory_touch : (e.touch i w).memory = e.memory := by
  unfold touch
  split <;> rfl

@[simp] theorem reads_touch : (e.touch i w).reads = e.reads := by
  unfold touch
  split <;> rfl

/-- The first touch of a page is counted. -/
theorem counts_touch (w : Bool) (h : e.touched (i / pageSize) = false) :
    (e.touch i w).faults = e.faults + 1 ∧
      (e.touch i w).writeFaults = e.writeFaults + if w then 1 else 0 := by
  rw [touch, if_neg (by rw [h]; decide)]
  exact ⟨rfl, rfl⟩

theorem touched_touch (j : ℕ) :
    (e.touch i w).touched j = (e.touched j || decide (j = i / pageSize)) := by
  unfold touch
  split
  next h =>
    by_cases hj : j = i / pageSize
    · rw [hj, h]
      rfl
    · simp [hj]
  next h =>
    by_cases hj : j = i / pageSize
    · simp [hj]
    · simp [hj]

theorem touched_touch_self : (e.touch i w).touched (i / pageSize) = true := by
  rw [touched_touch, decide_eq_true rfl, Bool.or_true]

/-- Having touched the page already makes no difference to the access. -/
theorem access_touch {a : Access} (ha : a.target = some (i, w)) :
    (e.touch i w).access image a = e.access image a := by
  have htwice : (e.touch i w).touch i w = e.touch i w := touch_of_touched touched_touch_self
  rcases a with j | ⟨j, v⟩ | -
  · cases ha
    rw [access, access, htwice, reads_touch, memory_touch]
  · cases ha
    rw [access, access, htwice, memory_touch]
  · cases ha

/-- What was read stays read. -/
theorem reads_prefix (as : List Access) : e.reads <+: (as.foldl (access image) e).reads := by
  induction as generalizing e with
  | nil => exact List.prefix_rfl
  | cons a as ih =>
      refine List.IsPrefix.trans ?_ ih
      rcases a with j | ⟨j, v⟩ | -
      · exact List.prefix_append _ _
      · show e.reads <+: (e.touch j true).reads
        rw [reads_touch]
      · exact List.prefix_rfl

end Eager

/-! ### The pager against the eager memory -/

/-- A request writes inside the region and reads inside the image. -/
structure UffdioCopy.Inside (c : UffdioCopy) (r : Region) (image : List UInt8) : Prop where
  le_dst : r.ptr ≤ c.dst
  dst_le : c.dst + c.len ≤ r.ptr + r.len
  src_le : c.src + c.len ≤ image.length

/-- A request for pages of the region stays inside the region and the image. -/
theorem inside_request {r : Region} {image : List UInt8} (himage : r.len ≤ image.length) {p n : ℕ}
    (hin : p + n ≤ r.pages) : (r.request p n).Inside r image := by
  have h₁ := r.len_aligned
  have hdst : (r.request p n).dst = r.ptr + p * pageSize := rfl
  have hsrc : (r.request p n).src = p * pageSize := rfl
  have hlen : (r.request p n).len = n * pageSize := rfl
  unfold Region.pages at hin
  constructor
  · omega
  · simp only [pageSize] at *
    omega
  · simp only [pageSize] at *
    omega

/-- The pages that are present are the touched ones, and hold what the eager
memory holds; the others still hold the image there. -/
structure Matches (r : Region) (image : List UInt8) (s : Pager) (e : Eager) : Prop where
  region : s.kernel.region = r
  looping : s.looping = true
  reads : s.reads = e.reads
  present : ∀ i < r.len, s.kernel.present ((r.ptr + i) / pageSize) = e.touched (i / pageSize)
  byte : ∀ i < r.len, e.touched (i / pageSize) = true →
    s.kernel.byte (r.ptr + i) = e.memory i
  untouched : ∀ i, e.touched (i / pageSize) = false → e.memory i = image.getD i 0
  stats : s.stats =
    { faults := UInt64.ofNat e.faults
      pagesInstalled := UInt64.ofNat e.faults
      writeFaults := UInt64.ofNat e.writeFaults }
  copies : ∀ c ∈ s.kernel.copies, c.Inside r image

namespace Matches

variable {r : Region} {image : List UInt8} {s : Pager} {e : Eager} {i : ℕ} {w : Bool}
  {rest : List Access}

theorem init (r : Region) (image : List UInt8) (as : List Access) :
    Matches r image (Pager.init r as) (Eager.init image) where
  region := rfl
  looping := rfl
  reads := rfl
  present _ _ := rfl
  byte _ _ h := nomatch h
  untouched _ _ := rfl
  stats := rfl
  copies _ hc := nomatch hc

/-- An access of an absent page faults. -/
theorem thread_fault (h : Matches r image s e) (hw : s.kernel.waiter = none) {a : Access}
    (ha : a.target = some (i, w)) (hi : i < r.len) (htodo : s.todo = a :: rest)
    (habs : e.touched (i / pageSize) = false) :
    s.thread = some { s with kernel := s.kernel.fault (r.ptr + i) w } :=
  Pager.thread_fault h.region hw ha htodo ((h.present i hi).trans habs)

/-- An access of a present page happens as in the eager memory. -/
theorem thread_hit (h : Matches r image s e) (hw : s.kernel.waiter = none) {a : Access}
    (ha : a.target = some (i, w)) (hi : i < r.len) (htodo : s.todo = a :: rest)
    (hin : e.touched (i / pageSize) = true) :
    ∃ s', s.thread = some s' ∧ Matches r image s' (e.access image a) ∧ s'.todo = rest ∧
      s'.kernel.waiter = none ∧ s'.kernel.queue = s.kernel.queue := by
  have hp := (h.present i hi).trans hin
  rcases a with j | ⟨j, v⟩ | -
  · -- a load reads what the eager restore holds there
    cases ha
    refine ⟨_, Pager.thread_read h.region hw htodo hp, ?_, rfl, hw, rfl⟩
    rw [Eager.access, Eager.touch_of_touched hin]
    refine { h with reads := ?_ }
    show s.reads ++ [s.kernel.byte (r.ptr + i)] = e.reads ++ [e.memory i]
    rw [h.reads, h.byte i hi hin]
  · cases ha
    refine ⟨{ s with
      kernel := { s.kernel with byte := Function.update s.kernel.byte (r.ptr + i) v }
      todo := rest }, ?_, ?_, rfl, hw, rfl⟩
    · unfold Pager.thread
      rw [hw, htodo, h.region]
      simp [hp]
    · rw [Eager.access, Eager.touch_of_touched hin]
      refine { h with byte := fun i' hi' ht => ?_, untouched := fun i' ht => ?_ }
      · show Function.update s.kernel.byte (r.ptr + i) v (r.ptr + i') =
          Function.update e.memory i v i'
        by_cases hij : i' = i
        · rw [hij, Function.update_self, Function.update_self]
        · rw [Function.update_of_ne hij, Function.update_of_ne (by omega), h.byte i' hi' ht]
      · show Function.update e.memory i v i' = _
        have hij : i' ≠ i := by
          rintro rfl
          cases hin.symm.trans ht
        rw [Function.update_of_ne hij, h.untouched i' ht]
  · cases ha

/-- A reset makes every page absent. -/
theorem thread_reset (h : Matches r image s e) (hw : s.kernel.waiter = none)
    (htodo : s.todo = .reset :: rest) :
    s.thread = some { s with kernel := s.kernel.dontneed, todo := rest } ∧
      Matches r image { s with kernel := s.kernel.dontneed, todo := rest }
        (e.access image .reset) := by
  refine ⟨Pager.thread_reset hw htodo, { h with
    present := fun i hi => ?_, byte := fun _ _ ht => (nomatch ht), untouched := fun _ _ => rfl }⟩
  have hk : s.kernel.dontneed.region = r := h.region
  exact (present_offset hk i).trans (Kernel.holds_dontneed h.region (r.page_bounds hi).2)

/-- The handler installs the page of the fault, and wakes the thread. -/
theorem handler_serve (h : Matches r image s e) (himage : r.len ≤ image.length) (hi : i < r.len)
    (habs : e.touched (i / pageSize) = false)
    (hqueue : s.kernel.queue = [Kernel.message (r.ptr + i) w])
    (hwaiter : s.kernel.waiter = some (r.ptr + i)) :
    ∃ s', s.handler (onePage r image) = some s' ∧ Matches r image s' (e.touch i w) ∧
      s'.todo = s.todo ∧ s'.kernel.waiter = none ∧ s'.kernel.queue = [] := by
  have hreg : ({ s.kernel with queue := [] } : Kernel).region = r := h.region
  have hiter := Handler.iteration_onePage r image hi w s.stats hreg ((h.present i hi).trans habs)
  rw [pageRequest_eq r hi] at hiter
  set k := ({ s.kernel with
    queue := [], copies := s.kernel.copies ++ [r.request (i / pageSize) 1] } : Kernel)
  have hk : k.region = r := h.region
  have htouched := Eager.touched_touch (e := e) (i := i) (w := w)
  have hcounts := Eager.counts_touch w habs
  have hpage : ∀ j, i / pageSize ≤ j / pageSize ∧ j / pageSize < i / pageSize + 1 ↔
      j / pageSize = i / pageSize := fun j => by omega
  -- the page is installed, the waiter woken, and the queue left empty
  refine ⟨{ s with
    kernel := k.install image (r.request (i / pageSize) 1) 1, stats := s.stats.served w
    looping := true }, ?_, ?_, rfl, waiter_install hk hwaiter ((hpage i).mpr rfl), rfl⟩
  · exact Pager.handler_message h.looping hqueue hiter
  · exact
      { region := h.region
        looping := rfl
        reads := h.reads.trans Eager.reads_touch.symm
        present := fun j hj => by
          have hp := h.present j hj
          rw [present_offset h.region] at hp
          have hk' : (k.install image (r.request (i / pageSize) 1) 1).region = r := h.region
          rw [present_offset hk', holds_install hk, htouched, if_congr (hpage j) rfl rfl]
          show (if _ then true else s.kernel.holds _) = _
          rw [hp]
          by_cases hij : j / pageSize = i / pageSize
          · simp [hij]
          · simp [hij]
        -- the page was untouched, so the eager memory still holds the image there
        byte := fun j hj ht => by
          rw [byte_install, Eager.memory_touch, if_congr (hpage j) rfl rfl]
          by_cases hij : j / pageSize = i / pageSize
          · rw [if_pos hij, h.untouched j (by rw [hij]; exact habs)]
          · rw [if_neg hij]
            rw [htouched, decide_eq_false hij, Bool.or_false] at ht
            exact h.byte j hj ht
        untouched := fun j ht => by
          rw [htouched, Bool.or_eq_false_iff] at ht
          rw [Eager.memory_touch]
          exact h.untouched j ht.1
        stats := by
          rw [hcounts.1, hcounts.2, UInt64.ofNat_add, UInt64.ofNat_add, h.stats]
          rcases w with - | - <;> rfl
        copies := fun c hc => by
          rcases List.mem_append.mp hc with hc | hc
          · exact h.copies c hc
          · rw [List.mem_singleton.mp hc]
            have hp := (r.page_bounds hi).2
            exact inside_request himage (by omega) }

end Matches

/-! ### Every run -/

/-- Where a pager is after `n` steps, with `whole` the eager memory after all
accesses: between accesses, parked by a fault, or about to retry. -/
inductive Stands (r : Region) (image : List UInt8) (whole : Eager) (bound : ℕ) :
    ℕ → Pager → Prop
  | ready {n s e} : Matches r image s e → s.kernel.waiter = none → s.kernel.queue = [] →
      s.todo.foldl (Eager.access image) e = whole → n + 3 * s.todo.length ≤ bound →
      Stands r image whole bound n s
  | parked {n s e a rest i w} : Matches r image s e → s.todo = a :: rest →
      a.target = some (i, w) → e.touched (i / pageSize) = false →
      s.kernel.waiter = some (r.ptr + i) → s.kernel.queue = [Kernel.message (r.ptr + i) w] →
      s.todo.foldl (Eager.access image) e = whole → n + 3 * rest.length + 2 ≤ bound →
      Stands r image whole bound n s
  | woken {n s e a rest i w} : Matches r image s e → s.todo = a :: rest →
      a.target = some (i, w) → e.touched (i / pageSize) = true →
      s.kernel.waiter = none → s.kernel.queue = [] →
      s.todo.foldl (Eager.access image) e = whole → n + 3 * rest.length + 1 ≤ bound →
      Stands r image whole bound n s

namespace Stands

variable {r : Region} {image : List UInt8} {whole : Eager} {bound n : ℕ} {s s' : Pager}

theorem exists_matches (h : Stands r image whole bound n s) :
    n ≤ bound ∧ ∃ e, Matches r image s e ∧ s.todo.foldl (Eager.access image) e = whole := by
  cases h with
  | ready hm _ _ hf hb => exact ⟨by omega, _, hm, hf⟩
  | parked hm _ _ _ _ _ hf hb => exact ⟨by omega, _, hm, hf⟩
  | woken hm _ _ _ _ _ hf hb => exact ⟨by omega, _, hm, hf⟩

/-- After an access that happened. -/
theorem of_hit {e : Eager} {a : Access} {rest : List Access}
    (hm : Matches r image s' (e.access image a)) (htodo : s.todo = a :: rest)
    (htodo' : s'.todo = rest) (hw : s'.kernel.waiter = none) (hq : s'.kernel.queue = [])
    (hf : s.todo.foldl (Eager.access image) e = whole)
    (hb : n + 3 * rest.length + 1 ≤ bound) : Stands r image whole bound (n + 1) s' := by
  rw [htodo, List.foldl_cons] at hf
  exact .ready hm hw hq (by rw [htodo', hf]) (by rw [htodo']; omega)

/-- The accessing thread, unless it is parked or done, has a step. -/
theorem thread (h : Stands r image whole bound n s) (has : ∀ a ∈ s.todo, a.InRegion r)
    (hne : s.todo ≠ []) (hw : s.kernel.waiter = none) :
    ∃ s', s.thread = some s' ∧ Stands r image whole bound (n + 1) s' ∧ s'.todo ⊆ s.todo := by
  cases h with
  | @ready e hm _ hq hf hb =>
      obtain ⟨a, rest, htodo⟩ := List.exists_cons_of_ne_nil hne
      rw [htodo, List.length_cons] at hb
      rcases ha : a.target with - | ⟨i, w⟩
      · -- a reset
        obtain rfl := Access.eq_reset ha
        obtain ⟨hstep, hm'⟩ := hm.thread_reset hw htodo
        refine ⟨_, hstep, of_hit hm' htodo rfl hw hq hf (by omega), ?_⟩
        rw [htodo]
        exact List.subset_cons_self _ _
      · have hi : i < r.len := has a (by rw [htodo]; exact List.mem_cons_self) i w ha
        rcases ht : e.touched (i / pageSize) with - | -
        · refine ⟨_, hm.thread_fault hw ha hi htodo ht, ?_, List.Subset.refl _⟩
          refine .parked { hm with } htodo ha ht rfl ?_ hf (by omega)
          show s.kernel.queue ++ [_] = _
          rw [hq, List.nil_append]
        · obtain ⟨s', hstep, hm', htodo', hw', hq'⟩ := hm.thread_hit hw ha hi htodo ht
          refine ⟨s', hstep, of_hit hm' htodo htodo' hw' (hq'.trans hq) hf (by omega), ?_⟩
          rw [htodo, htodo']
          exact List.subset_cons_self _ _
  | parked _ _ _ _ hw' =>
      rw [hw'] at hw
      cases hw
  | @woken e a rest i w hm htodo ha ht _ hq hf hb =>
      have hi : i < r.len := has a (by rw [htodo]; exact List.mem_cons_self) i w ha
      obtain ⟨s', hstep, hm', htodo', hw', hq'⟩ := hm.thread_hit hw ha hi htodo ht
      refine ⟨s', hstep, of_hit hm' htodo htodo' hw' (hq'.trans hq) hf (by omega), ?_⟩
      rw [htodo, htodo']
      exact List.subset_cons_self _ _

/-- While the thread is parked, the handler has a message, and serves it. -/
theorem handler (h : Stands r image whole bound n s) (himage : r.len ≤ image.length)
    (has : ∀ a ∈ s.todo, a.InRegion r) (hw : s.kernel.waiter ≠ none) :
    ∃ s', s.handler (onePage r image) = some s' ∧ Stands r image whole bound (n + 1) s' ∧
      s'.todo = s.todo := by
  cases h with
  | ready _ hw' => exact absurd hw' hw
  | woken _ _ _ _ hw' => exact absurd hw' hw
  | @parked e a rest i w hm htodo ha ht hwaiter hqueue hf hb =>
      have hi : i < r.len := has a (by rw [htodo]; exact List.mem_cons_self) i w ha
      obtain ⟨s', hstep, hm', htodo', hw', hq'⟩ := hm.handler_serve himage hi ht hqueue hwaiter
      refine ⟨s', hstep, ?_, htodo'⟩
      refine .woken hm' (htodo'.trans htodo) ha Eager.touched_touch_self hw' hq' ?_ (by omega)
      -- the retry still finds what the access means
      rw [htodo'.trans htodo, List.foldl_cons, Eager.access_touch ha]
      rw [htodo, List.foldl_cons] at hf
      exact hf

/-- Messages are only there for a parked thread. -/
theorem queue_eq_nil (h : Stands r image whole bound n s) (hw : s.kernel.waiter = none) :
    s.kernel.queue = [] := by
  cases h with
  | ready _ _ hq => exact hq
  | woken _ _ _ _ _ hq => exact hq
  | parked _ _ _ _ hw' =>
      rw [hw'] at hw
      cases hw

/-- While accesses are left, one of the two threads has a step. -/
theorem progress (h : Stands r image whole bound n s) (himage : r.len ≤ image.length)
    (has : ∀ a ∈ s.todo, a.InRegion r) (hne : s.todo ≠ []) :
    ∃ s', s.thread = some s' ∨ s.handler (onePage r image) = some s' := by
  by_cases hw : s.kernel.waiter = none
  · obtain ⟨s', hs', -⟩ := h.thread has hne hw
    exact ⟨s', .inl hs'⟩
  · obtain ⟨s', hs', -⟩ := h.handler himage has hw
    exact ⟨s', .inr hs'⟩

end Stands

section Runs

variable {r : Region} {image : List UInt8} {as : List Access} {n : ℕ} {s : Pager}

/-- The run lemma. -/
theorem Run.stands (himage : r.len ≤ image.length) (has : ∀ a ∈ as, a.InRegion r)
    (hrun : Run (onePage r image) n (Pager.init r as) s) :
    Stands r image (as.foldl (Eager.access image) (Eager.init image)) (3 * as.length) n s ∧
      s.todo ⊆ as := by
  refine hrun.invariant (P := fun n s => Stands r image (as.foldl (Eager.access image)
    (Eager.init image)) (3 * as.length) n s ∧ s.todo ⊆ as) ?_ ?_ ?_
  · intro n s s' ⟨h, hsub⟩ hstep
    obtain ⟨hw, hne⟩ := Pager.of_thread hstep
    obtain ⟨t, ht, h', hsub'⟩ := h.thread (fun a ha => has a (hsub ha)) hne hw
    cases ht.symm.trans hstep
    exact ⟨h', List.Subset.trans hsub' hsub⟩
  · intro n s s' ⟨h, hsub⟩ hstep
    have hw : s.kernel.waiter ≠ none := by
      intro hw
      rw [Pager.handler_idle _ (h.queue_eq_nil hw)] at hstep
      cases hstep
    obtain ⟨t, ht, h', htodo⟩ := h.handler himage (fun a ha => has a (hsub ha)) hw
    cases ht.symm.trans hstep
    exact ⟨h', htodo ▸ hsub⟩
  · exact ⟨.ready (Matches.init r image as) rfl rfl rfl (by rw [Nat.zero_add]; rfl),
      List.Subset.refl _⟩

/-- Every run can be continued until no access is left. -/
theorem Run.exists_complete (himage : r.len ≤ image.length) (has : ∀ a ∈ as, a.InRegion r)
    (hrun : Run (onePage r image) n (Pager.init r as) s) :
    ∃ n' s', Run (onePage r image) n' (Pager.init r as) s' ∧ s'.todo = [] := by
  apply Run.exists_done (3 * as.length) _ _ hrun
  · intro n s hrun
    exact (hrun.stands himage has).1.exists_matches.1
  · intro n s hrun hne
    obtain ⟨h, hsub⟩ := hrun.stands himage has
    exact h.progress himage (fun a ha => has a (hsub ha)) hne

/-- For every region, every image that covers it and every sequence of accesses
and resets, in every interleaving with a handler that installs one page per
fault.  Every access completes: a step is always possible while accesses are
left, and there are at most three per access.  The handler stays in its loop,
and no request leaves the region or the image.  The reads return what the eager
memory holds, and the counters count its first touches. -/
theorem demand_paging_restores (r : Region) {image : List UInt8} (himage : r.len ≤ image.length)
    {as : List Access} (has : ∀ a ∈ as, a.InRegion r) {n : ℕ} {s : Pager}
    (hrun : Run (onePage r image) n (Pager.init r as) s) :
    let e := as.foldl (Eager.access image) (Eager.init image)
    n ≤ 3 * as.length ∧
    (s.todo ≠ [] → ∃ s', s.thread = some s' ∨ s.handler (onePage r image) = some s') ∧
    s.looping = true ∧
    (∀ c ∈ s.kernel.copies, c.Inside r image) ∧
    s.reads <+: e.reads ∧
    (s.todo = [] → s.reads = e.reads ∧
      s.stats.faults = UInt64.ofNat e.faults ∧
      s.stats.pagesInstalled = UInt64.ofNat e.faults ∧
      s.stats.writeFaults = UInt64.ofNat e.writeFaults) := by
  obtain ⟨h, hsub⟩ := hrun.stands himage has
  obtain ⟨hle, e, hm, hf⟩ := h.exists_matches
  refine ⟨hle, fun hne => ?_, hm.looping, hm.copies, ?_, fun hnil => ?_⟩
  · exact h.progress himage (fun a ha => has a (hsub ha)) hne
  · rw [hm.reads, ← hf]
    exact Eager.reads_prefix _
  · rw [hnil, List.foldl_nil] at hf
    subst hf
    exact ⟨hm.reads, congrArg HandlerStats.faults hm.stats,
      congrArg HandlerStats.pagesInstalled hm.stats, congrArg HandlerStats.writeFaults hm.stats⟩

/-- A region of one page. -/
def onePageRegion : Region where
  ptr := 8192
  len := 4096
  ptr_aligned := rfl
  len_aligned := rfl
  end_le := by decide

theorem demand_paging_restores_onePage :
    ∃ n s, Run (onePage onePageRegion (List.replicate 4096 7)) n
        (Pager.init onePageRegion [.write 5 9, .read 5, .reset, .read 5]) s ∧ n ≤ 12 ∧
      s.reads = [9, 7] ∧ s.stats.faults = 2 ∧ s.stats.pagesInstalled = 2 ∧
      s.stats.writeFaults = 1 ∧
      ∀ c ∈ s.kernel.copies, c.Inside onePageRegion (List.replicate 4096 7) := by
  have himage : onePageRegion.len ≤ (List.replicate 4096 (7 : UInt8)).length :=
    List.length_replicate.ge
  have hin : ∀ a ∈ [Access.write 5 9, .read 5, .reset, .read 5], a.InRegion onePageRegion := by
    simp [Access.InRegion, Access.target, onePageRegion]
  obtain ⟨n, s, hrun, htodo⟩ :=
    (Run.refl (Pager.init onePageRegion [.write 5 9, .read 5, .reset, .read 5])).exists_complete
      himage hin
  obtain ⟨hn, -, -, hcopies, -, hdone⟩ := demand_paging_restores onePageRegion himage hin hrun
  obtain ⟨hreads, hfaults, hinstalled, hwrites⟩ := hdone htodo
  exact ⟨n, s, hrun, hn, hreads, hfaults, hinstalled, hwrites, hcopies⟩

end Runs

end SystemsStudy.Uffd
