/-
SystemsStudy/Uffd/Prefetch.lean

Batches of pages, for accesses in any order.

A handler with several pages per fault installs pages nobody asked for.  The
source notes that this is safe for an ascending walk, and that an access in
another order would overlap what was installed before.  Here the accesses are
arbitrary reads, writes and resets.

What is read is right in any case: every read returns what the eager memory
holds, with any batch size, also after the handler has ended.  Whether the
handler lives is another matter.  `Ahead` follows the pages that are there and
the handler's end, without a kernel; `Spared` says of the accesses alone that
no fault's run meets a page that is there.  The handler is alive at the end
exactly if the accesses are spared, and the accesses complete exactly if none
of them needs a page after the handler has ended (`batched_restores`).
-/
import Mathlib.Data.List.GetD
import SystemsStudy.Uffd.Restore
import SystemsStudy.Uffd.Survival

namespace SystemsStudy.Uffd

/-! ### What is installed ahead -/

/-- The pages of a fault's run, clamped to the region. -/
def Region.run (r : Region) (b p : ℕ) : ℕ := min b (r.pages - p)

theorem Region.run_inside (r : Region) (b : ℕ) {p : ℕ} (hp : p < r.pages) :
    p + r.run b p ≤ r.pages := by
  have hle : r.run b p ≤ r.pages - p := Nat.min_le_right _ _
  omega

/-- The pages of a run of absent ones. -/
theorem Kernel.absent_of_mem {present : ℕ → Bool} {p n v : ℕ} (h₁ : p ≤ v)
    (h₂ : v < p + absentRun present p n) : present v = false := by
  obtain ⟨j, rfl⟩ := Nat.exists_eq_add_of_le h₁
  exact absent_of_lt (Nat.lt_of_add_lt_add_left h₂)

/-- The pages that are there, and whether the handler is in its loop. -/
structure Ahead where
  present : ℕ → Bool
  looping : Bool

namespace Ahead

/-- Nothing is there, and the handler is in its loop. -/
def fresh : Ahead where
  present _ := false
  looping := true

/-- Install `m` pages from `p` on. -/
def fill (h : Ahead) (p m : ℕ) : Ahead :=
  { h with present := fun v => h.present v || decide (p ≤ v ∧ v < p + m) }

/-- A touch of page `p`, if it ever returns.  The handler installs the absent
pages of the run up to the first that is there, and ends if there is one. -/
def touch (r : Region) (b : ℕ) (h : Ahead) (p : ℕ) : Option Ahead :=
  if h.present p then some h
  else if h.looping then
    let m := Kernel.absentRun h.present p (r.run b p)
    some { h.fill p m with looping := decide (m = r.run b p) }
  else none

/-- An access: its page is touched, or all pages are dropped. -/
def access (r : Region) (b : ℕ) (h : Ahead) (a : Access) : Option Ahead :=
  match a.target with
  | some (i, _) => h.touch r b (i / pageSize)
  | none => some { h with present := fun _ => false }

end Ahead

/-- The accesses complete, with this many pages per fault. -/
def Completes (r : Region) (b : ℕ) (as : List Access) : Prop :=
  (as.foldlM (Ahead.access r b) .fresh).isSome = true

/-- With the pages in `present` there, no fault's run meets a page that is. -/
def Spared (r : Region) (b : ℕ) (present : ℕ → Bool) : List Access → Prop
  | [] => True
  | a :: as =>
      match a.target with
      | none => Spared r b (fun _ => false) as
      | some (i, _) =>
          let p := i / pageSize
          if present p then Spared r b present as
          else
            (∀ v, p ≤ v → v < p + r.run b p → present v = false) ∧
              Spared r b (fun v => present v || decide (p ≤ v ∧ v < p + r.run b p)) as

namespace Ahead

variable {r : Region} {b p : ℕ} {h h' : Ahead} {a : Access} {as : List Access}

/-- A handler that has ended stays so. -/
theorem looping_of_access (ha : h.access r b a = some h') (h₁ : h'.looping = true) :
    h.looping = true := by
  unfold access touch at ha
  split at ha
  · split at ha
    · cases ha
      exact h₁
    · split at ha
      · assumption
      · cases ha
  · cases ha
    exact h₁

theorem looping_of_foldlM (ha : as.foldlM (access r b) h = some h') (h₁ : h'.looping = true) :
    h.looping = true := by
  induction as generalizing h with
  | nil =>
      cases ha
      exact h₁
  | cons a as ih =>
      rw [List.foldlM_cons] at ha
      obtain ⟨h₂, ha₂, hrest⟩ := Option.bind_eq_some_iff.mp ha
      exact looping_of_access ha₂ (ih hrest)

/-- The page of a fault is installed, whatever becomes of the handler. -/
theorem absentRun_pos (hb : 1 ≤ b) (hp : p < r.pages) (habs : h.present p = false) :
    0 < Kernel.absentRun h.present p (r.run b p) := by
  obtain ⟨n, hn⟩ := Nat.exists_eq_succ_of_ne_zero (n := r.run b p) (by unfold Region.run; omega)
  rw [hn, Kernel.absentRun, if_neg (by rw [habs]; decide)]
  exact Nat.succ_pos _

theorem fill_present (h : Ahead) {m v : ℕ} :
    (h.fill p m).present v = (h.present v || decide (p ≤ v ∧ v < p + m)) := rfl

/-- The handler lives to the end of the accesses exactly if they are spared. -/
theorem looping_iff_spared (h : Ahead) (hl : h.looping = true) :
    (∃ h', as.foldlM (access r b) h = some h' ∧ h'.looping = true) ↔ Spared r b h.present as := by
  induction as generalizing h with
  | nil =>
      constructor
      · intro _
        trivial
      · intro _
        exact ⟨h, rfl, hl⟩
  | cons a as ih =>
      rw [List.foldlM_cons]
      show (∃ h', (h.access r b a).bind _ = _ ∧ _) ↔ _
      unfold Spared access
      rcases ha : a.target with - | ⟨i, w⟩
      · exact ih { h with present := fun _ => false } hl
      dsimp only [touch]
      rcases hpresent : h.present (i / pageSize) with - | -
      · rw [if_neg (by decide), if_pos hl, if_neg (by decide)]
        by_cases hwhole : Kernel.absentRun h.present (i / pageSize) (r.run b (i / pageSize)) =
            r.run b (i / pageSize)
        · rw [hwhole, decide_eq_true rfl]
          have habsent : ∀ v, i / pageSize ≤ v → v < i / pageSize + r.run b (i / pageSize) →
              h.present v = false := by
            intro v h₁ h₂
            rw [← hwhole] at h₂
            exact Kernel.absent_of_mem h₁ h₂
          have hrest := ih { h.fill (i / pageSize) (r.run b (i / pageSize)) with looping := true }
            rfl
          exact hrest.trans (and_iff_right habsent).symm
        · -- the handler ends here
          rw [decide_eq_false hwhole]
          constructor
          · rintro ⟨h', hrest, h₁⟩
            cases looping_of_foldlM hrest h₁
          · rintro ⟨habsent, -⟩
            have hlt := Nat.lt_of_le_of_ne (Kernel.absentRun_le _ _ _) hwhole
            have hmet := Kernel.present_of_absentRun_lt hlt
            rw [habsent _ (Nat.le_add_right _ _) (by omega)] at hmet
            cases hmet
      · rw [if_pos rfl, if_pos rfl]
        exact ih h hl

end Ahead

theorem Pager.thread_write {r : Region} {s : Pager} {rest : List Access} {i : ℕ} {v : UInt8}
    (hk : s.kernel.region = r) (hw : s.kernel.waiter = none) (htodo : s.todo = .write i v :: rest)
    (hp : s.kernel.present ((r.ptr + i) / pageSize) = true) :
    s.thread = some { s with
      kernel := { s.kernel with byte := Function.update s.kernel.byte (r.ptr + i) v }
      todo := rest } := by
  unfold Pager.thread
  rw [hw, htodo, hk]
  simp [hp]

/-- A handler step is one of a handler in its loop, with a message. -/
theorem Pager.of_handler {h : Handler} {s s' : Pager} (hstep : s.handler h = some s') :
    s.looping = true ∧ s.kernel.queue ≠ [] := by
  constructor
  · by_contra hl
    rw [Pager.handler, if_neg hl] at hstep
    cases hstep
  · intro hq
    cases (Pager.handler_idle h hq).symm.trans hstep

/-- The runs of absent pages agree where the pages do. -/
theorem Kernel.absentRun_congr {f g : ℕ → Bool} {v w n : ℕ}
    (h : ∀ j < n, f (v + j) = g (w + j)) : absentRun f v n = absentRun g w n := by
  induction n generalizing v w with
  | zero => rfl
  | succ n ih =>
      have hhead : f v = g w := h 0 (Nat.succ_pos n)
      have htail : absentRun f (v + 1) n = absentRun g (w + 1) n := by
        apply ih
        intro j hj
        have hnext := h (j + 1) (Nat.succ_lt_succ hj)
        rwa [Nat.add_comm j 1, ← Nat.add_assoc, ← Nat.add_assoc] at hnext
      rw [absentRun, absentRun, hhead, htail]

/-! ### The pager, the eager memory and what is installed ahead -/

/-- The present pages hold what the eager memory holds; the others still hold
the image there.  Which pages are present is not for the eager memory to say. -/
structure Follows (r : Region) (image : List UInt8) (s : Pager) (e : Eager) (h : Ahead) :
    Prop where
  region : s.kernel.region = r
  looping : s.looping = h.looping
  reads : s.reads = e.reads
  present : ∀ v < r.pages, s.kernel.holds v = h.present v
  byte : ∀ j < r.len, h.present (j / pageSize) = true → s.kernel.byte (r.ptr + j) = e.memory j
  absent : ∀ j < r.len, h.present (j / pageSize) = false → e.memory j = image.getD j 0
  copies : ∀ c ∈ s.kernel.copies, c.Inside r image

namespace Follows

variable {r : Region} {image : List UInt8} {s : Pager} {e : Eager} {h : Ahead} {b i : ℕ} {w : Bool}
  {rest : List Access}

theorem init (r : Region) (image : List UInt8) (as : List Access) :
    Follows r image (Pager.init r as) (Eager.init image) .fresh where
  region := rfl
  looping := rfl
  reads := rfl
  present _ _ := rfl
  byte _ _ hp := nomatch hp
  absent _ _ _ := rfl
  copies _ hc := nomatch hc

theorem present_eq (hf : Follows r image s e h) (hi : i < r.len) :
    s.kernel.present ((r.ptr + i) / pageSize) = h.present (i / pageSize) :=
  (present_offset hf.region i).trans (hf.present _ (r.page_bounds hi).2)

/-- An access of a present page happens as in the eager memory. -/
theorem thread_hit (hf : Follows r image s e h) (hw : s.kernel.waiter = none) {a : Access}
    (ha : a.target = some (i, w)) (hi : i < r.len) (htodo : s.todo = a :: rest)
    (hin : h.present (i / pageSize) = true) :
    ∃ s', s.thread = some s' ∧ Follows r image s' (e.access image a) h ∧ s'.todo = rest ∧
      s'.kernel.waiter = none ∧ s'.kernel.queue = s.kernel.queue := by
  have hp := (hf.present_eq hi).trans hin
  -- a load reads what the eager restore holds there; a store updates both
  rcases a with j | ⟨j, v⟩ | -
  · cases ha
    refine ⟨_, Pager.thread_read hf.region hw htodo hp, ?_, rfl, hw, rfl⟩
    refine { hf with reads := ?_, byte := fun j hj ht => ?_, absent := fun j hj ht => ?_ }
    · show s.reads ++ [s.kernel.byte (r.ptr + i)] = e.reads ++ [e.memory i]
      rw [hf.reads, hf.byte i hi hin]
    · rw [Eager.access, Eager.memory_touch]
      exact hf.byte j hj ht
    · rw [Eager.access, Eager.memory_touch]
      exact hf.absent j hj ht
  · cases ha
    refine ⟨_, Pager.thread_write hf.region hw htodo hp, ?_, rfl, hw, rfl⟩
    refine { hf with
      reads := hf.reads.trans Eager.reads_touch.symm
      byte := fun j hj ht => ?_, absent := fun j hj ht => ?_ }
    · show Function.update s.kernel.byte (r.ptr + i) v (r.ptr + j) =
        Function.update e.memory i v j
      by_cases hij : j = i
      · rw [hij, Function.update_self, Function.update_self]
      · rw [Function.update_of_ne hij, Function.update_of_ne (by omega), hf.byte j hj ht]
    · show Function.update e.memory i v j = _
      have hij : j ≠ i := by
        rintro rfl
        cases hin.symm.trans ht
      rw [Function.update_of_ne hij, hf.absent j hj ht]
  · cases ha

/-- A reset makes every page absent. -/
theorem thread_reset (hf : Follows r image s e h) (hw : s.kernel.waiter = none)
    (htodo : s.todo = .reset :: rest) :
    s.thread = some { s with kernel := s.kernel.dontneed, todo := rest } ∧
      Follows r image { s with kernel := s.kernel.dontneed, todo := rest }
        (e.access image .reset) { h with present := fun _ => false } :=
  ⟨Pager.thread_reset hw htodo, { hf with
    present := fun _ hv => Kernel.holds_dontneed hf.region hv
    byte := fun _ _ hp => nomatch hp
    absent := fun _ _ _ => rfl }⟩

/-- Installing absent pages of the image adds nothing to what is read. -/
theorem install (hf : Follows r image s e h) (himage : r.len ≤ image.length) {p n m : ℕ}
    (hin : p + n ≤ r.pages) (habs : ∀ v, p ≤ v → v < p + m → h.present v = false)
    (stats : HandlerStats) (looping : Bool) :
    Follows r image
      { s with
        kernel := (s.kernel.noted (r.request p n)).install image (r.request p n) m
        stats, looping } e { h.fill p m with looping } where
  region := hf.region
  looping := rfl
  reads := hf.reads
  present v hv := by
    have hk : (s.kernel.noted (r.request p n)).region = r := hf.region
    rw [holds_install hk]
    show (if _ then true else s.kernel.holds v) = (h.present v || _)
    rw [hf.present v hv]
    by_cases hnew : p ≤ v ∧ v < p + m
    · rw [if_pos hnew, decide_eq_true hnew, Bool.or_true]
    · rw [if_neg hnew, decide_eq_false hnew, Bool.or_false]
  -- a page just installed was absent, so the eager memory still holds the image there
  byte j hj hp := by
    rw [byte_install]
    by_cases hnew : p ≤ j / pageSize ∧ j / pageSize < p + m
    · rw [if_pos hnew, hf.absent j hj (habs _ hnew.1 hnew.2)]
    · rw [if_neg hnew]
      apply hf.byte j hj
      rwa [Ahead.fill_present, decide_eq_false hnew, Bool.or_false] at hp
  absent j hj hp := by
    rw [Ahead.fill_present, Bool.or_eq_false_iff] at hp
    exact hf.absent j hj hp.1
  copies c hc := by
    rcases List.mem_append.mp hc with hc | hc
    · exact hf.copies c hc
    · rw [List.mem_singleton.mp hc]
      exact inside_request himage hin

/-- The kernel's run of absent pages is the one of what is installed ahead. -/
theorem absentFrom_eq (hf : Follows r image s e h) {p n : ℕ} (hin : p + n ≤ r.pages) :
    s.kernel.absentFrom p n = Kernel.absentRun h.present p n := by
  apply Kernel.absentRun_congr
  intro j hj
  have hholds := hf.present (p + j) (by omega)
  rw [Kernel.holds, ← Nat.add_assoc] at hholds
  exact hholds

/-- A fault of an absent page: the absent part of the run is installed, and the
handler ends unless this is all of it. -/
theorem iteration_absent (hf : Follows r image s e h) (hb : 1 ≤ b) (hi : i < r.len) (w : Bool)
    (habs : h.present (i / pageSize) = false) :
    let n := r.run b (i / pageSize)
    let m := Kernel.absentRun h.present (i / pageSize) n
    let c := r.request (i / pageSize) n
    ∃ flow stats, (flow == .looping) = decide (m = n) ∧
      (batched r image b).iteration (.ok (some (Kernel.message (r.ptr + i) w))) s.stats s.kernel =
        some (flow, stats, (s.kernel.noted c).install image c m) := by
  intro n m c
  have hp := (r.page_bounds hi).2
  have hpos : 0 < m := Ahead.absentRun_pos hb hp habs
  have hiter := Handler.iteration_fault hf.region image hb hi w s.stats
  dsimp only at hiter
  rw [show min b (r.pages - i / pageSize) = n from rfl, hf.absentFrom_eq (r.run_inside b hp)]
    at hiter
  -- the run is installed whole, or its present page ends the handler
  by_cases hall : m = n
  · rw [if_pos hall] at hiter
    refine ⟨.looping, s.stats.installed w n, (decide_eq_true hall).symm, ?_⟩
    rw [hall]
    exact hiter
  · rw [if_neg hall, if_neg hpos.ne'] at hiter
    exact ⟨.returned, _, (decide_eq_false hall).symm, hiter⟩

/-- The handler installs the page of the fault, and wakes the thread, even if
it ends there. -/
theorem handler_serve (hf : Follows r image s e h) (himage : r.len ≤ image.length) (hb : 1 ≤ b)
    (hi : i < r.len) (hl : h.looping = true) (habs : h.present (i / pageSize) = false)
    (hqueue : s.kernel.queue = [Kernel.message (r.ptr + i) w])
    (hwaiter : s.kernel.waiter = some (r.ptr + i)) :
    ∃ s' h', h.touch r b (i / pageSize) = some h' ∧ h'.present (i / pageSize) = true ∧
      s.handler (batched r image b) = some s' ∧ Follows r image s' e h' ∧ s'.todo = s.todo ∧
      s'.kernel.waiter = none ∧ s'.kernel.queue = [] := by
  have hp := (r.page_bounds hi).2
  have hpos := Ahead.absentRun_pos hb hp habs
  -- the message is taken off the queue before the copy
  have htaken : Follows r image { s with kernel := { s.kernel with queue := [] } } e h :=
    { hf with }
  obtain ⟨flow, stats, hflow, hserved⟩ := htaken.iteration_absent hb hi w habs
  have hstep := Pager.handler_message (hf.looping.trans hl) hqueue hserved
  rw [hflow] at hstep
  set m := Kernel.absentRun h.present (i / pageSize) (r.run b (i / pageSize))
  refine ⟨_, { h.fill (i / pageSize) m with looping := decide (m = r.run b (i / pageSize)) },
    ?_, ?_, hstep, ?_, rfl, ?_, rfl⟩
  · rw [Ahead.touch, if_neg (by rw [habs]; decide), if_pos hl]
  · show (_ || _) = true
    rw [decide_eq_true ⟨le_rfl, by omega⟩, Bool.or_true]
  · exact htaken.install himage (r.run_inside b hp) (fun v => Kernel.absent_of_mem) _ _
  · exact waiter_install htaken.region hwaiter ⟨le_rfl, by omega⟩

end Follows

/-! ### Every run -/

/-- Where a pager is after `n` steps: between accesses, parked by a fault, or
about to retry.  The accesses to come lead to `whole`, and, if they complete, to
`last`. -/
inductive Proceeds (r : Region) (image : List UInt8) (b : ℕ) (whole : Eager)
    (last : Option Ahead) (bound : ℕ) : ℕ → Pager → Prop
  | ready {n s e h} : Follows r image s e h → s.kernel.waiter = none → s.kernel.queue = [] →
      s.todo.foldl (Eager.access image) e = whole →
      s.todo.foldlM (Ahead.access r b) h = last → n + 3 * s.todo.length ≤ bound →
      Proceeds r image b whole last bound n s
  | parked {n s e h a rest i w} : Follows r image s e h → s.todo = a :: rest →
      a.target = some (i, w) → h.present (i / pageSize) = false →
      s.kernel.waiter = some (r.ptr + i) → s.kernel.queue = [Kernel.message (r.ptr + i) w] →
      s.todo.foldl (Eager.access image) e = whole →
      s.todo.foldlM (Ahead.access r b) h = last → n + 3 * rest.length + 2 ≤ bound →
      Proceeds r image b whole last bound n s
  | woken {n s e h a rest i w} : Follows r image s e h → s.todo = a :: rest →
      a.target = some (i, w) → h.present (i / pageSize) = true →
      s.kernel.waiter = none → s.kernel.queue = [] →
      s.todo.foldl (Eager.access image) e = whole →
      s.todo.foldlM (Ahead.access r b) h = last → n + 3 * rest.length + 1 ≤ bound →
      Proceeds r image b whole last bound n s

namespace Ahead

variable {r : Region} {b i : ℕ} {w : Bool} {h h' : Ahead} {a : Access}

theorem access_of_target (ha : a.target = some (i, w)) :
    h.access r b a = h.touch r b (i / pageSize) := by
  rw [access, ha]

theorem access_of_present (ha : a.target = some (i, w)) (hp : h.present (i / pageSize) = true) :
    h.access r b a = some h := by
  rw [access_of_target ha, touch, if_pos hp]

end Ahead

namespace Proceeds

variable {r : Region} {image : List UInt8} {b : ℕ} {whole : Eager} {last : Option Ahead}
  {bound n : ℕ} {s s' : Pager}

/-- After an access that happened. -/
theorem of_hit {e : Eager} {h h' : Ahead} {a : Access} {rest : List Access}
    (hf : Follows r image s' (e.access image a) h') (ha : h.access r b a = some h')
    (htodo : s.todo = a :: rest) (htodo' : s'.todo = rest) (hw : s'.kernel.waiter = none)
    (hq : s'.kernel.queue = []) (hwhole : s.todo.foldl (Eager.access image) e = whole)
    (hlast : s.todo.foldlM (Ahead.access r b) h = last) (hb : n + 3 * rest.length + 1 ≤ bound) :
    Proceeds r image b whole last bound (n + 1) s' := by
  rw [htodo, List.foldl_cons] at hwhole
  rw [htodo, List.foldlM_cons, ha] at hlast
  refine .ready hf hw hq (by rw [htodo', hwhole]) ?_ (by rw [htodo']; omega)
  rw [htodo']
  exact hlast

/-- The accessing thread, unless it is parked or done, has a step. -/
theorem thread (h : Proceeds r image b whole last bound n s) (has : ∀ a ∈ s.todo, a.InRegion r)
    (hne : s.todo ≠ []) (hw : s.kernel.waiter = none) :
    ∃ s', s.thread = some s' ∧ Proceeds r image b whole last bound (n + 1) s' ∧
      s'.todo ⊆ s.todo := by
  cases h with
  | @ready e h hf _ hq hwhole hlast hb =>
      obtain ⟨a, rest, htodo⟩ := List.exists_cons_of_ne_nil hne
      rw [htodo, List.length_cons] at hb
      rcases ha : a.target with - | ⟨i, w⟩
      · -- a reset
        obtain rfl := Access.eq_reset ha
        obtain ⟨hstep, hf'⟩ := hf.thread_reset hw htodo
        refine ⟨_, hstep, of_hit hf' rfl htodo rfl hw hq hwhole hlast (by omega), ?_⟩
        rw [htodo]
        exact List.subset_cons_self _ _
      · have hi : i < r.len := has a (by rw [htodo]; exact List.mem_cons_self) i w ha
        rcases hp : h.present (i / pageSize) with - | -
        · refine ⟨_, Pager.thread_fault hf.region hw ha htodo ((hf.present_eq hi).trans hp), ?_,
            List.Subset.refl _⟩
          refine .parked { hf with } htodo ha hp rfl ?_ hwhole hlast (by omega)
          show s.kernel.queue ++ [_] = _
          rw [hq, List.nil_append]
        · obtain ⟨s', hstep, hf', htodo', hw', hq'⟩ := hf.thread_hit hw ha hi htodo hp
          refine ⟨s', hstep, of_hit hf' (Ahead.access_of_present ha hp) htodo htodo' hw'
            (hq'.trans hq) hwhole hlast (by omega), ?_⟩
          rw [htodo, htodo']
          exact List.subset_cons_self _ _
  | parked _ _ _ _ hw' => exact absurd (hw.symm.trans hw') nofun
  | @woken e h a rest i w hf htodo ha hp _ hq hwhole hlast hb =>
      have hi : i < r.len := has a (by rw [htodo]; exact List.mem_cons_self) i w ha
      obtain ⟨s', hstep, hf', htodo', hw', hq'⟩ := hf.thread_hit hw ha hi htodo hp
      refine ⟨s', hstep, of_hit hf' (Ahead.access_of_present ha hp) htodo htodo' hw'
        (hq'.trans hq) hwhole hlast (by omega), ?_⟩
      rw [htodo, htodo']
      exact List.subset_cons_self _ _

/-- While the thread is parked, the handler has a message, and serves it if it
is still in its loop. -/
theorem handler (h : Proceeds r image b whole last bound n s) (hb : 1 ≤ b)
    (himage : r.len ≤ image.length) (has : ∀ a ∈ s.todo, a.InRegion r)
    (hw : s.kernel.waiter ≠ none) (hl : s.looping = true) :
    ∃ s', s.handler (batched r image b) = some s' ∧
      Proceeds r image b whole last bound (n + 1) s' ∧ s'.todo = s.todo := by
  cases h with
  | ready _ hw' => exact absurd hw' hw
  | woken _ _ _ _ hw' => exact absurd hw' hw
  | @parked e h a rest i w hf htodo ha hp hwaiter hqueue hwhole hlast hbound =>
      have hi : i < r.len := has a (by rw [htodo]; exact List.mem_cons_self) i w ha
      obtain ⟨s', h', htouch, hp', hstep, hf', htodo', hw', hq'⟩ :=
        hf.handler_serve himage hb hi (hf.looping.symm.trans hl) hp hqueue hwaiter
      refine ⟨s', hstep, ?_, htodo'⟩
      refine .woken hf' (htodo'.trans htodo) ha hp' hw' hq' (by rw [htodo']; exact hwhole) ?_
        (by omega)
      -- the retry finds the page, and leads where the touch led
      rw [htodo, List.foldlM_cons, Ahead.access_of_target ha, htouch] at hlast
      rw [htodo', htodo, List.foldlM_cons, Ahead.access_of_present ha hp']
      exact hlast

/-- Messages are only there for a parked thread. -/
theorem queue_eq_nil (h : Proceeds r image b whole last bound n s) (hw : s.kernel.waiter = none) :
    s.kernel.queue = [] := by
  cases h with
  | ready _ _ hq => exact hq
  | woken _ _ _ _ _ hq => exact hq
  | parked _ _ _ _ hw' => exact absurd (hw.symm.trans hw') nofun

theorem exists_follows (h : Proceeds r image b whole last bound n s) :
    n ≤ bound ∧ ∃ e h, Follows r image s e h ∧ s.todo.foldl (Eager.access image) e = whole ∧
      s.todo.foldlM (Ahead.access r b) h = last := by
  cases h with
  | ready hf _ _ hwhole hlast hb => exact ⟨by omega, _, _, hf, hwhole, hlast⟩
  | parked hf _ _ _ _ _ hwhole hlast hb => exact ⟨by omega, _, _, hf, hwhole, hlast⟩
  | woken hf _ _ _ _ _ hwhole hlast hb => exact ⟨by omega, _, _, hf, hwhole, hlast⟩

/-- Where neither thread has a step, the accesses are done, or the handler has
ended and its end was not the last access of an absent page. -/
theorem of_quiescent (h : Proceeds r image b whole last bound n s) (hb : 1 ≤ b)
    (himage : r.len ≤ image.length) (has : ∀ a ∈ s.todo, a.InRegion r) (hthread : s.thread = none)
    (hhandler : s.handler (batched r image b) = none) :
    (s.todo = [] ∧ ∃ h', last = some h' ∧ s.looping = h'.looping) ∨
      s.todo ≠ [] ∧ last = none ∧ s.looping = false := by
  by_cases hne : s.todo = []
  · obtain ⟨-, e, h', hf, -, hlast⟩ := h.exists_follows
    rw [hne] at hlast
    exact .inl ⟨hne, h', hlast.symm, hf.looping⟩
  refine .inr ⟨hne, ?_⟩
  -- a thread that cannot move has an access left only if it waits, and then the handler is gone
  have hw : s.kernel.waiter ≠ none := by
    intro hw
    obtain ⟨s', hs', -⟩ := h.thread has hne hw
    cases hs'.symm.trans hthread
  have hl : s.looping = false := by
    rcases hl : s.looping with - | -
    · rfl
    · obtain ⟨s', hs', -⟩ := h.handler hb himage has hw hl
      cases hs'.symm.trans hhandler
  refine ⟨?_, hl⟩
  -- a waiter that nobody serves: its access stays the last one
  cases h with
  | ready _ hw' => exact absurd hw' hw
  | woken _ _ _ _ hw' => exact absurd hw' hw
  | @parked e h a rest i w hf htodo ha hp _ _ _ hlast _ =>
      have hstranded : h.touch r b (i / pageSize) = none := by
        rw [Ahead.touch, if_neg (by rw [hp]; decide), if_neg (by rw [← hf.looping, hl]; decide)]
      rw [← hlast, htodo, List.foldlM_cons, Ahead.access_of_target ha, hstranded]
      rfl

end Proceeds

/-- Runs that are bounded can be continued until neither thread has a step. -/
theorem Run.exists_quiescent {h : Handler} {s₀ : Pager} (bound : ℕ)
    (hbound : ∀ {n s}, Run h n s₀ s → n ≤ bound) {n : ℕ} {s : Pager} (hrun : Run h n s₀ s) :
    ∃ n' s', Run h n' s₀ s' ∧ s'.thread = none ∧ s'.handler h = none := by
  induction hk : bound - n generalizing n s with
  | zero =>
      rcases hthread : s.thread with - | s'
      · rcases hhandler : s.handler h with - | s'
        · exact ⟨n, s, hrun, hthread, hhandler⟩
        · have hle := hbound (hrun.handler hhandler)
          omega
      · have hle := hbound (hrun.thread hthread)
        omega
  | succ k ih =>
      rcases hthread : s.thread with - | s'
      · rcases hhandler : s.handler h with - | s'
        · exact ⟨n, s, hrun, hthread, hhandler⟩
        · exact ih (hrun.handler hhandler) (by omega)
      · exact ih (hrun.thread hthread) (by omega)

section Runs

variable {r : Region} {image : List UInt8} {b n : ℕ} {as : List Access} {s : Pager}

/-- The run lemma. -/
theorem Run.proceeds (hb : 1 ≤ b) (himage : r.len ≤ image.length) (has : ∀ a ∈ as, a.InRegion r)
    (hrun : Run (batched r image b) n (Pager.init r as) s) :
    Proceeds r image b (as.foldl (Eager.access image) (Eager.init image))
      (as.foldlM (Ahead.access r b) .fresh) (3 * as.length) n s ∧ s.todo ⊆ as := by
  refine hrun.invariant (P := fun n s => Proceeds r image b
    (as.foldl (Eager.access image) (Eager.init image)) (as.foldlM (Ahead.access r b) .fresh)
      (3 * as.length) n s ∧ s.todo ⊆ as) ?_ ?_ ?_
  · intro n s s' ⟨h, hsub⟩ hstep
    obtain ⟨hw, hne⟩ := Pager.of_thread hstep
    obtain ⟨t, ht, h', hsub'⟩ := h.thread (fun a ha => has a (hsub ha)) hne hw
    cases ht.symm.trans hstep
    exact ⟨h', List.Subset.trans hsub' hsub⟩
  · intro n s s' ⟨h, hsub⟩ hstep
    obtain ⟨hl, hq⟩ := Pager.of_handler hstep
    have hw : s.kernel.waiter ≠ none := fun hw => hq (h.queue_eq_nil hw)
    obtain ⟨t, ht, h', htodo⟩ := h.handler hb himage (fun a ha => has a (hsub ha)) hw hl
    cases ht.symm.trans hstep
    exact ⟨h', htodo ▸ hsub⟩
  · exact ⟨.ready (Follows.init r image as) rfl rfl rfl rfl (by rw [Nat.zero_add]; rfl),
      List.Subset.refl _⟩

/-- For every region, batch size of at least one page, image that covers the
region and sequence of accesses and resets, in every interleaving.  There are at
most three steps per access, and no request leaves the region or the image.  The
reads return what the eager memory holds, whether the handler lives or not.  It
lives through every run if the accesses are spared.  Where neither thread has a
step, it has ended if they are not, and the accesses are done exactly if they
complete without it. -/
theorem batched_restores (r : Region) {image : List UInt8} (himage : r.len ≤ image.length) {b : ℕ}
    (hb : 1 ≤ b) {as : List Access} (has : ∀ a ∈ as, a.InRegion r) {n : ℕ} {s : Pager}
    (hrun : Run (batched r image b) n (Pager.init r as) s) :
    let e := as.foldl (Eager.access image) (Eager.init image)
    n ≤ 3 * as.length ∧
    (∀ c ∈ s.kernel.copies, c.Inside r image) ∧
    s.reads <+: e.reads ∧
    (s.todo = [] → s.reads = e.reads) ∧
    (Spared r b (fun _ => false) as → s.looping = true) ∧
    (s.thread = none → s.handler (batched r image b) = none →
      (s.looping = true ↔ Spared r b (fun _ => false) as) ∧
      (s.todo = [] ↔ Completes r b as)) := by
  obtain ⟨hp, hsub⟩ := hrun.proceeds hb himage has
  obtain ⟨hle, e, h, hf, hwhole, hlast⟩ := hp.exists_follows
  have hspared : _ ↔ Spared r b Ahead.fresh.present as := Ahead.looping_iff_spared .fresh rfl
  refine ⟨hle, hf.copies, ?_, fun hnil => ?_, fun hsp => ?_, fun hthread hhandler => ?_⟩
  · rw [hf.reads, ← hwhole]
    exact Eager.reads_prefix _
  · rw [hnil, List.foldl_nil] at hwhole
    rw [hf.reads, hwhole]
  · obtain ⟨h', hlast', hl⟩ := hspared.mpr hsp
    rw [hf.looping]
    exact Ahead.looping_of_foldlM (hlast.trans hlast') hl
  · -- nobody moves: done, or stranded on a page nobody will bring in
    have hdone := hp.of_quiescent hb himage (fun a ha => has a (hsub ha)) hthread hhandler
    have hnone : (Ahead.fresh.present) = fun _ => false := rfl
    rw [← hnone, ← hspared, Completes]
    rcases hdone with ⟨hnil, h', hlast', hl⟩ | ⟨hne, hlast', hl⟩
    · rw [hlast', hl]
      exact ⟨⟨fun hl' => ⟨h', rfl, hl'⟩, fun ⟨_, he, hl'⟩ => by cases he; exact hl'⟩,
        iff_of_true hnil rfl⟩
    · rw [hlast', hl]
      exact ⟨iff_of_false nofun nofun, iff_of_false hne nofun⟩

/-- The second of two pages, and then the first. -/
def backwards : List Access := [.read 4096, .read 0]

/-- With two pages per fault the second access ends the handler, and yet returns
the image. -/
theorem batched_restores_backwards :
    ∃ n s, Run (batched twoPages (List.replicate 8192 7) 2) n (Pager.init twoPages backwards) s ∧
      s.todo = [] ∧ s.reads = [7, 7] ∧ s.looping = false := by
  have himage : twoPages.len ≤ (List.replicate 8192 (7 : UInt8)).length :=
    List.length_replicate.ge
  have hin : ∀ a ∈ backwards, a.InRegion twoPages := by
    intro a ha i w hi
    rcases List.mem_cons.mp ha with rfl | ha
    · cases hi
      decide
    · rw [List.mem_singleton.mp ha] at hi
      cases hi
      decide
  obtain ⟨n, s, hrun, hthread, hhandler⟩ := Run.exists_quiescent (3 * backwards.length)
    (fun hrun => (Run.proceeds (by decide) himage hin hrun).1.exists_follows.1)
    (Run.refl (h := batched twoPages (List.replicate 8192 7) 2) (Pager.init twoPages backwards))
  obtain ⟨-, -, -, hreads, -, hlast⟩ := batched_restores twoPages himage (by decide) hin hrun
  obtain ⟨hlooping, htodo⟩ := hlast hthread hhandler
  have hdone : s.todo = [] := htodo.mpr rfl
  have heager : ∀ image : List UInt8,
      (backwards.foldl (Eager.access image) (Eager.init image)).reads =
        [image.getD 4096 0, image.getD 0 0] := fun _ => rfl
  have hbytes := hreads hdone
  rw [heager, List.getD_replicate _ (by decide), List.getD_replicate _ (by decide)] at hbytes
  refine ⟨n, s, hrun, hdone, hbytes, Bool.eq_false_iff.mpr fun hl => ?_⟩
  -- the run of the first page meets the second
  have hmet := (hlooping.mp hl).2.1 1 (by decide) (by decide)
  cases hmet

end Runs

end SystemsStudy.Uffd
