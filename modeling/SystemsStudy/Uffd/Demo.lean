/-
SystemsStudy/Uffd/Demo.lean

`main.rs`: the demo, for a region of any size and touches in any order.

The demo touches pages in a scattered order, compares each byte it gets with the
number of the page, and at the end compares the handler's count of faults with
the number of distinct pages.  Nothing here depends on its 64 pages and eight
touches.  The image may be any; the demo notices exactly what is wrong with the
first bytes of the pages it touches (`restore_demo_verifies`), and nothing is
wrong with the image it makes for itself (`demoImage_page`).

The eager memory of `Restore` says what the touches read and how often they
fault; what is left is to count first touches as distinct pages.
-/
import Mathlib.Data.List.Destutter
import Mathlib.Data.List.GetD
import SystemsStudy.Uffd.Restore
import SystemsStudy.Uffd.Survival

namespace SystemsStudy.Uffd

/-- The snapshot image: page `p` filled with byte `p`. -/
def demoImage (pages : ℕ) : List UInt8 :=
  (List.range pages).flatMap fun p => List.replicate pageSize (UInt8.ofNat p)

/-- `Region::touch`, page by page. -/
def demoTouches (order : List ℕ) : List Access := order.map fun p => .read (p * pageSize)

/-- The distinct pages: sort, drop repetitions, count. -/
def distinct (order : List ℕ) : UInt64 :=
  UInt64.ofNat ((order.insertionSort (· ≤ ·)).destutter (· ≠ ·)).length

/-- Why the demo fails. -/
inductive DemoError where
  | wrongPage
  /-- expected so many faults, got others -/
  | faults (expected got : UInt64)
  deriving DecidableEq

/-- What the demo makes of its touches so far; nothing while some are left and
none has returned a wrong byte. -/
def demoVerdict (order : List ℕ) (s : Pager) : Option (Except DemoError Unit) :=
  if (s.reads.zip order).any fun (got, p) => got != UInt8.ofNat p then
    some (.error .wrongPage)
  else if s.todo.isEmpty then
    if s.stats.faults ≠ distinct order then
      some (.error (.faults (distinct order) s.stats.faults))
    else some (.ok ())
  else none

/-! ### The image -/

section Image

variable {α : Type*} {f : ℕ → α} {k : ℕ}

theorem length_flatMap_replicate (n : ℕ) :
    ((List.range n).flatMap fun p => List.replicate k (f p)).length = n * k := by
  induction n with
  | zero => rw [Nat.zero_mul]; rfl
  | succ n ih =>
      rw [List.range_succ, List.flatMap_append, List.length_append, ih, List.flatMap_singleton,
        List.length_replicate, Nat.succ_mul]

/-- The blocks stand one after the other. -/
theorem getD_flatMap_replicate {n p j : ℕ} (hp : p < n) (hj : j < k) (d : α) :
    ((List.range n).flatMap fun p => List.replicate k (f p)).getD (p * k + j) d = f p := by
  induction n with
  | zero => exact absurd hp (Nat.not_lt_zero p)
  | succ n ih =>
      rw [List.range_succ, List.flatMap_append, List.flatMap_singleton]
      rcases Nat.lt_or_eq_of_le (Nat.le_of_lt_succ hp) with hlt | rfl
      · have hblock : (p + 1) * k ≤ n * k := Nat.mul_le_mul_right k hlt
        rw [Nat.succ_mul] at hblock
        rw [List.getD_append _ _ _ _ (by rw [length_flatMap_replicate]; omega), ih hlt]
      · rw [List.getD_append_right _ _ _ _ (by rw [length_flatMap_replicate]; omega),
          length_flatMap_replicate, Nat.add_sub_cancel_left, List.getD_replicate _ hj]

end Image

/-- The demo's image covers its region. -/
theorem length_demoImage (r : Region) : (demoImage r.pages).length = r.len := by
  rw [demoImage, length_flatMap_replicate]
  exact Nat.div_mul_cancel (Nat.dvd_of_mod_eq_zero r.len_aligned)

/-- Every byte of a page of the image is its number. -/
theorem demoImage_page {pages p j : ℕ} (hp : p < pages) (hj : j < pageSize) :
    (demoImage pages).getD (p * pageSize + j) 0 = UInt8.ofNat p :=
  getD_flatMap_replicate hp hj 0

/-! ### What the touches mean -/

namespace Eager

variable {image : List UInt8} {order : List ℕ} {e : Eager} {p : ℕ}

/-- Each touch reads the first byte of its page. -/
theorem reads_touches :
    ((demoTouches order).foldl (access image) e).reads =
      e.reads ++ order.map fun p => e.memory (p * pageSize) := by
  induction order generalizing e with
  | nil => exact (List.append_nil _).symm
  | cons p order ih =>
      refine ih.trans ?_
      rw [access, memory_touch, List.map_cons, List.append_assoc]
      rfl

theorem touched_access_page (q : ℕ) :
    (e.access image (.read (p * pageSize))).touched q = (e.touched q || decide (q = p)) := by
  show (e.touch (p * pageSize) false).touched q = _
  rw [touched_touch, Nat.mul_div_cancel p (by decide)]

/-- The faults are the distinct pages that were not touched before. -/
theorem faults_touches :
    ((demoTouches order).foldl (access image) e).faults =
      e.faults + (order.toFinset.filter fun p => e.touched p = false).card := by
  induction order generalizing e with
  | nil => rfl
  | cons p order ih =>
      refine ih.trans ?_
      have hpage : p * pageSize / pageSize = p := Nat.mul_div_cancel p (by decide)
      simp only [touched_access_page]
      rw [List.toFinset_cons]
      rcases hp : e.touched p with - | -
      · -- the first touch of the page
        have hfaults : (e.access image (.read (p * pageSize))).faults = e.faults + 1 :=
          (counts_touch false (by rw [hpage]; exact hp)).1
        have hrest : (order.toFinset.filter fun q => (e.touched q || decide (q = p)) = false) =
            ((insert p order.toFinset).filter fun q => e.touched q = false).erase p := by
          ext q
          rw [Finset.mem_erase, Finset.mem_filter, Finset.mem_filter, Finset.mem_insert,
            Bool.or_eq_false_iff, decide_eq_false_iff_not]
          tauto
        have hmem : p ∈ (insert p order.toFinset).filter fun q => e.touched q = false :=
          Finset.mem_filter.mpr ⟨Finset.mem_insert_self _ _, hp⟩
        rw [hfaults, hrest, Nat.add_assoc, Nat.add_comm 1, Finset.card_erase_add_one hmem]
      · have hfaults : (e.access image (.read (p * pageSize))).faults = e.faults := by
          show (e.touch (p * pageSize) false).faults = e.faults
          rw [touch_of_touched (by rw [hpage]; exact hp)]
        have hrest : (order.toFinset.filter fun q => (e.touched q || decide (q = p)) = false) =
            (insert p order.toFinset).filter fun q => e.touched q = false := by
          ext q
          rw [Finset.mem_filter, Finset.mem_filter, Finset.mem_insert, Bool.or_eq_false_iff,
            decide_eq_false_iff_not]
          constructor
          · rintro ⟨hq, habs, -⟩
            exact ⟨.inr hq, habs⟩
          · rintro ⟨hq, habs⟩
            have hne : q ≠ p := by
              rintro rfl
              cases hp.symm.trans habs
            exact ⟨hq.resolve_left hne, habs, hne⟩
        rw [hfaults, hrest]

end Eager

/-- Sorting and dropping repetitions leaves the distinct pages. -/
theorem distinct_eq (order : List ℕ) : distinct order = UInt64.ofNat order.toFinset.card := by
  rw [distinct, (List.pairwise_insertionSort (· ≤ ·) order).destutter_eq_dedup,
    ← List.card_toFinset, List.toFinset_eq_of_perm _ _ (List.perm_insertionSort (· ≤ ·) order)]

/-! ### The verdict -/

/-- The comparison of the bytes fails where one of the first pages differs. -/
theorem any_zip_ne_iff {order : List ℕ} {f : ℕ → UInt8} {reads : List UInt8}
    (h : reads <+: order.map f) :
    ((reads.zip order).any fun (got, p) => got != UInt8.ofNat p) = true ↔
      ∃ p ∈ order.take reads.length, f p ≠ UInt8.ofNat p := by
  induction order generalizing reads with
  | nil =>
      obtain rfl := List.prefix_nil.mp h
      simp
  | cons p order ih =>
      rcases reads with - | ⟨got, reads⟩
      · simp
      · obtain ⟨rfl, hrest⟩ := List.cons_prefix_cons.mp h
        have htail := ih hrest
        rw [List.zip_cons_cons, List.any_cons, Bool.or_eq_true, htail, List.length_cons,
          List.take_succ_cons, List.exists_mem_cons_iff, bne_iff_ne]

section Runs

variable {r : Region} {image : List UInt8} {order : List ℕ} {n : ℕ} {s : Pager}

theorem inRegion_demoTouches (horder : ∀ p ∈ order, p < r.pages) :
    ∀ a ∈ demoTouches order, a.InRegion r := by
  intro a ha i w hi
  obtain ⟨p, hp, rfl⟩ := List.mem_map.mp ha
  cases hi
  have hlt := horder p hp
  have hlen := r.len_aligned
  unfold Region.pages at hlt
  simp only [pageSize] at *
  omega

/-- The run lemma: what a state reached says about the reads and the faults. -/
theorem Run.demo (himage : r.len ≤ image.length) (horder : ∀ p ∈ order, p < r.pages)
    (hrun : Run (onePage r image) n (Pager.init r (demoTouches order)) s) :
    n ≤ 3 * order.length ∧
    (s.reads <+: order.map fun p => image.getD (p * pageSize) 0) ∧
    (s.todo = [] → s.reads.length = order.length ∧ s.stats.faults = distinct order) := by
  obtain ⟨h, -⟩ := hrun.stands himage (inRegion_demoTouches horder)
  obtain ⟨hle, e, hm, hf⟩ := h.exists_matches
  have hreads : ((demoTouches order).foldl (Eager.access image) (Eager.init image)).reads =
      order.map fun p => image.getD (p * pageSize) 0 := Eager.reads_touches
  refine ⟨by rwa [demoTouches, List.length_map] at hle, ?_, fun hnil => ?_⟩
  · rw [hm.reads, ← hreads, ← hf]
    exact Eager.reads_prefix s.todo
  · -- finished: one fault for each page touched, since none was there before
    rw [hnil, List.foldl_nil] at hf
    have hstats := congrArg HandlerStats.faults hm.stats
    rw [hf, Eager.faults_touches] at hstats
    refine ⟨?_, ?_⟩
    · rw [hm.reads, hf, hreads]
      exact List.length_map _
    · have hall : (order.toFinset.filter fun p => (Eager.init image).touched p = false) =
          order.toFinset := Finset.filter_true_of_mem fun _ _ => rfl
      rw [hstats, distinct_eq, hall]
      exact congrArg UInt64.ofNat (Nat.zero_add _)

/-- For every region, every order of touches of its pages and every image that
covers the region, in every interleaving with the handler.  There are at most
three steps per touch, and while the demo has not decided, one of the threads has
a step.  It never complains about the number of faults.  Once the touches are
done it succeeds exactly if each page it touched starts with its number, and with
its own image it never fails. -/
theorem restore_demo_verifies (r : Region) {image : List UInt8} (himage : r.len ≤ image.length)
    {order : List ℕ} (horder : ∀ p ∈ order, p < r.pages) {n : ℕ} {s : Pager}
    (hrun : Run (onePage r image) n (Pager.init r (demoTouches order)) s) :
    n ≤ 3 * order.length ∧
    (demoVerdict order s = none →
      ∃ s', s.thread = some s' ∨ s.handler (onePage r image) = some s') ∧
    (∀ expected got, demoVerdict order s ≠ some (.error (.faults expected got))) ∧
    (s.todo = [] → (demoVerdict order s = some (.ok ()) ↔
      ∀ p ∈ order, image.getD (p * pageSize) 0 = UInt8.ofNat p)) ∧
    (image = demoImage r.pages → demoVerdict order s = none ∨
      demoVerdict order s = some (.ok ())) := by
  have hin := inRegion_demoTouches horder
  obtain ⟨h, hsub⟩ := hrun.stands himage hin
  obtain ⟨hle, hreads, hdone⟩ := hrun.demo himage horder
  have hwrong := any_zip_ne_iff hreads
  have hempty : s.todo.isEmpty = true ↔ s.todo = [] := List.isEmpty_iff
  unfold demoVerdict
  refine ⟨hle, fun hnone => ?_, fun expected got hv => ?_, fun hnil => ?_, fun hown => ?_⟩
  · refine h.progress himage (fun a ha => hin a (hsub ha)) fun hnil => ?_
    rw [if_pos (hempty.mpr hnil)] at hnone
    split at hnone
    · cases hnone
    · split at hnone <;> cases hnone
  · split at hv
    · cases hv
    · split at hv
      next hnil =>
        rw [if_neg (not_not_intro (hdone (hempty.mp hnil)).2)] at hv
        cases hv
      · cases hv
  · -- finished with the right count of faults, so the verdict is on the bytes alone
    obtain ⟨hlength, hfaults⟩ := hdone hnil
    rw [hlength, List.take_length] at hwrong
    rw [if_pos (hempty.mpr hnil), if_neg (not_not_intro hfaults)]
    split
    next hany =>
      obtain ⟨p, hp, hne⟩ := hwrong.mp hany
      exact iff_of_false nofun fun hall => hne (hall p hp)
    next hany =>
      refine iff_of_true rfl fun p hp => ?_
      by_contra hne
      exact hany (hwrong.mpr ⟨p, hp, hne⟩)
  · -- page `p` of the demo's own image holds the byte `p`
    have hright : ¬ ((s.reads.zip order).any fun (got, p) => got != UInt8.ofNat p) = true := by
      rw [hwrong]
      rintro ⟨p, hp, hne⟩
      have hpage := demoImage_page (horder p (List.mem_of_mem_take hp)) (j := 0) (by decide)
      rw [Nat.add_zero, ← hown] at hpage
      exact hne hpage
    rw [if_neg hright]
    split
    next hnil =>
      rw [if_neg (not_not_intro (hdone (hempty.mp hnil)).2)]
      exact .inr rfl
    · exact .inl rfl

/-- The second of two pages, the first, and the second again. -/
def scattered : List ℕ := [1, 0, 1]

theorem restore_demo_verifies_scattered :
    ∃ n s, Run (onePage twoPages (demoImage twoPages.pages)) n
        (Pager.init twoPages (demoTouches scattered)) s ∧
      n ≤ 9 ∧ demoVerdict scattered s = some (.ok ()) := by
  have himage : twoPages.len ≤ (demoImage twoPages.pages).length := (length_demoImage _).ge
  have horder : ∀ p ∈ scattered, p < twoPages.pages := by decide
  obtain ⟨n, s, hrun, htodo⟩ := (Run.refl _).exists_complete himage (inRegion_demoTouches horder)
  obtain ⟨hn, -, -, hdone, -⟩ := restore_demo_verifies twoPages himage horder hrun
  refine ⟨n, s, hrun, hn, (hdone htodo).mpr fun p hp => ?_⟩
  have hpage := demoImage_page (horder p hp) (j := 0) (by decide)
  rwa [Nat.add_zero] at hpage

end Runs

end SystemsStudy.Uffd
