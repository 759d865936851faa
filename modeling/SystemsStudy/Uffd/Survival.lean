/-
SystemsStudy/Uffd/Survival.lean

When servicing a fault ends the handler.

A request whose first page is present is answered with `EEXIST`, which
`Uffd::copy` turns into a success of no bytes.  A request that meets a present
page later is answered with `EAGAIN` and a partial count; `Uffd::copy` looks at
the errno only, so this is an error, and the handler returns with pages
installed that it did not count.

The handler survives exactly if the page of the fault is present already or the
whole clamped run is absent (`service_survives_iff`).
-/
import Mathlib.Data.List.GetD
import SystemsStudy.Uffd.Handler

namespace SystemsStudy.Uffd

variable {r : Region} {image : List UInt8} {k : Kernel} {b i : ℕ}

/-- The pages of the region that are present in `k'` and were not in `k`. -/
def newPages (r : Region) (k k' : Kernel) : Finset ℕ :=
  (Finset.range r.pages).filter fun v => k'.holds v = true ∧ k.holds v = false

theorem newPages_self (r : Region) (k : Kernel) : newPages r k k = ∅ := by
  apply Finset.filter_eq_empty_iff.mpr
  intro v _ h
  rw [h.1] at h
  cases h.2

/-- Page `v` of the region has the content of the image. -/
def Kernel.HasImage (r : Region) (image : List UInt8) (k : Kernel) (v : ℕ) : Prop :=
  ∀ j < r.len, j / pageSize = v → k.byte (r.ptr + j) = image.getD j 0

/-- One iteration for the fault at offset `i` leaves the handler looping and
the page present with its own content, and counts the pages it installed. -/
def Handler.Survives (h : Handler) (r : Region) (image : List UInt8) (i : ℕ) (write : Bool)
    (stats : HandlerStats) (k : Kernel) : Prop :=
  ∃ stats' k', h.iteration (.ok (some (Kernel.message (r.ptr + i) write))) stats k =
      some (.looping, stats', k') ∧
    k'.holds (i / pageSize) = true ∧ k'.HasImage r image (i / pageSize) ∧
    stats'.pagesInstalled = stats.pagesInstalled + UInt64.ofNat (newPages r k k').card

/-- Installing an absent run makes its pages new, and no others. -/
theorem card_newPages_install (hk : k.region = r) {p n : ℕ} (hin : p + n ≤ r.pages)
    (habs : ∀ v, p ≤ v → v < p + n → k.holds v = false) (c : UffdioCopy) :
    (newPages r k ((k.noted c).install image (r.request p n) n)).card = n := by
  have hnew : newPages r k ((k.noted c).install image (r.request p n) n) =
      Finset.Ico p (p + n) := by
    ext v
    rw [newPages, Finset.mem_filter, Finset.mem_range, Finset.mem_Ico,
      holds_install (k := k.noted c) hk]
    constructor
    · rintro ⟨-, hnow, hbefore⟩
      by_contra hout
      rw [if_neg hout] at hnow
      cases hbefore.symm.trans hnow
    · intro hv
      rw [if_pos hv]
      exact ⟨by omega, rfl, habs v hv.1 hv.2⟩
  rw [hnew, Nat.card_Ico, Nat.add_sub_cancel_left]

/-- For every region, batch size of at least one page, set of present pages and
fault on a page that is absent or has its content: the handler survives the
fault exactly if the page is present or the run from it, clamped to the region,
is absent. -/
theorem service_survives_iff (hk : k.region = r) (hb : 1 ≤ b) (hi : i < r.len)
    (hcontent : k.holds (i / pageSize) = true → k.HasImage r image (i / pageSize))
    (write : Bool) (stats : HandlerStats) :
    (batched r image b).Survives r image i write stats k ↔
      k.holds (i / pageSize) = true ∨
      ∀ v, i / pageSize ≤ v → v < i / pageSize + min b (r.pages - i / pageSize) →
        k.holds v = false := by
  have hiter := Handler.iteration_fault hk image hb hi write stats
  dsimp only at hiter
  have hp := (r.page_bounds hi).2
  set p := i / pageSize with hpage
  set n := min b (r.pages - p)
  have hn : 0 < n := Nat.lt_min.mpr ⟨hb, by omega⟩
  have hin : p + n ≤ r.pages := by
    have hle : n ≤ r.pages - p := Nat.min_le_right _ _
    omega
  constructor
  · rintro ⟨stats', k', hrun, -⟩
    by_contra hno
    rw [not_or] at hno
    -- the first page is absent and a later one present: the request ends in between
    rw [if_neg (fun h => hno.2 (Kernel.absentFrom_eq_iff.mp h)),
      if_neg (fun h => hno.1 ((Kernel.absentFrom_eq_zero_iff hn).mp h))] at hiter
    cases hrun.symm.trans hiter
  · rintro (hpresent | habs)
    · have hzero := (Kernel.absentFrom_eq_zero_iff hn).mpr hpresent
      rw [if_neg (by omega), if_pos hzero] at hiter
      refine ⟨_, _, hiter, hpresent, hcontent hpresent, ?_⟩
      show stats.pagesInstalled = stats.pagesInstalled + UInt64.ofNat (newPages r k k).card
      rw [newPages_self]
      exact (UInt64.add_zero _).symm
    · rw [if_pos (Kernel.absentFrom_eq_iff.mpr habs)] at hiter
      refine ⟨_, _, hiter, ?_, ?_, ?_⟩
      · rw [holds_install (k := k.noted _) hk, if_pos ⟨le_rfl, by omega⟩]
      · intro j _ hj
        rw [byte_install, if_pos ⟨by omega, by omega⟩]
      · rw [card_newPages_install hk hin habs]
        rfl

/-- A region of two pages. -/
def twoPages : Region := .ofPages 2 2 (by decide)

/-- The first page is there already, of the same image. -/
def firstPresent : Kernel :=
  { Kernel.registered twoPages with
    present := fun v => v == 2
    byte := fun _ => 7 }

/-- The second page was installed first, by another handler. -/
def secondPresent : Kernel :=
  { Kernel.registered twoPages with
    present := fun v => v == 3
    byte := fun _ => 7 }

theorem service_survives_iff_twoPages :
    let h := batched twoPages (List.replicate 8192 7) 2
    h.Survives twoPages (List.replicate 8192 7) 5 false {} (.registered twoPages) ∧
    h.Survives twoPages (List.replicate 8192 7) 5 false {} firstPresent ∧
    ¬ h.Survives twoPages (List.replicate 8192 7) 5 false {} secondPresent := by
  have hiff := fun (k : Kernel) (hk : k.region = twoPages) (hcontent : k.holds 0 = true →
      k.HasImage twoPages (List.replicate 8192 7) 0) =>
    service_survives_iff (b := 2) (i := 5) hk (by decide) (by decide) hcontent false {}
  refine ⟨?_, ?_, ?_⟩
  · exact (hiff (.registered twoPages) rfl (fun h => nomatch h)).mpr (.inr fun v _ _ => rfl)
  · refine (hiff firstPresent rfl fun _ j hj _ => ?_).mpr (.inl rfl)
    exact (List.getD_replicate (7 : UInt8) hj).symm
  · intro hsurvives
    rcases (hiff secondPresent rfl (fun h => nomatch h)).mp hsurvives with hfirst | habsent
    · cases hfirst
    · cases habsent 1 (by decide) (by decide)

/-- The fault on the first page kills a handler of two pages per fault.  The
page is there, and not counted. -/
theorem partial_copy_ends_handler :
    (∃ stats' k', (batched twoPages (List.replicate 8192 7) 2).iteration
        (.ok (some (Kernel.message (twoPages.ptr + 5) false))) {} secondPresent =
          some (.returned, stats', k') ∧
      k'.holds 0 = true ∧ stats'.pagesInstalled = 0 ∧
      (newPages twoPages secondPresent k').card = 1) ∧
    ¬ (batched twoPages (List.replicate 8192 7) 2).Survives twoPages (List.replicate 8192 7) 5 false
        {} secondPresent := by
  have hiter := Handler.iteration_fault (r := twoPages) (k := secondPresent) rfl
    (List.replicate 8192 7) (b := 2) (by decide) (i := 5) (by decide) false {}
  have hrun : secondPresent.absentFrom (5 / pageSize)
      (min 2 (twoPages.pages - 5 / pageSize)) = 1 := by
    decide
  dsimp only at hiter
  rw [hrun, if_neg (by decide), if_neg (by decide)] at hiter
  constructor
  · refine ⟨_, _, hiter, rfl, rfl, ?_⟩
    decide
  · rintro ⟨stats', k', hsurvived, -⟩
    cases hiter.symm.trans hsurvived

end SystemsStudy.Uffd
