/-
SystemsStudy/Uffd/Kernel.lean

`uffd.rs`: a registered region, and what the kernel does with it.

The kernel side is not code of the repository; it is modelled as its interface
documents it, for a region registered in MISSING mode.  An access of an absent
page parks the thread and queues one message (`Kernel.fault`).  `UFFDIO_COPY`
installs pages upward from `dst` until it meets a present one, and wakes
whoever waits for what it installed (`Kernel.uffdioCopy`); `MADV_DONTNEED`
makes every page absent (`Kernel.dontneed`).  Pages are named by their number,
the address divided by the page size.

The kernel keeps the requests it was given (`copies`), so that a later theorem
can speak about every request of a run.  `Uffd.copy` is the method over the
ioctl, with its two ways to report an error.
-/
import Mathlib.Tactic

namespace SystemsStudy.Uffd

/-- 4 KiB. -/
def pageSize : ℕ := 4096

/-- An anonymous mapping.  `mmap` maps whole pages, inside the address space. -/
structure Region where
  ptr : ℕ
  len : ℕ
  ptr_aligned : ptr % pageSize = 0
  len_aligned : len % pageSize = 0
  end_le : ptr + len ≤ 2 ^ 64

/-- How many pages a region has. -/
def Region.pages (r : Region) : ℕ := r.len / pageSize

/-- The `n` pages from page `p` of the address space on. -/
def Region.ofPages (p n : ℕ) (h : p * pageSize + n * pageSize ≤ 2 ^ 64) : Region where
  ptr := p * pageSize
  len := n * pageSize
  ptr_aligned := Nat.mul_mod_left _ _
  len_aligned := Nat.mul_mod_left _ _
  end_le := h

/-! ### Messages and requests -/

/-- The event of a message about a missing page. -/
def uffdEventPagefault : UInt8 := 0x12

/-- The fault was a write. -/
def uffdPagefaultFlagWrite : UInt64 := 1

/-- Install the page but do not wake the faulting thread yet. -/
def uffdioCopyModeDontwake : UInt64 := 1

/-- A message read from the userfaultfd. -/
structure UffdMsg where
  event : UInt8
  pagefaultFlags : UInt64
  /-- The faulting address, rounded down to a page boundary by the kernel. -/
  pagefaultAddress : UInt64
  deriving DecidableEq

/-- The request of `UFFDIO_COPY`.  The source is an offset into the image. -/
structure UffdioCopy where
  dst : ℕ
  src : ℕ
  len : ℕ
  mode : UInt64
  deriving DecidableEq

/-- The errors of `UFFDIO_COPY`. -/
inductive Errno where
  | eexist
  | eagain
  | einval
  | enoent
  deriving DecidableEq

/-- The errno as it stands, negated, in an out-parameter. -/
def Errno.code : Errno → ℤ
  | eexist => 17
  | eagain => 11
  | einval => 22
  | enoent => 2

/-! ### The kernel -/

/-- What the kernel knows of the registered region. -/
structure Kernel where
  region : Region
  /-- by page number -/
  present : ℕ → Bool
  /-- by address; meaningful where the page is present -/
  byte : ℕ → UInt8
  /-- messages not read yet -/
  queue : List UffdMsg
  /-- the address the parked thread waits for -/
  waiter : Option ℕ
  /-- the requests so far -/
  copies : List UffdioCopy

namespace Kernel

/-- A fresh mapping, registered: nothing is present. -/
def registered (r : Region) : Kernel where
  region := r
  present _ := false
  byte _ := 0
  queue := []
  waiter := none
  copies := []

/-- The message about an access at `a`. -/
def message (a : ℕ) (write : Bool) : UffdMsg where
  event := uffdEventPagefault
  pagefaultFlags := if write then uffdPagefaultFlagWrite else 0
  pagefaultAddress := UInt64.ofNat (a / pageSize * pageSize)

/-- Park the thread that accessed `a` and queue a message. -/
def fault (k : Kernel) (a : ℕ) (write : Bool) : Kernel :=
  { k with waiter := some a, queue := k.queue ++ [message a write] }

/-- `MADV_DONTNEED` on the whole region. -/
def dontneed (k : Kernel) : Kernel :=
  { k with
    present := fun v =>
      if k.region.ptr / pageSize ≤ v ∧ v < (k.region.ptr + k.region.len) / pageSize then false
      else k.present v }

/-- How many of the `n` pages from `v` on are absent before the first that is
present. -/
def absentRun (present : ℕ → Bool) : ℕ → ℕ → ℕ
  | _, 0 => 0
  | v, n + 1 => if present v then 0 else absentRun present (v + 1) n + 1

/-- Install the first `n` pages of a request. -/
def install (k : Kernel) (image : List UInt8) (c : UffdioCopy) (n : ℕ) : Kernel :=
  let present := fun v =>
    if c.dst / pageSize ≤ v ∧ v < c.dst / pageSize + n then true else k.present v
  { k with
    present
    byte := fun a =>
      if c.dst ≤ a ∧ a < c.dst + n * pageSize then image.getD (c.src + (a - c.dst)) 0
      else k.byte a
    waiter :=
      if c.mode &&& uffdioCopyModeDontwake = 0 then
        k.waiter.filter fun a => !present (a / pageSize)
      else k.waiter }

/-- The ioctl: its errno, if it fails, and the `copy` field. -/
def uffdioCopy (k : Kernel) (image : List UInt8) (c : UffdioCopy) :
    (Option Errno × ℤ) × Kernel :=
  let k := { k with copies := k.copies ++ [c] }
  if c.dst % pageSize ≠ 0 ∨ c.len % pageSize ≠ 0 ∨ c.len = 0 then ((some .einval, 0), k)
  else if c.dst < k.region.ptr ∨ k.region.ptr + k.region.len < c.dst + c.len then
    ((some .enoent, 0), k)
  else
    let n := absentRun k.present (c.dst / pageSize) (c.len / pageSize)
    if n = c.len / pageSize then ((none, c.len), k.install image c n)
    else if n = 0 then ((some .eexist, -Errno.eexist.code), k)
    else ((some .eagain, (n * pageSize : ℕ)), k.install image c n)

end Kernel

/-- `Uffd::copy`: install `len` bytes of the image at `dst`; the bytes copied,
or an error. -/
def copy (k : Kernel) (image : List UInt8) (dst src len : ℕ) (wake : Bool) :
    Except ℤ ℕ × Kernel :=
  let c := { dst, src, len, mode := if wake then 0 else uffdioCopyModeDontwake }
  match k.uffdioCopy image c with
  | ((some e, _), k) => (if e = .eexist then .ok 0 else .error e.code, k)
  | ((none, n), k) =>
      -- the ioctl succeeded; the out-parameter may still report an error
      if n < 0 then (if n = -Errno.eexist.code then .ok 0 else .error (-n), k)
      else (.ok n.toNat, k)

/-! ### Pages of the region -/

/-- The request for `n` pages of the region, from page `p` on. -/
def Region.request (r : Region) (p n : ℕ) : UffdioCopy where
  dst := r.ptr + p * pageSize
  src := p * pageSize
  len := n * pageSize
  mode := 0

/-- Page `v` of the region is present. -/
def Kernel.holds (k : Kernel) (v : ℕ) : Bool := k.present (k.region.ptr / pageSize + v)

/-- How many of the `n` pages from `p` on are absent before the first that is
present. -/
def Kernel.absentFrom (k : Kernel) (p n : ℕ) : ℕ :=
  absentRun k.present (k.region.ptr / pageSize + p) n

theorem Region.request_page (r : Region) (p n : ℕ) :
    (r.request p n).dst / pageSize = r.ptr / pageSize + p :=
  Nat.add_mul_div_right _ _ (by decide)

namespace Kernel

theorem absentRun_le (present : ℕ → Bool) (v n : ℕ) : absentRun present v n ≤ n := by
  induction n generalizing v with
  | zero => exact le_rfl
  | succ n ih =>
      rw [absentRun]
      split
      · exact Nat.zero_le _
      · exact Nat.succ_le_succ (ih _)

/-- The pages of the run are absent. -/
theorem absent_of_lt {present : ℕ → Bool} {v n j : ℕ} (h : j < absentRun present v n) :
    present (v + j) = false := by
  induction n generalizing v j with
  | zero => exact absurd h (Nat.not_lt_zero j)
  | succ n ih =>
      rw [absentRun] at h
      split at h
      · exact absurd h (Nat.not_lt_zero j)
      rename_i hv
      rcases j with - | j
      · simpa using hv
      · have hrest := ih (v := v + 1) (j := j) (by omega)
        rwa [show v + 1 + j = v + (j + 1) by omega] at hrest

/-- The run ends at a present page, or is as long as asked. -/
theorem present_of_absentRun_lt {present : ℕ → Bool} {v n : ℕ} (h : absentRun present v n < n) :
    present (v + absentRun present v n) = true := by
  induction n generalizing v with
  | zero => exact absurd h (Nat.not_lt_zero _)
  | succ n ih =>
      rw [absentRun] at h ⊢
      split
      · assumption
      · rename_i hv
        rw [if_neg hv] at h
        have hrest := ih (v := v + 1) (by omega)
        rwa [show v + 1 + absentRun present (v + 1) n = v + (absentRun present (v + 1) n + 1) by
          omega] at hrest

variable {k : Kernel} {p n : ℕ}

theorem absentFrom_le : k.absentFrom p n ≤ n := absentRun_le _ _ _

theorem holds_of_lt {v : ℕ} (h₁ : p ≤ v) (h₂ : v < p + k.absentFrom p n) : k.holds v = false := by
  obtain ⟨j, rfl⟩ := Nat.exists_eq_add_of_le h₁
  have hj : j < absentRun k.present (k.region.ptr / pageSize + p) n := by
    rw [absentFrom] at h₂
    omega
  have h := absent_of_lt hj
  rwa [Nat.add_assoc] at h

theorem holds_absentFrom (h : k.absentFrom p n < n) : k.holds (p + k.absentFrom p n) = true := by
  have h' := present_of_absentRun_lt h
  rwa [Nat.add_assoc] at h'

/-- All the pages are absent exactly if the run is as long as asked. -/
theorem absentFrom_eq_iff : k.absentFrom p n = n ↔ ∀ v, p ≤ v → v < p + n → k.holds v = false := by
  constructor
  · intro h v h₁ h₂
    exact holds_of_lt h₁ (by rw [h]; exact h₂)
  · intro h
    by_contra hne
    have hlt := Nat.lt_of_le_of_ne absentFrom_le hne
    have hp := holds_absentFrom hlt
    rw [h _ (Nat.le_add_right _ _) (by omega)] at hp
    cases hp

/-- The run is empty exactly if the first page is present. -/
theorem absentFrom_eq_zero_iff (hn : 0 < n) : k.absentFrom p n = 0 ↔ k.holds p = true := by
  constructor
  · intro h
    have hp := holds_absentFrom (k := k) (p := p) (n := n) (by omega)
    rwa [h] at hp
  · intro h
    by_contra hne
    have hp := holds_of_lt (k := k) (p := p) (n := n) le_rfl (by omega)
    rw [h] at hp
    cases hp

end Kernel

/-- A reset leaves no page of the region present. -/
theorem Kernel.holds_dontneed {r : Region} {k : Kernel} (hk : k.region = r) {v : ℕ}
    (hv : v < r.pages) : k.dontneed.holds v = false := by
  have hrange : k.region.ptr / pageSize ≤ k.region.ptr / pageSize + v ∧
      k.region.ptr / pageSize + v < (k.region.ptr + k.region.len) / pageSize := by
    have h₁ := r.ptr_aligned
    have h₂ := r.len_aligned
    unfold Region.pages at hv
    rw [hk]
    simp only [pageSize] at *
    omega
  exact if_pos hrange

/-- The kernel, having noted a request. -/
def Kernel.noted (k : Kernel) (c : UffdioCopy) : Kernel := { k with copies := k.copies ++ [c] }

/-- What the ioctl does with a request for some pages of the region. -/
theorem Kernel.uffdioCopy_request {r : Region} {k : Kernel} (hk : k.region = r)
    (image : List UInt8) {p n : ℕ} (hn : 0 < n) (hin : p + n ≤ r.pages) :
    let c := r.request p n
    k.uffdioCopy image c =
      if k.absentFrom p n = n then
        ((none, ((n * pageSize : ℕ) : ℤ)), (k.noted c).install image c n)
      else if k.absentFrom p n = 0 then ((some .eexist, -Errno.eexist.code), k.noted c)
      else ((some .eagain, ((k.absentFrom p n * pageSize : ℕ) : ℤ)),
        (k.noted c).install image c (k.absentFrom p n)) := by
  intro c
  have hdst : c.dst = r.ptr + p * pageSize := rfl
  have hlen : c.len = n * pageSize := rfl
  have hpages : c.len / pageSize = n := Nat.mul_div_cancel n (by decide)
  have hrun : Kernel.absentRun k.present (c.dst / pageSize) (c.len / pageSize) =
      k.absentFrom p n := by
    rw [hpages, r.request_page, Kernel.absentFrom, hk]
  -- the request is aligned, not empty and inside the region, so EINVAL and ENOENT are out
  have hvalid : ¬ (c.dst % pageSize ≠ 0 ∨ c.len % pageSize ≠ 0 ∨ c.len = 0) := by
    have haligned := r.ptr_aligned
    simp only [pageSize] at *
    omega
  have hinside : ¬ (c.dst < k.region.ptr ∨ k.region.ptr + k.region.len < c.dst + c.len) := by
    have haligned := r.len_aligned
    have hall : r.pages = r.len / pageSize := rfl
    rw [hk]
    simp only [pageSize] at *
    omega
  unfold Kernel.uffdioCopy
  dsimp only
  rw [if_neg hvalid, if_neg hinside, hrun, hpages]
  by_cases hall : k.absentFrom p n = n
  · rw [if_pos hall, if_pos hall, hall]
    rfl
  · rw [if_neg hall, if_neg hall]
    rfl

/-- What `Uffd::copy` makes of it. -/
theorem copy_request {r : Region} {k : Kernel} (hk : k.region = r) (image : List UInt8) {p n : ℕ}
    (hn : 0 < n) (hin : p + n ≤ r.pages) :
    let c := r.request p n
    copy k image c.dst c.src c.len true =
      if k.absentFrom p n = n then (.ok (n * pageSize), (k.noted c).install image c n)
      else if k.absentFrom p n = 0 then (.ok 0, k.noted c)
      else (.error Errno.eagain.code, (k.noted c).install image c (k.absentFrom p n)) := by
  intro c
  -- `Uffd::copy` answers EEXIST with no bytes, wherever the kernel reports it
  have hcopy : copy k image c.dst c.src c.len true =
      match k.uffdioCopy image c with
      | ((some e, _), k) => (if e = .eexist then .ok 0 else .error e.code, k)
      | ((none, n), k) =>
          if n < 0 then (if n = -Errno.eexist.code then .ok 0 else .error (-n), k)
          else (.ok n.toNat, k) := rfl
  rw [hcopy, k.uffdioCopy_request hk image hn hin]
  by_cases hall : k.absentFrom p n = n
  · rw [if_pos hall, if_pos hall]
    dsimp only
    rw [if_neg (by omega), Int.toNat_natCast]
  · rw [if_neg hall, if_neg hall]
    by_cases hnone : k.absentFrom p n = 0
    · rw [if_pos hnone, if_pos hnone]
      rfl
    · rw [if_neg hnone, if_neg hnone]
      rfl

/-! ### Rounding an address down -/

/-- Clearing the lowest `k` bits. -/
theorem and_two_pow_sub_two_pow {x n k : ℕ} (hx : x < 2 ^ n) (hk : k ≤ n) :
    x &&& (2 ^ n - 2 ^ k) = x / 2 ^ k * 2 ^ k := by
  have hpos := Nat.two_pow_pos k
  have hle : 2 ^ k ≤ 2 ^ n := Nat.pow_le_pow_right (by norm_num) hk
  refine Nat.eq_of_testBit_eq fun i => ?_
  rw [Nat.testBit_and, show 2 ^ n - 2 ^ k = 2 ^ n - (2 ^ k - 1 + 1) by omega,
    Nat.testBit_two_pow_sub_succ (by omega), Nat.testBit_two_pow_sub_one, Nat.testBit_mul_two_pow,
    Nat.testBit_div_two_pow]
  rcases Nat.lt_or_ge i k with hik | hki
  · simp [hik, Nat.not_le.mpr hik]
  · rw [Nat.sub_add_cancel hki]
    rcases Nat.lt_or_ge i n with hin | hni
    · simp [hki, hin]
    · rw [Nat.testBit_lt_two_pow (hx.trans_le (Nat.pow_le_pow_right (by norm_num) hni))]
      simp

theorem toNat_and_not_pageMask (x : UInt64) :
    (x &&& ~~~(UInt64.ofNat pageSize - 1)).toNat = x.toNat / pageSize * pageSize := by
  rw [UInt64.toNat_and]
  exact and_two_pow_sub_two_pow (n := 64) (k := 12) x.toNat_lt (by norm_num)

end SystemsStudy.Uffd
