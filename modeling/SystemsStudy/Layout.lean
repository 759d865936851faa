/-
SystemsStudy/Layout.lean

`layout.rs`: the split virtqueue memory layout.

A virtqueue is an agreement about the meaning of bytes at three addresses: the
descriptor table, the avail ring (written by the driver) and the used ring
(written by the device).  A `VirtqLayout` is here what `VirtqLayout::new`
returns: the queue size is a power of two and the three parts lie one after
the other, each aligned, so no proof below asks for these facts again.

The two ring counters are free running and 16 bits wide.  The accessors
`availSlot` and `usedSlot` take the counter and reduce it modulo the queue
size; `availSlot_ofNat` and `usedSlot_ofNat` say that this is the slot of the
unbounded position the counter stands for, across the wrap at `2 ^ 16`.
-/
import SystemsStudy.Mem
import SystemsStudy.Lib.Rolling

namespace SystemsStudy

/-! ### Descriptors -/

/-- Size of one descriptor: `le64 addr, le32 len, le16 flags, le16 next`. -/
def descSize : ℕ := 16

/-- This descriptor is not the last in its chain. -/
def virtqDescFNext : UInt16 := 1
/-- The buffer is device-writable. -/
def virtqDescFWrite : UInt16 := 2
/-- The buffer contains a table of descriptors rather than data. -/
def virtqDescFIndirect : UInt16 := 4
/-- In `used.flags`, set by the device: do not notify me. -/
def virtqUsedFNoNotify : UInt16 := 1

/-- One entry in the descriptor table, as the driver wrote it. -/
structure Descriptor where
  addr : UInt64
  len : UInt32
  flags : UInt16
  next : UInt16
  deriving DecidableEq, Repr

namespace Descriptor

/-- The chain goes on at `next`. -/
def hasNext (d : Descriptor) : Bool := d.flags &&& virtqDescFNext != 0

/-- The device writes the buffer, and does not read it. -/
def isWriteOnly (d : Descriptor) : Bool := d.flags &&& virtqDescFWrite != 0

/-- The buffer holds a table of descriptors. -/
def isIndirect (d : Descriptor) : Bool := d.flags &&& virtqDescFIndirect != 0

end Descriptor

/-! ### The layout -/

/-- Where each part of a split virtqueue lives in shared memory. -/
structure VirtqLayout where
  queueSize : UInt16
  descTable : ℕ
  availRing : ℕ
  usedRing : ℕ
  pow2 : ∃ k ≤ 15, queueSize.toNat = 2 ^ k
  table_le : descTable + descSize * queueSize.toNat ≤ availRing
  avail_le : availRing + 4 + 2 * queueSize.toNat + 2 ≤ usedRing
  table_aligned : descTable % 16 = 0
  avail_aligned : availRing % 2 = 0
  used_aligned : usedRing % 4 = 0
  deriving DecidableEq

/-- The alignments the specification requires of the table, -/
def descAlign : ℕ := 16

/-- of the avail ring, -/
def availAlign : ℕ := 2

/-- and of the used ring. -/
def usedAlign : ℕ := 4

/-- The least multiple of `align` from `v` on. -/
def alignUp (v align : ℕ) : ℕ := (v + align - 1) / align * align

theorem le_alignUp {v align : ℕ} (h : 0 < align) : v ≤ alignUp v align := by
  have h₁ := Nat.div_add_mod (v + align - 1) align
  have h₂ := Nat.mod_lt (v + align - 1) h
  rw [alignUp, Nat.mul_comm]
  omega

theorem alignUp_mod (v align : ℕ) : alignUp v align % align = 0 :=
  Nat.mul_mod_left _ _

/-- A size that passes the assertion of `VirtqLayout::new`. -/
def ValidQueueSize (queueSize : UInt16) : Prop :=
  0 < queueSize ∧ queueSize.toNat.isPowerOfTwo ∧ queueSize ≤ 32768

instance (queueSize : UInt16) : Decidable (ValidQueueSize queueSize) :=
  inferInstanceAs (Decidable (_ ∧ _))

theorem ValidQueueSize.pow2 {queueSize : UInt16} (h : ValidQueueSize queueSize) :
    ∃ k ≤ 15, queueSize.toNat = 2 ^ k := by
  obtain ⟨-, ⟨k, hk⟩, hle⟩ := h
  refine ⟨k, ?_, hk⟩
  have hle' : queueSize.toNat ≤ 2 ^ 15 := UInt16.le_iff_toNat_le.mp hle
  rw [hk] at hle'
  exact (Nat.pow_le_pow_iff_right (by norm_num)).mp hle'

namespace VirtqLayout

/-- Lay out a queue of `queueSize` entries starting at `base`.  `none` where
the source panics: the assertion on the size fails or an address overflows. -/
def new (base : ℕ) (queueSize : UInt16) : Option VirtqLayout :=
  if h : ValidQueueSize queueSize then
    let qs := queueSize.toNat
    let descTable := alignUp base descAlign
    let availRing := alignUp (descTable + descSize * qs) availAlign
    -- avail: flags(2) + idx(2) + ring(2*qs) + used_event(2)
    let usedRing := alignUp (availRing + 4 + 2 * qs + 2) usedAlign
    if usedRing < 2 ^ 64 then
      some
        { queueSize, descTable, availRing, usedRing
          pow2 := h.pow2
          table_le := le_alignUp (by decide)
          avail_le := le_alignUp (by decide)
          table_aligned := alignUp_mod _ _
          avail_aligned := alignUp_mod _ _
          used_aligned := alignUp_mod _ _ }
    else none
  else none

variable (l : VirtqLayout)

/-- The queue size as a number. -/
def qs : ℕ := l.queueSize.toNat

/-- Total bytes occupied. -/
def totalSize : ℕ :=
  -- used: flags(2) + idx(2) + ring(8*qs) + avail_event(2)
  (l.usedRing + 4 + 8 * l.qs + 2) - l.descTable

/-- The first address after the layout. -/
def endAddr : ℕ := l.descTable + l.totalSize

/-- Address of descriptor `index`, or `none` if the index is out of range. -/
def desc (index : UInt16) : Option ℕ :=
  if index ≥ l.queueSize then none else some (l.descTable + index.toNat * descSize)

/-! #### The avail ring: written by the driver, read by the device -/

/-- The flags of the driver, at the start of the avail ring. -/
def availFlags : ℕ := l.availRing

/-- Where the driver publishes how many chains it has made available. -/
def availIdx : ℕ := l.availRing + 2

/-- Slot for the `i`-th entry ever published. -/
def availSlot (i : UInt16) : ℕ := l.availRing + 4 + (i % l.queueSize).toNat * 2

/-- "Do not interrupt me until `used.idx` reaches this value plus one." -/
def usedEvent : ℕ := l.availRing + 4 + l.queueSize.toNat * 2

/-! #### The used ring: written by the device, read by the driver -/

/-- The flags of the device, at the start of the used ring. -/
def usedFlags : ℕ := l.usedRing

/-- Where the device publishes how many chains it has completed. -/
def usedIdx : ℕ := l.usedRing + 2

/-- Addresses of `(id, len)` for the `i`-th completion ever published. -/
def usedSlot (i : UInt16) : ℕ × ℕ :=
  let base := l.usedRing + 4 + (i % l.queueSize).toNat * 8
  (base, base + 4)

/-- "Do not notify me until `avail.idx` reaches this value plus one." -/
def availEvent : ℕ := l.usedRing + 4 + l.queueSize.toNat * 8

/-! #### Sizes and positions -/

theorem qs_pos : 0 < l.qs := by
  obtain ⟨k, -, hk⟩ := l.pow2
  rw [qs, hk]
  exact Nat.two_pow_pos k

theorem qs_le : l.qs ≤ 32768 := by
  obtain ⟨k, hk, h⟩ := l.pow2
  rw [qs, h]
  exact Nat.pow_le_pow_right (by norm_num) hk

theorem qs_dvd : l.queueSize.toNat ∣ 2 ^ 16 := by
  obtain ⟨k, hk, h⟩ := l.pow2
  rw [h]
  exact Nat.pow_dvd_pow 2 (by omega)

theorem table_end_le : l.descTable + 16 * l.qs ≤ l.availRing := l.table_le

theorem avail_end_le : l.availRing + 6 + 2 * l.qs ≤ l.usedRing := by
  have h := l.avail_le
  rw [qs]
  omega

theorem endAddr_eq : l.endAddr = l.usedRing + 6 + 8 * l.qs := by
  have h₁ := l.table_end_le
  have h₂ := l.avail_end_le
  rw [endAddr, totalSize]
  omega

/-- The parts and their fields in order, as omega needs them. -/
theorem bounds : l.descTable + 16 * l.qs ≤ l.availRing ∧ l.availIdx = l.availRing + 2 ∧
    l.usedEvent = l.availRing + 4 + l.qs * 2 ∧ l.availRing + 6 + 2 * l.qs ≤ l.usedRing ∧
    l.usedFlags = l.usedRing ∧ l.usedIdx = l.usedRing + 2 ∧
    l.availEvent = l.usedRing + 4 + l.qs * 8 ∧ l.endAddr = l.usedRing + 6 + 8 * l.qs :=
  ⟨l.table_end_le, rfl, rfl, l.avail_end_le, rfl, rfl, rfl, l.endAddr_eq⟩

theorem desc_eq_some {i : UInt16} {a : ℕ} :
    l.desc i = some a ↔ i.toNat < l.qs ∧ a = l.descTable + 16 * i.toNat := by
  unfold desc qs
  split
  next h =>
    have h' : l.queueSize.toNat ≤ i.toNat := UInt16.le_iff_toNat_le.mp h
    simp only [reduceCtorEq, false_iff, not_and]
    omega
  next h =>
    have h' : i.toNat < l.queueSize.toNat := by
      simpa [UInt16.le_iff_toNat_le] using h
    simp only [Option.some.injEq, descSize]
    omega

theorem availSlot_ofNat (n : ℕ) :
    l.availSlot (UInt16.ofNat n) = l.availRing + 4 + 2 * (n % l.qs) := by
  rw [availSlot, Rolling.toNat_ofNat_mod l.qs_dvd, qs, Nat.mul_comm]

theorem usedSlot_ofNat (n : ℕ) :
    l.usedSlot (UInt16.ofNat n) =
      (l.usedRing + 4 + 8 * (n % l.qs), l.usedRing + 8 + 8 * (n % l.qs)) := by
  rw [usedSlot, Rolling.toNat_ofNat_mod l.qs_dvd, qs]
  simp only [Prod.mk.injEq]
  omega

theorem slot_lt (i : UInt16) : (i % l.queueSize).toNat < l.qs := by
  rw [UInt16.toNat_mod]
  exact Nat.mod_lt _ l.qs_pos

end VirtqLayout

/-- The smallest queue: one descriptor, at address 0. -/
def unitQueue : VirtqLayout where
  queueSize := 1
  descTable := 0
  availRing := 16
  usedRing := 24
  pow2 := ⟨0, by decide, rfl⟩
  table_le := by decide
  avail_le := by decide
  table_aligned := rfl
  avail_aligned := rfl
  used_aligned := rfl

example : VirtqLayout.new 0 1 = some unitQueue := by decide

/-- Two descriptors at address 0. -/
def pairQueue : VirtqLayout where
  queueSize := 2
  descTable := 0
  availRing := 32
  usedRing := 44
  pow2 := ⟨1, by decide, rfl⟩
  table_le := by decide
  avail_le := by decide
  table_aligned := rfl
  avail_aligned := rfl
  used_aligned := rfl

example : VirtqLayout.new 0 2 = some pairQueue := by decide

/-- Four descriptors at address 0. -/
def quadQueue : VirtqLayout where
  queueSize := 4
  descTable := 0
  availRing := 64
  usedRing := 80
  pow2 := ⟨2, by decide, rfl⟩
  table_le := by decide
  avail_le := by decide
  table_aligned := rfl
  avail_aligned := rfl
  used_aligned := rfl

/-! ### The notification-suppression predicate -/

/-- Has the counter crossed `event + 1` since it stood at `old`? -/
def needEvent (event new old : UInt16) : Bool :=
  new - event - 1 < new - old

/-- The counter has crossed `event + 1` exactly if `event` is one of the counters
of the batch, `old` included and `new` not. -/
theorem needEvent_iff (event new old : UInt16) :
    needEvent event new old = true ↔ event - old < new - old := by
  rw [needEvent, decide_eq_true_eq, Rolling.sub_sub_one_lt_iff]

end SystemsStudy
