/-
SystemsStudy/Device.lean

`device.rs`: the device side of the virtqueue, without the processing loop.

A `Device` holds only indices; every method takes the region next to them.
Over a region that covers the layout no method fails, and each is described by
one equation: what it returns, and the device and region it leaves behind
(`available_ok`, `popChainHead_some`, `addUsed_ok`, ...).  A completion writes
the used slot of its position and then the used index; `putUsed` is that
effect as an operation on the region, and the lemmas about it are the frame
conditions the later modules use.
-/
import SystemsStudy.Chain

namespace SystemsStudy

open Bytes Fallible

/-! ### The device and its single operations -/

/-- The device half of one virtqueue. -/
structure Device where
  layout : VirtqLayout
  /-- The next entry of the avail ring this device has not yet consumed. -/
  nextAvail : UInt16
  /-- The next slot of the used ring this device will write. -/
  nextUsed : UInt16
  /-- Completions added since the last `needsNotification` call. -/
  numAdded : UInt16
  eventIdx : Bool
  deriving DecidableEq

/-- A method of the device. -/
abbrev DeviceM (α : Type) := Half Device MemError α

namespace Device

open Half

/-- A device that has consumed and completed nothing. -/
def new (layout : VirtqLayout) (eventIdx : Bool) : Device :=
  { layout, nextAvail := 0, nextUsed := 0, numAdded := 0, eventIdx }

/-- How many chains the driver has made available that this device has not
consumed. -/
def available : DeviceM UInt16 := do
  let d ← self
  let availIdx ← load (·.loadIdxAcquire d.layout.availIdx)
  return availIdx - d.nextAvail

/-- Take the head index of the next available chain. -/
def popChainHead : DeviceM (Option UInt16) := do
  if (← available) = 0 then return none
  let d ← self
  let head ← load (·.readU16 (d.layout.availSlot d.nextAvail))
  modifySelf fun d => { d with nextAvail := d.nextAvail + 1 }
  return some head

/-- Iterate the descriptors of a chain. -/
def chain (d : Device) (mem : SharedMem) (head : UInt16) : ChainIter :=
  ChainIter.new mem d.layout head

/-- Publish a completion: chain `head` is finished, with `len` bytes written. -/
def addUsed (head : UInt16) (len : UInt32) : DeviceM Unit := do
  let d ← self
  let (idAddr, lenAddr) := d.layout.usedSlot d.nextUsed
  store (·.writeU32 idAddr head.toUInt32)
  store (·.writeU32 lenAddr len)
  modifySelf fun d => { d with nextUsed := d.nextUsed + 1, numAdded := d.numAdded + 1 }
  let d ← self
  store (·.storeIdxRelease d.layout.usedIdx d.nextUsed)

/-- Should the device interrupt the driver? -/
def needsNotification : DeviceM Bool := do
  let d ← self
  if d.eventIdx = false then
    modifySelf fun d => { d with numAdded := 0 }
    return true
  let usedEvent ← load (·.loadRelaxed d.layout.usedEvent)
  let old := d.nextUsed - d.numAdded
  modifySelf fun d => { d with numAdded := 0 }
  return needEvent usedEvent d.nextUsed old

/-- Ask the driver to notify us again, and report whether work arrived while
we were not looking. -/
def enableNotification : DeviceM Bool := do
  let d ← self
  if d.eventIdx then
    store (·.writeU16 d.layout.availEvent d.nextAvail)
  else
    let flags ← load (·.readU16 d.layout.usedFlags)
    store (·.writeU16 d.layout.usedFlags (flags &&& ~~~virtqUsedFNoNotify))
  return (← available) != 0

/-- Ask for no notifications; with `EVENT_IDX` there is no flag to set. -/
def disableNotification : DeviceM Unit := do
  let d ← self
  if d.eventIdx then
    return ()
  else
    let flags ← load (·.readU16 d.layout.usedFlags)
    store (·.writeU16 d.layout.usedFlags (flags ||| virtqUsedFNoNotify))

end Device

/-! ### Regions that cover the layout -/

namespace VirtqLayout

/-- The region covers the whole layout. -/
def Covered (l : VirtqLayout) (m : SharedMem) : Prop := l.endAddr ≤ m.len

instance (l : VirtqLayout) (m : SharedMem) : Decidable (l.Covered m) :=
  inferInstanceAs (Decidable (_ ≤ _))

/-- Address of the used element for the `i`-th completion. -/
def usedBase (l : VirtqLayout) (i : UInt16) : ℕ := (l.usedSlot i).1

variable {l : VirtqLayout} {m : SharedMem}

theorem usedSlot_eq (i : UInt16) : l.usedSlot i = (l.usedBase i, l.usedBase i + 4) := rfl

theorem le_usedBase (i : UInt16) : l.usedRing + 4 ≤ l.usedBase i := Nat.le_add_right _ _

theorem usedBase_add_le (i : UInt16) : l.usedBase i + 8 ≤ l.usedRing + 4 + 8 * l.qs := by
  have h := l.slot_lt i
  show l.usedRing + 4 + (i % l.queueSize).toNat * 8 + 8 ≤ _
  omega

theorem le_availSlot (i : UInt16) : l.availRing + 4 ≤ l.availSlot i := Nat.le_add_right _ _

theorem availSlot_add_le (i : UInt16) : l.availSlot i + 2 ≤ l.availRing + 4 + 2 * l.qs := by
  have h := l.slot_lt i
  show l.availRing + 4 + (i % l.queueSize).toNat * 2 + 2 ≤ _
  omega

/-- A field that ends within the layout lies in the region. -/
theorem Covered.le (h : l.Covered m) {a : ℕ} (ha : a ≤ l.usedRing + 6 + 8 * l.qs) :
    a ≤ m.len := by
  have := l.endAddr_eq
  rw [Covered] at h
  omega

theorem Covered.availIdx (h : l.Covered m) : l.availIdx + 2 ≤ m.len := by
  have h₁ := l.avail_end_le
  exact h.le (by rw [VirtqLayout.availIdx]; omega)

theorem Covered.availSlot (h : l.Covered m) (i : UInt16) : l.availSlot i + 2 ≤ m.len := by
  have h₁ := l.avail_end_le
  have h₂ := availSlot_add_le (l := l) i
  exact h.le (by omega)

theorem Covered.usedEvent (h : l.Covered m) : l.usedEvent + 2 ≤ m.len := by
  have h₁ := l.avail_end_le
  exact h.le (by rw [VirtqLayout.usedEvent, ← qs]; omega)

theorem Covered.usedIdx (h : l.Covered m) : l.usedIdx + 2 ≤ m.len :=
  h.le (by rw [VirtqLayout.usedIdx]; omega)

theorem Covered.usedFlags (h : l.Covered m) : l.usedFlags + 2 ≤ m.len :=
  h.le (by rw [VirtqLayout.usedFlags]; omega)

theorem Covered.availEvent (h : l.Covered m) : l.availEvent + 2 ≤ m.len :=
  h.le (by rw [VirtqLayout.availEvent, ← qs]; omega)

theorem Covered.usedBase (h : l.Covered m) (i : UInt16) : l.usedBase i + 8 ≤ m.len := by
  have h₁ := usedBase_add_le (l := l) i
  exact h.le (by omega)

theorem Covered.desc (h : l.Covered m) {i : ℕ} (hi : i < l.qs) :
    l.descTable + 16 * i + 16 ≤ m.len := by
  have hlay := l.bounds
  exact h.le (by omega)

/-- The region after publishing the completion `(head, len)` at `pos`. -/
def putUsed (l : VirtqLayout) (m : SharedMem) (pos head : UInt16) (len : UInt32) : SharedMem :=
  ((m.put (l.usedBase pos) (toLe 4 head.toUInt32.toNat)).put (l.usedBase pos + 4)
    (toLe 4 len.toNat)).put l.usedIdx (toLe 2 (pos + 1).toNat)

@[simp] theorem len_putUsed (pos head : UInt16) (len : UInt32) :
    (l.putUsed m pos head len).len = m.len := by
  simp [putUsed]

theorem putUsed_getElem? {pos head : UInt16} {len : UInt32} {i : ℕ}
    (hslot : i < l.usedBase pos ∨ l.usedBase pos + 8 ≤ i)
    (hidx : i < l.usedIdx ∨ l.usedIdx + 2 ≤ i) :
    (l.putUsed m pos head len).buf[i]? = m.buf[i]? := by
  rw [putUsed, SharedMem.put_getElem? _ (by simpa using hidx),
    SharedMem.put_getElem? _ (by rw [length_toLe]; omega),
    SharedMem.put_getElem? _ (by rw [length_toLe]; omega)]

/-- Only the used slot and the used index change. -/
theorem sameOn_putUsed {pos head : UInt16} {len : UInt32} {lo hi : ℕ}
    (hslot : hi ≤ l.usedBase pos ∨ l.usedBase pos + 8 ≤ lo)
    (hidx : hi ≤ l.usedIdx ∨ l.usedIdx + 2 ≤ lo) :
    SharedMem.SameOn (l.putUsed m pos head len) m lo hi :=
  fun _ _ _ => putUsed_getElem? (by omega) (by omega)

/-- The used index lies in front of every used slot. -/
theorem usedIdx_add_le (i : UInt16) : l.usedIdx + 2 ≤ l.usedBase i := l.le_usedBase i

theorem word16_usedIdx_putUsed {pos : UInt16} (hb : l.usedBase pos + 8 ≤ m.len) (head : UInt16)
    (len : UInt32) : (l.putUsed m pos head len).word16 l.usedIdx = pos + 1 := by
  have hidx := usedIdx_add_le (l := l) pos
  exact SharedMem.word16_put_self _ _ (by simp only [SharedMem.len_put]; omega)

theorem word32_usedBase_putUsed {pos : UInt16} (hb : l.usedBase pos + 8 ≤ m.len) (head : UInt16)
    (len : UInt32) :
    (l.putUsed m pos head len).word32 (l.usedBase pos) = head.toUInt32 := by
  have hle := l.le_usedBase pos
  have e₁ : SharedMem.SameOn (l.putUsed m pos head len)
      (m.put (l.usedBase pos) (toLe 4 head.toUInt32.toNat)) (l.usedBase pos)
      (l.usedBase pos + 4) :=
    (SharedMem.sameOn_put _ (by rw [length_toLe, usedIdx]; omega)).trans
      (SharedMem.sameOn_put _ (by omega))
  rw [e₁.word32_eq, SharedMem.word32_put_self _ _ (by omega)]

theorem word32_usedLen_putUsed {pos : UInt16} (hb : l.usedBase pos + 8 ≤ m.len) (head : UInt16)
    (len : UInt32) :
    (l.putUsed m pos head len).word32 (l.usedBase pos + 4) = len := by
  have hle := l.le_usedBase pos
  have e₁ : SharedMem.SameOn (l.putUsed m pos head len)
      ((m.put (l.usedBase pos) (toLe 4 head.toUInt32.toNat)).put (l.usedBase pos + 4)
        (toLe 4 len.toNat)) (l.usedBase pos + 4) (l.usedBase pos + 4 + 4) :=
    SharedMem.sameOn_put _ (by rw [length_toLe, usedIdx]; omega)
  rw [e₁.word32_eq, SharedMem.word32_put_self _ _ (by simp; omega)]

end VirtqLayout

/-! ### What the operations do there -/

namespace Device

open Half

/-- What `available` returns: the published index minus the consumed one. -/
def pending (d : Device) (m : SharedMem) : UInt16 :=
  m.word16 d.layout.availIdx - d.nextAvail

/-- The head in the next avail slot. -/
def nextHead (d : Device) (m : SharedMem) : UInt16 :=
  m.word16 (d.layout.availSlot d.nextAvail)

/-- The device after taking a head. -/
def popped (d : Device) : Device := { d with nextAvail := d.nextAvail + 1 }

/-- The device after publishing a completion. -/
def completed (d : Device) : Device :=
  { d with nextUsed := d.nextUsed + 1, numAdded := d.numAdded + 1 }

variable {d : Device} {m : SharedMem}

/-- Reading the published index needs no more of the region than the index. -/
theorem available_of_inside (h : d.layout.availIdx + 2 ≤ m.len) :
    available (d, m) = .ok (d.pending m) (d, m) := by
  have hl : m.loadIdxAcquire d.layout.availIdx = .ok (m.word16 d.layout.availIdx) := by
    rw [SharedMem.loadIdxAcquire, m.readU16_eq, if_pos h]
  unfold available
  rw [bind_ok (self_run _), bind_ok (load_ok hl)]
  rfl

theorem available_ok (h : d.layout.Covered m) :
    available (d, m) = .ok (d.pending m) (d, m) :=
  available_of_inside h.availIdx

theorem popChainHead_none (h : d.layout.Covered m) (hp : d.pending m = 0) :
    popChainHead (d, m) = .ok none (d, m) := by
  unfold popChainHead
  rw [bind_ok (available_ok h), if_pos hp]
  rfl

theorem popChainHead_some (h : d.layout.Covered m) (hp : d.pending m ≠ 0) :
    popChainHead (d, m) = .ok (some (d.nextHead m)) (d.popped, m) := by
  have hl : m.readU16 (d.layout.availSlot d.nextAvail) = .ok (d.nextHead m) := by
    rw [m.readU16_eq, if_pos (h.availSlot _)]
    rfl
  unfold popChainHead
  rw [bind_ok (available_ok h), if_neg hp, bind_ok (self_run _), bind_ok (load_ok hl)]
  rfl

/-- Popping a head takes it from the next avail slot and leaves the region. -/
theorem popChainHead_eq_some {head : UInt16} {d' : Device} {m' : SharedMem}
    (h : popChainHead (d, m) = .ok (some head) (d', m')) :
    d' = d.popped ∧ m' = m ∧ head = d.nextHead m := by
  unfold popChainHead at h
  obtain ⟨n, s₁, hav, h⟩ := bind_eq_ok.mp h
  obtain rfl : s₁ = (d, m) := by
    unfold available at hav
    rw [bind_ok (self_run _)] at hav
    rcases hl : m.loadIdxAcquire d.layout.availIdx with e | v
    · rw [bind_error (load_error hl)] at hav
      cases hav
    · rw [bind_ok (load_ok hl)] at hav
      cases hav
      rfl
  split at h
  · cases h
  · -- a load that fails ends the call, so both words were read
    rw [bind_ok (self_run _)] at h
    rcases hl : m.readU16 (d.layout.availSlot d.nextAvail) with e | v
    · rw [bind_error (load_error hl)] at h
      cases h
    · rw [bind_ok (load_ok hl), bind_ok (modifySelf_run _ _)] at h
      cases h
      rw [m.readU16_eq] at hl
      split at hl
      · exact ⟨rfl, rfl, (Except.ok.inj hl).symm⟩
      · cases hl

/-- A completion needs no more of the region than its used slot. -/
theorem addUsed_ok (hb : d.layout.usedBase d.nextUsed + 8 ≤ m.len) (head : UInt16)
    (len : UInt32) :
    addUsed head len (d, m) =
      .ok () (d.completed, d.layout.putUsed m d.nextUsed head len) := by
  have hi := VirtqLayout.usedIdx_add_le (l := d.layout) d.nextUsed
  have h₁ := m.writeU32_eq (d.layout.usedBase d.nextUsed) head.toUInt32
  rw [if_pos (by omega)] at h₁
  have h₂ := (m.put (d.layout.usedBase d.nextUsed) (toLe 4 head.toUInt32.toNat)).writeU32_eq
    (d.layout.usedBase d.nextUsed + 4) len
  rw [if_pos (by simp; omega)] at h₂
  have h₃ := ((m.put (d.layout.usedBase d.nextUsed) (toLe 4 head.toUInt32.toNat)).put
    (d.layout.usedBase d.nextUsed + 4) (toLe 4 len.toNat)).writeU16_eq
      d.layout.usedIdx (d.nextUsed + 1)
  rw [if_pos (by simp only [SharedMem.len_put]; omega)] at h₃
  unfold addUsed
  rw [bind_ok (self_run _)]
  simp only [VirtqLayout.usedSlot_eq]
  rw [bind_ok (store_ok h₁), bind_ok (store_ok h₂), bind_ok (modifySelf_run _ _),
    bind_ok (self_run _)]
  exact store_ok h₃

/-- Without room for its slot a completion fails before it is published, and at
most the id was written. -/
theorem addUsed_fails (hb : m.len < d.layout.usedBase d.nextUsed + 8) (head : UInt16)
    (len : UInt32) :
    ∃ e m', addUsed head len (d, m) = .error (.err e) (d, m') ∧
      (m' = m ∨ m' = m.put (d.layout.usedBase d.nextUsed) (toLe 4 head.toUInt32.toNat)) := by
  have h₁ := m.writeU32_eq (d.layout.usedBase d.nextUsed) head.toUInt32
  unfold addUsed
  rw [bind_ok (self_run _)]
  simp only [VirtqLayout.usedSlot_eq]
  by_cases hid : d.layout.usedBase d.nextUsed + 4 ≤ m.len
  · rw [if_pos hid] at h₁
    have h₂ := (m.put (d.layout.usedBase d.nextUsed) (toLe 4 head.toUInt32.toNat)).writeU32_eq
      (d.layout.usedBase d.nextUsed + 4) len
    rw [if_neg (by rw [SharedMem.len_put]; omega)] at h₂
    rw [bind_ok (store_ok h₁), bind_error (store_error h₂)]
    exact ⟨_, _, rfl, .inr rfl⟩
  · rw [if_neg hid] at h₁
    rw [bind_error (store_error h₁)]
    exact ⟨_, _, rfl, .inl rfl⟩

/-- What a failed completion leaves of the region. -/
theorem addUsed_error (hb : m.len < d.layout.usedBase d.nextUsed + 8) (head : UInt16)
    (len : UInt32) :
    ∃ e m', addUsed head len (d, m) = .error (.err e) (d, m') ∧ m'.len = m.len ∧
      ∀ i, i < d.layout.usedBase d.nextUsed ∨ d.layout.usedBase d.nextUsed + 8 ≤ i →
        m'.buf[i]? = m.buf[i]? := by
  obtain ⟨e, m', he, rfl | rfl⟩ := addUsed_fails hb head len
  · exact ⟨e, _, he, rfl, fun _ _ => rfl⟩
  · refine ⟨e, _, he, SharedMem.len_put _ _ _, fun i hi => SharedMem.put_getElem? _ ?_⟩
    rw [length_toLe]
    omega

theorem needsNotification_ok (h : d.layout.Covered m) :
    needsNotification (d, m) =
      .ok (!d.eventIdx || needEvent (m.word16 d.layout.usedEvent) d.nextUsed
        (d.nextUsed - d.numAdded)) ({ d with numAdded := 0 }, m) := by
  have hl : m.loadRelaxed d.layout.usedEvent = .ok (m.word16 d.layout.usedEvent) := by
    rw [SharedMem.loadRelaxed, m.readU16_eq, if_pos h.usedEvent]
  unfold needsNotification
  rw [bind_ok (self_run _)]
  by_cases he : d.eventIdx = false
  · rw [if_pos he, show (!d.eventIdx || needEvent (m.word16 d.layout.usedEvent) d.nextUsed
      (d.nextUsed - d.numAdded)) = true by rw [he]; rfl]
    rfl
  · rw [if_neg he, bind_ok (load_ok hl), show (!d.eventIdx) = false by simpa using he,
      Bool.false_or]
    rfl

/-- The region after asking to be notified: the threshold moves to where the
device stopped, or the flag that suppresses notifications is cleared. -/
def notifyOn (d : Device) (m : SharedMem) : SharedMem :=
  if d.eventIdx then m.put d.layout.availEvent (toLe 2 d.nextAvail.toNat)
  else m.put d.layout.usedFlags
    (toLe 2 (m.word16 d.layout.usedFlags &&& ~~~virtqUsedFNoNotify).toNat)

/-- The region after asking not to be notified. -/
def notifyOff (d : Device) (m : SharedMem) : SharedMem :=
  if d.eventIdx then m
  else m.put d.layout.usedFlags
    (toLe 2 (m.word16 d.layout.usedFlags ||| virtqUsedFNoNotify).toNat)

theorem len_notifyOn : (d.notifyOn m).len = m.len := by
  unfold notifyOn
  split <;> exact SharedMem.len_put _ _ _

theorem enableNotification_ok (h : d.layout.Covered m) :
    enableNotification (d, m) =
      .ok (d.pending (d.notifyOn m) != 0) (d, d.notifyOn m) := by
  have hcov : d.layout.Covered (d.notifyOn m) := by
    rw [VirtqLayout.Covered, len_notifyOn]
    exact h
  have hav := available_ok hcov
  unfold enableNotification
  rw [bind_ok (self_run _)]
  by_cases he : d.eventIdx = true
  · -- with `EVENT_IDX` the threshold is stored
    have hs := m.writeU16_eq d.layout.availEvent d.nextAvail
    rw [if_pos h.availEvent] at hs
    rw [notifyOn, if_pos he] at hav ⊢
    rw [if_pos he, bind_ok (store_ok hs)]
    exact bind_ok hav
  · -- without it a flag is cleared
    have hl := m.readU16_eq d.layout.usedFlags
    rw [if_pos h.usedFlags] at hl
    have hs := m.writeU16_eq d.layout.usedFlags
      (m.word16 d.layout.usedFlags &&& ~~~virtqUsedFNoNotify)
    rw [if_pos h.usedFlags] at hs
    rw [notifyOn, if_neg he] at hav ⊢
    rw [if_neg he, bind_ok (load_ok hl), bind_ok (store_ok hs)]
    exact bind_ok hav

theorem disableNotification_ok (h : d.layout.Covered m) :
    disableNotification (d, m) = .ok () (d, d.notifyOff m) := by
  unfold disableNotification
  rw [bind_ok (self_run _)]
  by_cases he : d.eventIdx = true
  · rw [if_pos he, notifyOff, if_pos he]
    rfl
  · have hl := m.readU16_eq d.layout.usedFlags
    rw [if_pos h.usedFlags] at hl
    have hs := m.writeU16_eq d.layout.usedFlags
      (m.word16 d.layout.usedFlags ||| virtqUsedFNoNotify)
    rw [if_pos h.usedFlags] at hs
    rw [if_neg he, notifyOff, if_neg he, bind_ok (load_ok hl)]
    exact store_ok hs

end Device

end SystemsStudy
