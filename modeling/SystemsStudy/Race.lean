/-
SystemsStudy/Race.lean

The driver and the device, one access of the region at a time.

`System.exec` lets the halves take turns call by call.  Here they run at the
same time: a `Race` also says where each half stands inside a call, and its
steps are single accesses of the region in one sequentially consistent order.
Three words are followed exactly, `avail.idx`, `used.idx` and `avail_event`;
every other store, to the table, a ring slot, a buffer or the other event, is
the step `other`, which may come at any time and write anything.  Loads of other
words are no steps of their own: where one changes a half, as the ids of the
used ring do, it is read in the step that uses it.

The driver publishes chains, collects completions, and asks `needsKick` after a
batch of at most 65535 chains.  The device drains the queue, enables
notifications, and sleeps unless that call found work; it wakes on a kick.

That the machine is the code's is shown call by call: `addChain`,
`collectUsed`, an iteration of the loop and `enableNotification` are each a
sequence of these steps, and `needsKick` is one of them.
-/
import SystemsStudy.System

namespace SystemsStudy

open Bytes Fallible

/-! ### The machine -/

/-- Where the driver stands. -/
inductive DriverAt where
  | ready
  /-- in `add_chain`: the store of `avail.idx` is still to come -/
  | publishing
  /-- in `collect_used`, with the `used.idx` it loaded -/
  | collecting (usedIdx : UInt16)

/-- Where the device stands. -/
inductive DeviceAt where
  | asleep
  /-- about to ask whether a chain is available -/
  | draining
  /-- a head is popped: the store of `used.idx` is still to come -/
  | serving
  /-- nothing was available: `enable_notification` is next -/
  | enabling
  /-- in `enable_notification`: the load of `avail.idx` is still to come -/
  | checking
  deriving DecidableEq

/-- The two halves at work at the same time, each between two accesses of the region. -/
structure Race where
  mem : SharedMem
  driver : Driver
  device : Device
  driverAt : DriverAt := .ready
  deviceAt : DeviceAt := .asleep
  /-- Chains published since `needsKick` was last evaluated. -/
  batch : ℕ := 0
  /-- A kick the device has not woken on. -/
  kick : Bool := false

/-- The three words the halves follow are the same. -/
structure VirtqLayout.SameIndices (l : VirtqLayout) (m m' : SharedMem) : Prop where
  len : m'.len = m.len
  availIdx : SharedMem.SameOn m' m l.availIdx (l.availIdx + 2)
  usedIdx : SharedMem.SameOn m' m l.usedIdx (l.usedIdx + 2)
  availEvent : SharedMem.SameOn m' m l.availEvent (l.availEvent + 2)

namespace Race

/-- Fresh halves with `EVENT_IDX`; the device is asleep. -/
def init (mem : SharedMem) (driver : Driver) : Race :=
  { mem, driver, device := Device.new driver.layout true }

/-- An access other than the one `needsKick` makes. -/
inductive Silent : Race → Race → Prop
  /-- a store that meets none of the three words -/
  | other {s m} : s.device.layout.SameIndices s.mem m → Silent s { s with mem := m }
  -- the driver
  | take {s head rest free} : s.driverAt = .ready →
      s.driver.freeDescs = free ++ (head :: rest).reverse →
      Silent s { s with driver := s.driver.took head rest free, driverAt := .publishing }
  | publish {s} : s.driverAt = .publishing → s.batch < 65535 →
      Silent s { s with
        driver := s.driver.published
        mem := s.mem.put s.driver.layout.availIdx (toLe 2 (s.driver.availIdx + 1).toNat)
        driverAt := .ready
        batch := s.batch + 1 }
  | loadUsed {s} : s.driverAt = .ready →
      Silent s { s with driverAt := .collecting (s.mem.word16 s.driver.layout.usedIdx) }
  | collect {s u} : s.driverAt = .collecting u → s.driver.lastUsed ≠ u →
      Silent s { s with driver := s.driver.collected (s.driver.nextCompletion s.mem).1 }
  | collected {s u} : s.driverAt = .collecting u → s.driver.lastUsed = u →
      Silent s { s with driverAt := .ready }
  -- the device
  | wake {s} : s.deviceAt = .asleep → s.kick = true →
      Silent s { s with deviceAt := .draining, kick := false }
  | pop {s} : s.deviceAt = .draining → s.device.pending s.mem ≠ 0 →
      Silent s { s with device := s.device.popped, deviceAt := .serving }
  | complete {s} : s.deviceAt = .serving →
      Silent s { s with
        device := s.device.completed
        mem := s.mem.put s.device.layout.usedIdx (toLe 2 (s.device.nextUsed + 1).toNat)
        deviceAt := .draining }
  | notify {s b t} : s.deviceAt = .draining →
      Device.needsNotification (s.device, s.mem) = .ok b t →
      Silent s { s with device := t.1, mem := t.2 }
  | drained {s} : s.deviceAt = .draining → s.device.pending s.mem = 0 →
      Silent s { s with deviceAt := .enabling }
  | enable {s} : s.deviceAt = .enabling →
      Silent s { s with mem := s.device.notifyOn s.mem, deviceAt := .checking }
  | sleep {s} : s.deviceAt = .checking → s.device.pending s.mem = 0 →
      Silent s { s with deviceAt := .asleep }
  | resume {s} : s.deviceAt = .checking → s.device.pending s.mem ≠ 0 →
      Silent s { s with deviceAt := .draining }

/-- Any access.  The answer of `needsKick` is a kick or none; one that is
pending stays. -/
inductive Step : Race → Race → Prop
  | silent {s s'} : Silent s s' → Step s s'
  | evaluate {s b t} : s.driverAt = .ready → Driver.needsKick (s.driver, s.mem) = .ok b t →
      Step s { s with driver := t.1, mem := t.2, batch := 0, kick := s.kick || b }

end Race

/-! ### Stores that meet none of the three words -/

namespace VirtqLayout

variable {l : VirtqLayout} {m m₁ m₂ : SharedMem}

theorem SameIndices.refl (m : SharedMem) : l.SameIndices m m :=
  ⟨rfl, fun _ _ _ => rfl, fun _ _ _ => rfl, fun _ _ _ => rfl⟩

theorem SameIndices.trans (h : l.SameIndices m m₁) (h' : l.SameIndices m₁ m₂) :
    l.SameIndices m m₂ where
  len := h'.len.trans h.len
  availIdx := h'.availIdx.trans h.availIdx
  usedIdx := h'.usedIdx.trans h.usedIdx
  availEvent := h'.availEvent.trans h.availEvent

/-- A store to a used element. -/
theorem sameIndices_putUsedElem (pos head : UInt16) (len : UInt32) :
    l.SameIndices m ((m.put (l.usedBase pos) (toLe 4 head.toUInt32.toNat)).put
      (l.usedBase pos + 4) (toLe 4 len.toNat)) := by
  have hlo := l.le_usedBase pos
  have hhi := l.usedBase_add_le pos
  have hlay := l.bounds
  have hsame : ∀ a, a + 2 ≤ l.usedBase pos ∨ l.usedBase pos + 8 ≤ a →
      SharedMem.SameOn ((m.put (l.usedBase pos) (toLe 4 head.toUInt32.toNat)).put
        (l.usedBase pos + 4) (toLe 4 len.toNat)) m a (a + 2) := by
    intro a ha
    exact (SharedMem.sameOn_put _ (by rw [length_toLe]; omega)).trans
      (SharedMem.sameOn_put _ (by rw [length_toLe]; omega))
  exact
    { len := by rw [SharedMem.len_put, SharedMem.len_put]
      availIdx := hsame _ (by omega)
      usedIdx := hsame _ (by omega)
      availEvent := hsame _ (by omega) }

/-- The stores to the table and the avail slot. -/
theorem sameIndices_putEntries {es : List (UInt16 × Descriptor)}
    (h : ∀ e ∈ es, e.1.toNat < l.qs) (pos head : UInt16) :
    l.SameIndices m ((l.putEntries es m).put (l.availSlot pos) (toLe 2 head.toNat)) := by
  have hlo := l.le_availSlot pos
  have hhi := l.availSlot_add_le pos
  have hlay := l.bounds
  have hsame : ∀ a, l.availRing ≤ a → a + 2 ≤ l.availSlot pos ∨ l.availSlot pos + 2 ≤ a →
      SharedMem.SameOn ((l.putEntries es m).put (l.availSlot pos) (toLe 2 head.toNat)) m a
        (a + 2) := by
    intro a hle ha
    refine (SharedMem.sameOn_put _ (by rw [length_toLe]; omega)).trans (sameOn_putEntries ?_)
    intro e he
    have := h e he
    rw [descAddr]
    omega
  exact
    { len := by rw [SharedMem.len_put, len_putEntries]
      availIdx := hsame _ (by omega) (by omega)
      usedIdx := hsame _ (by omega) (by omega)
      availEvent := hsame _ (by omega) (by omega) }

/-- Scattering into buffers that do not overlap the queue. -/
theorem sameIndices_scatter {response : List UInt8} {ds : List Descriptor} {written : UInt32}
    {err : Option MemError}
    (h : ScatterSpec response (writableOf ds) m 0 0 m₁ written err)
    (hclear : ∀ d ∈ ds, d.isWriteOnly = true → l.Clear d.addr.toNat d.len.toNat) :
    l.SameIndices m m₁ := by
  have hlay := l.bounds
  have hsame : SharedMem.SameOn m₁ m l.descTable l.endAddr := by
    intro i hlo hhi
    apply h.frame
    intro p hp
    obtain ⟨b, hb, haddr, hlen⟩ := exists_of_mem_pieces (mem_pieces_of_mem_writtenPieces hp)
    obtain ⟨d, hd, hwrite, rfl⟩ := mem_writableOf.mp hb
    dsimp only at haddr hlen
    rcases hclear d hd hwrite with hclear | hclear <;> omega
  exact
    { len := h.len_eq
      availIdx := hsame.mono (by omega) (by omega)
      usedIdx := hsame.mono (by omega) (by omega)
      availEvent := hsame.mono (by omega) (by omega) }

end VirtqLayout

/-! ### The calls as sequences of accesses -/

namespace Race

open Relation

variable {s : Race}

/-- `addChain` takes descriptors, stores, and last moves `avail.idx`. -/
theorem addChain {bufs : List Buffer} {head : UInt16} {t : Driver × SharedMem}
    (howned : s.driver.Owned) (hcov : s.driver.layout.Covered s.mem)
    (hl : s.device.layout = s.driver.layout) (hat : s.driverAt = .ready)
    (hbatch : s.batch < 65535) (hok : Driver.addChain bufs (s.driver, s.mem) = .ok head t) :
    ReflTransGen Silent s
      { s with driver := t.1, mem := t.2, driverAt := .ready, batch := s.batch + 1 } := by
  obtain ⟨rest, free, -, -, hlen, hfree, rfl⟩ := Driver.addChain_inv howned hcov hok
  have hidx : ∀ e ∈ chainEntries (head :: rest) bufs, e.1.toNat < s.driver.layout.qs := by
    intro e he
    exact howned.lt_of_free (mem_of_popped hfree (fst_mem_chainEntries hlen he))
  have hother := VirtqLayout.sameIndices_putEntries (m := s.mem) hidx s.driver.availIdx head
  rw [← hl] at hother
  -- taking is local; then come the stores before `avail.idx`, and `avail.idx` itself
  set s₁ : Race := { s with driver := s.driver.took head rest free, driverAt := .publishing }
  have h₁ : Silent s s₁ := .take hat hfree
  have h₂ : Silent s₁ { s₁ with mem := _ } := .other hother
  rw [hl] at h₂
  exact ((ReflTransGen.single h₁).tail h₂).tail (.publish rfl hbatch)

/-- The collecting loop follows the `used.idx` it was given. -/
theorem collectLoop {u : UInt16} {fuel : ℕ} {cs : List (UInt16 × UInt32)}
    {t : Driver × SharedMem} (hcov : s.driver.layout.Covered s.mem)
    (hat : s.driverAt = .collecting u)
    (hok : Driver.collectLoop u fuel (s.driver, s.mem) = .ok cs t) :
    ReflTransGen Silent s { s with driver := t.1, mem := t.2, driverAt := .ready } := by
  induction fuel generalizing s cs with
  | zero =>
      by_cases heq : s.driver.lastUsed = u
      · rw [Driver.collectLoop_stop heq] at hok
        cases hok
        exact .single (.collected hat heq)
      · unfold Driver.collectLoop at hok
        rw [bind_ok (Half.self_run _), if_neg heq] at hok
        cases hok
  | succ fuel ih =>
      by_cases heq : s.driver.lastUsed = u
      · rw [Driver.collectLoop_stop heq] at hok
        cases hok
        exact .single (.collected hat heq)
      · rw [Driver.collectLoop_succ heq, bind_ok (Driver.collectOne_ok hcov)] at hok
        obtain ⟨rest, t', hrest, hret⟩ := bind_eq_ok.mp hok
        cases hret
        -- one slot is read, and the loop goes on with the same `used.idx`
        set s₁ : Race := { s with driver := s.driver.collected (s.driver.nextCompletion s.mem).1 }
        have h₁ : Silent s s₁ := .collect hat heq
        have hcov₁ : s₁.driver.layout.Covered s₁.mem := by
          show (s.driver.collected _).layout.Covered s.mem
          rw [Driver.layout_collected]
          exact hcov
        exact (ReflTransGen.single h₁).trans (ih hcov₁ hat hrest)

/-- `collectUsed` loads `used.idx` once and then reads slot after slot. -/
theorem collectUsed {cs : List (UInt16 × UInt32)} {t : Driver × SharedMem}
    (hcov : s.driver.layout.Covered s.mem) (hat : s.driverAt = .ready)
    (hok : Driver.collectUsed (s.driver, s.mem) = .ok cs t) :
    ReflTransGen Silent s { s with driver := t.1, mem := t.2, driverAt := .ready } := by
  have hl : s.mem.loadIdxAcquire s.driver.layout.usedIdx =
      .ok (s.mem.word16 s.driver.layout.usedIdx) := by
    rw [SharedMem.loadIdxAcquire, s.mem.readU16_eq, if_pos hcov.usedIdx]
  rw [Driver.collectUsed, Driver.collectWithin, bind_ok (Half.self_run _),
    bind_ok (Half.load_ok hl)] at hok
  have h₁ : Silent s { s with driverAt := .collecting _ } := .loadUsed hat
  exact (ReflTransGen.single h₁).trans (collectLoop hcov rfl hok)

/-- Popping a head, stores to its buffers and the used slot, and the store of
`used.idx`. -/
theorem popComplete {m : SharedMem} (hat : s.deviceAt = .draining)
    (hp : s.device.pending s.mem ≠ 0) (hm : s.device.layout.SameIndices s.mem m) (head : UInt16)
    (len : UInt32) :
    ReflTransGen Silent s
      { s with
        device := s.device.popped.completed
        mem := s.device.layout.putUsed m s.device.nextUsed head len
        deviceAt := .draining } := by
  set s₁ : Race := { s with device := s.device.popped, deviceAt := .serving }
  have h₁ : Silent s s₁ := .pop hat hp
  have hslot := hm.trans (VirtqLayout.sameIndices_putUsedElem s.device.nextUsed head len)
  have h₂ : Silent s₁ { s₁ with mem := _ } := .other hslot
  exact ((ReflTransGen.single h₁).tail h₂).tail (.complete rfl)

/-- An iteration of the device's loop that serves a chain clear of the queue. -/
theorem serve {ω : Type} {work : Work ω} {w : ω} {c : UInt16 × UInt32}
    {t : Process ω × SharedMem} (hcov : s.device.layout.Covered s.mem)
    (hclear : ∀ ds, (s.device.chain s.mem (s.device.nextHead s.mem)).collect
        (s.device.layout.qs + 1) = .ok (ds, none) →
      ∀ d ∈ ds, d.isWriteOnly = true → s.device.layout.Clear d.addr.toNat d.len.toNat)
    (hat : s.deviceAt = .draining)
    (hstep : Process.step work (Process.start s.device w s.mem) = .ok (some c) t) :
    ReflTransGen Silent s { s with device := t.1.dev, mem := t.2, deviceAt := .draining } := by
  have hs : Process.Covered (Process.start s.device w s.mem) := hcov
  have hp := Process.pending_ne_zero_of_step hs hstep
  obtain ⟨p', m'⟩ := t
  cases Process.stepSpec_of_step hs hstep with
  | refused => exact popComplete hat hp (.refl _) _ _
  | @served ds response w' m₁ written err _ hw hwork hsc =>
      have hcollect := (ChainIter.collect_eq_ok (Nat.lt_succ_self _)).mpr hw
      exact popComplete hat hp (VirtqLayout.sameIndices_scatter hsc (hclear ds hcollect)) _ _

/-- `enableNotification` stores the threshold and then looks again; its answer
decides whether the device sleeps. -/
theorem enableNotification {b : Bool} {t : Device × SharedMem}
    (hcov : s.device.layout.Covered s.mem) (hat : s.deviceAt = .enabling)
    (hok : Device.enableNotification (s.device, s.mem) = .ok b t) :
    ReflTransGen Silent s
      { s with device := t.1, mem := t.2, deviceAt := if b then .draining else .asleep } := by
  rw [Device.enableNotification_ok hcov] at hok
  cases hok
  have h₁ : Silent s { s with mem := s.device.notifyOn s.mem, deviceAt := .checking } :=
    .enable hat
  by_cases hz : s.device.pending (s.device.notifyOn s.mem) = 0
  · rw [hz]
    exact (ReflTransGen.single h₁).tail (.sleep rfl hz)
  · rw [bne_iff_ne.mpr hz, if_pos rfl]
    exact (ReflTransGen.single h₁).tail (.resume rfl hz)

end Race

end SystemsStudy
