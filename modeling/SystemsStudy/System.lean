/-
SystemsStudy/System.lean

A driver and a device over one region.

`System.exec` performs one call of either half, in any order the environment
likes, and reports what went through the queue.  The environment may also
write buffers.  What it may not do is let a buffer overlap the rings
(`Op.Admissible`); everything else about a call, such as the chain, the
response to it, or how often the other calls come, is arbitrary.

`Represents l s q` relates the system to the two queues `q` it implements: the
four free-running counters are the truncations of the positions of `q`, the
avail ring holds the requests still waiting, the used ring the answers still
waiting, and the descriptors belong to the chains between their publication
and their collection.  The proof that every call preserves it is in the next
module.
-/
import SystemsStudy.Encoding
import SystemsStudy.Frame
import SystemsStudy.Lib.Relay

namespace SystemsStudy

open Bytes Fallible

/-! ### The model -/

/-- Both halves of the queue over their region. -/
structure System where
  mem : SharedMem
  driver : Driver
  device : Device

/-- One call, by the side it is made on. -/
inductive Op where
  | addChain (buffers : List Buffer)
  | collectUsed
  | needsKick
  | armUsedEvent
  | alloc (data : List UInt8)
  | allocUninit (len : UInt32)
  /-- one iteration of the loop of `Device::process` -/
  | serve (work : List UInt8 → List UInt8)
  | needsNotification
  | enableNotification
  | disableNotification
  /-- the owner of a buffer fills it -/
  | writeBuffer (addr : ℕ) (data : List UInt8)

/-- What a call shows: a chain published, served or collected. -/
abbrev QueueEvent := Relay.Event UInt16 UInt32

namespace System

/-- Fresh halves over a region. -/
def init (mem : SharedMem) (driver : Driver) (eventIdx : Bool) : System :=
  { mem, driver, device := Device.new driver.layout eventIdx }

/-- The system after a call of the driver. -/
def withDriver (s : System) (t : Driver × SharedMem) : System :=
  { s with driver := t.1, mem := t.2 }

/-- The system after a call of the device. -/
def withDevice (s : System) (t : Device × SharedMem) : System :=
  { s with device := t.1, mem := t.2 }

/-- Perform a call; what it left behind stays, also if it failed. -/
def exec (s : System) : Op → System × QueueEvent
  | .addChain buffers =>
      match Driver.addChain buffers (s.driver, s.mem) with
      | .ok head t => (s.withDriver t, .publish head)
      | .error _ t => (s.withDriver t, .idle)
  | .collectUsed =>
      match Driver.collectUsed (s.driver, s.mem) with
      | .ok cs t => (s.withDriver t, .collect cs)
      | .error _ t => (s.withDriver t, .idle)
  | .needsKick => (s.withDriver (final (Driver.needsKick (s.driver, s.mem))), .idle)
  | .armUsedEvent => (s.withDriver (final (Driver.armUsedEvent (s.driver, s.mem))), .idle)
  | .alloc data => (s.withDriver (final (Driver.alloc data (s.driver, s.mem))), .idle)
  | .allocUninit len => (s.withDriver (final (Driver.allocUninit len (s.driver, s.mem))), .idle)
  | .serve work =>
      match Process.step (fun w r => (work r, w)) (Process.start s.device () s.mem) with
      | .ok (some (head, len)) t => (s.withDevice (t.1.dev, t.2), .serve head len)
      | .ok none t => (s.withDevice (t.1.dev, t.2), .idle)
      | .error _ t => (s.withDevice (t.1.dev, t.2), .idle)
  | .needsNotification =>
      (s.withDevice (final (Device.needsNotification (s.device, s.mem))), .idle)
  | .enableNotification =>
      (s.withDevice (final (Device.enableNotification (s.device, s.mem))), .idle)
  | .disableNotification =>
      (s.withDevice (final (Device.disableNotification (s.device, s.mem))), .idle)
  | .writeBuffer addr data =>
      match s.mem.writeSlice addr data with
      | .ok mem => ({ s with mem }, .idle)
      | .error _ => (s, .idle)

/-! ### The calls one by one -/

variable {s : System}

theorem exec_addChain_ok {bufs : List Buffer} {head : UInt16} {t : Driver × SharedMem}
    (h : Driver.addChain bufs (s.driver, s.mem) = .ok head t) :
    s.exec (.addChain bufs) = (s.withDriver t, .publish head) := by
  show (match Driver.addChain bufs (s.driver, s.mem) with | .ok _ _ => _ | .error _ _ => _) = _
  rw [h]

theorem exec_addChain_error {bufs : List Buffer} {e : Fault DriverError} {t : Driver × SharedMem}
    (h : Driver.addChain bufs (s.driver, s.mem) = .error e t) :
    s.exec (.addChain bufs) = (s.withDriver t, .idle) := by
  show (match Driver.addChain bufs (s.driver, s.mem) with | .ok _ _ => _ | .error _ _ => _) = _
  rw [h]

theorem exec_collectUsed_ok {cs : List (UInt16 × UInt32)} {t : Driver × SharedMem}
    (h : Driver.collectUsed (s.driver, s.mem) = .ok cs t) :
    s.exec .collectUsed = (s.withDriver t, .collect cs) := by
  show (match Driver.collectUsed (s.driver, s.mem) with | .ok _ _ => _ | .error _ _ => _) = _
  rw [h]

theorem exec_serve_some {work : List UInt8 → List UInt8} {head : UInt16} {len : UInt32}
    {t : Process Unit × SharedMem} (h : Process.step (fun w r => (work r, w))
      (Process.start s.device () s.mem) = .ok (some (head, len)) t) :
    s.exec (.serve work) = (s.withDevice (t.1.dev, t.2), .serve head len) := by
  show (match Process.step (fun w r => (work r, w)) (Process.start s.device () s.mem) with
    | .ok (some (_, _)) _ => _ | .ok none _ => _ | .error _ _ => _) = _
  rw [h]

theorem exec_serve_none {work : List UInt8 → List UInt8} {t : Process Unit × SharedMem}
    (h : Process.step (fun w r => (work r, w)) (Process.start s.device () s.mem) = .ok none t) :
    s.exec (.serve work) = (s.withDevice (t.1.dev, t.2), .idle) := by
  show (match Process.step (fun w r => (work r, w)) (Process.start s.device () s.mem) with
    | .ok (some (_, _)) _ => _ | .ok none _ => _ | .error _ _ => _) = _
  rw [h]

theorem exec_writeBuffer (addr : ℕ) (data : List UInt8) :
    s.exec (.writeBuffer addr data) =
      (if addr + data.length ≤ s.mem.len then { s with mem := s.mem.put addr data } else s,
        .idle) := by
  show (match s.mem.writeSlice addr data with | .ok _ => _ | .error _ => _) = _
  rw [s.mem.writeSlice_eq]
  by_cases h : addr + data.length ≤ s.mem.len
  · rw [if_pos h, if_pos h]
  · rw [if_neg h, if_neg h]

end System

/-- The `n` bytes from `a` on do not meet the descriptor table or the rings. -/
def VirtqLayout.Clear (l : VirtqLayout) (a n : ℕ) : Prop :=
  a + n ≤ l.descTable ∨ l.endAddr ≤ a

/-- The assertions of a call hold and its buffers do not overlap the queue. -/
def Op.Admissible (l : VirtqLayout) : Op → Prop
  | .addChain buffers => buffers ≠ [] ∧ readableFirst buffers = true ∧
      ∀ b ∈ buffers, l.Clear b.addr.toNat b.len.toNat
  | .writeBuffer addr data => l.Clear addr data.length
  | _ => True

/-! ### The relation to the two queues -/

/-- The outstanding chain at `indices` is in the table, and its buffers do not
overlap the queue. -/
def Intact (l : VirtqLayout) (m : SharedMem) (indices : List UInt16) : Prop :=
  ∃ bufs, Encoded l m indices bufs ∧ ∀ b ∈ bufs, l.Clear b.addr.toNat b.len.toNat

/-- The system stands in the middle of these two queues: the counters are their positions,
what waits in them is in its slot, and the chains under way are intact. -/
structure Represents (l : VirtqLayout) (s : System) (q : Relay UInt16 UInt32) : Prop where
  driverLayout : s.driver.layout = l
  deviceLayout : s.device.layout = l
  covered : l.Covered s.mem
  owned : s.driver.Owned
  /-- chains are outstanding from publication to collection -/
  keys : (q.answers.map Prod.fst ++ q.requests).Perm s.driver.outstanding.keys
  availIdx : s.driver.availIdx = UInt16.ofNat q.total
  availWord : s.mem.word16 l.availIdx = UInt16.ofNat q.total
  nextAvail : s.device.nextAvail = UInt16.ofNat q.served
  nextUsed : s.device.nextUsed = UInt16.ofNat q.served
  usedWord : s.mem.word16 l.usedIdx = UInt16.ofNat q.served
  lastUsed : s.driver.lastUsed = UInt16.ofNat q.collected
  /-- the avail ring holds what is still to be popped -/
  requests : ∀ j a, q.requests[j]? = some a →
    s.mem.word16 (l.availSlot (UInt16.ofNat (q.served + j))) = a
  /-- the used ring holds what is still to be collected -/
  answers : ∀ j a, q.answers[j]? = some a →
    s.mem.word32 (l.usedBase (UInt16.ofNat (q.collected + j))) = a.1.toUInt32 ∧
    s.mem.word32 (l.usedBase (UInt16.ofNat (q.collected + j)) + 4) = a.2
  chains : ∀ k indices, s.driver.outstanding.lookup k = some indices → Intact l s.mem indices
  arena : l.endAddr ≤ s.driver.arena

/-- The bytes the relation reads are the same. -/
def VirtqLayout.SameRings (l : VirtqLayout) (m m' : SharedMem) : Prop :=
  SharedMem.SameOn m m' l.descTable l.usedEvent ∧ SharedMem.SameOn m m' l.usedIdx l.availEvent

/-- A write that meets neither the table nor the rings, nor ends in front of
the event fields. -/
theorem VirtqLayout.sameRings_put {l : VirtqLayout} (m : SharedMem) {a : ℕ} {data : List UInt8}
    (h : a + data.length ≤ l.descTable ∨ l.usedEvent ≤ a ∧ a + data.length ≤ l.usedIdx ∨
      l.availEvent ≤ a) : l.SameRings m (m.put a data) := by
  have hlay := l.bounds
  exact ⟨(m.sameOn_put (by omega)).symm, (m.sameOn_put (by omega)).symm⟩

namespace Represents

variable {l : VirtqLayout} {s : System} {q : Relay UInt16 UInt32}

/-- No more chains are under way than there are descriptors. -/
theorem length_add_free_le (h : Represents l s q) :
    q.answers.length + q.requests.length + s.driver.freeDescs.length ≤ l.qs := by
  have hlen := h.keys.length_eq
  have hpool := h.owned.length_keys_le
  rw [VirtqLayout.length_indices, h.driverLayout] at hpool
  rw [List.length_append, List.length_map] at hlen
  show _ + s.driver.pool.free.length ≤ _
  have : s.driver.pool.held.keys.length = s.driver.outstanding.keys.length := rfl
  omega

theorem length_le (h : Represents l s q) : q.answers.length + q.requests.length ≤ l.qs :=
  le_trans (Nat.le_add_right _ _) h.length_add_free_le

theorem deviceCovered (h : Represents l s q) : s.device.layout.Covered s.mem := by
  rw [h.deviceLayout]
  exact h.covered

theorem driverCovered (h : Represents l s q) : s.driver.layout.Covered s.mem := by
  rw [h.driverLayout]
  exact h.covered

/-- A waiting request or answer is an outstanding chain. -/
theorem exists_indices (h : Represents l s q) {a : UInt16}
    (ha : a ∈ q.answers.map Prod.fst ++ q.requests) :
    ∃ rest, s.driver.outstanding.lookup a = some (a :: rest) := by
  have hk : a ∈ s.driver.outstanding := AList.mem_keys.mpr (h.keys.mem_iff.mp ha)
  rcases e : s.driver.outstanding.lookup a with - | indices
  · exact absurd hk (AList.lookup_eq_none.mp e)
  · have hhead := h.owned.heads a indices e
    rcases indices with - | ⟨i, rest⟩
    · cases hhead
    · obtain rfl : i = a := Option.some.inj hhead
      exact ⟨rest, rfl⟩

/-- What the device sees as available is the number of waiting requests. -/
theorem toNat_pending (h : Represents l s q) :
    (s.device.pending s.mem).toNat = q.requests.length := by
  have hqs := l.qs_le
  have hle := h.length_le
  rw [Device.pending, h.deviceLayout, h.availWord, h.nextAvail, Relay.total,
    Rolling.toNat_ofNat_sub (Nat.le_add_right _ _) (by omega)]
  omega

section Kept

variable {m : SharedMem} {j : ℕ}

/-- A waiting request stays as long as its slot does, -/
theorem request_kept (h : Represents l s q) {a : UInt16} (ha : q.requests[j]? = some a)
    (hsame : SharedMem.SameOn m s.mem (l.availSlot (UInt16.ofNat (q.served + j)))
      (l.availSlot (UInt16.ofNat (q.served + j)) + 2)) :
    m.word16 (l.availSlot (UInt16.ofNat (q.served + j))) = a :=
  hsame.word16_eq.trans (h.requests j a ha)

/-- a waiting answer as long as its slot does, -/
theorem answer_kept (h : Represents l s q) {a : UInt16 × UInt32} (ha : q.answers[j]? = some a)
    (hsame : SharedMem.SameOn m s.mem (l.usedBase (UInt16.ofNat (q.collected + j)))
      (l.usedBase (UInt16.ofNat (q.collected + j)) + 8)) :
    m.word32 (l.usedBase (UInt16.ofNat (q.collected + j))) = a.1.toUInt32 ∧
      m.word32 (l.usedBase (UInt16.ofNat (q.collected + j)) + 4) = a.2 := by
  obtain ⟨hid, hlen⟩ := h.answers j a ha
  constructor
  · exact (hsame.mono le_rfl (by omega)).word32_eq.trans hid
  · exact (hsame.mono (by omega) (by omega)).word32_eq.trans hlen

/-- and a chain under way as long as the table does. -/
theorem chain_kept (h : Represents l s q) {k : UInt16} {indices : List UInt16}
    (hk : s.driver.outstanding.lookup k = some indices)
    (hsame : SharedMem.SameOn m s.mem l.descTable l.availRing) : Intact l m indices := by
  have hlay := l.bounds
  obtain ⟨bufs, henc, hclear⟩ := h.chains k indices hk
  refine ⟨bufs, henc.congr fun i hi => (hsame.mono ?_ ?_).symm, hclear⟩
  · exact Nat.le_add_right _ _
  · have := henc.inTable i hi
    rw [VirtqLayout.descAddr]
    omega

end Kept

/-- Changing bytes the relation does not read. -/
theorem frame (h : Represents l s q) {m : SharedMem} (hlen : m.len = s.mem.len)
    (hsame : l.SameRings s.mem m) : Represents l { s with mem := m } q := by
  have hlay := l.bounds
  refine { h with
    covered := ?_, availWord := ?_, usedWord := ?_, requests := ?_, answers := ?_, chains := ?_ }
  · rw [VirtqLayout.Covered, hlen]
    exact h.covered
  · rw [← (hsame.1.mono (by omega) (by omega)).word16_eq]
    exact h.availWord
  · rw [← (hsame.2.mono (by omega) (by omega)).word16_eq]
    exact h.usedWord
  · intro j a ha
    have hlo := l.le_availSlot (UInt16.ofNat (q.served + j))
    have hhi := VirtqLayout.availSlot_add_le (l := l) (UInt16.ofNat (q.served + j))
    exact h.request_kept ha (hsame.1.mono (by omega) (by omega)).symm
  · intro j a ha
    have hlo := l.le_usedBase (UInt16.ofNat (q.collected + j))
    have hhi := VirtqLayout.usedBase_add_le (l := l) (UInt16.ofNat (q.collected + j))
    exact h.answer_kept ha (hsame.2.mono (by omega) (by omega)).symm
  · intro k indices hk
    exact h.chain_kept hk (hsame.1.mono le_rfl (by omega)).symm

end Represents

end SystemsStudy
