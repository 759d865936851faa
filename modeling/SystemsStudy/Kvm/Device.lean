/-
SystemsStudy/Kvm/Device.lean

`device.rs`: the device model of the VMM.

One write-only serial port and one latch behind memory-mapped I/O.  Arithmetic
is checked, as in a debug build: a counter at its maximum, or an address below
the window, panics (`none`).

The second half says what the devices mean.  An `Access` is what the guest did
to them; everything the devices hold is a function of the accesses so far
(`Devices.Tracks`), and so is the answer to a read (`Access.answer`).
-/
import Mathlib.Tactic

namespace SystemsStudy.Kvm

/-- Base of the toy MMIO device in guest physical space. -/
def mmioBase : UInt64 := 0x8000

/-- One page, of which one byte is implemented. -/
def mmioLen : UInt64 := 0x1000

/-- COM1 data register. -/
def serialPort : UInt16 := 0x03f8

/-- Deliberately does nothing. -/
def benchPort : UInt16 := 0x0080

/-- `+= 1` on a counter. -/
def incr (n : UInt64) : Option UInt64 :=
  if n + 1 = 0 then none else some (n + 1)

/-- A one-register device plus a write-only serial port. -/
structure Devices where
  serialOut : List UInt8 := []
  latch : UInt8 := 0
  pioWrites : UInt64 := 0
  pioReads : UInt64 := 0
  mmioWrites : UInt64 := 0
  mmioReads : UInt64 := 0
  /-- accesses this model does not implement -/
  unhandled : UInt64 := 0
  deriving DecidableEq

namespace Devices

/-- Guest executed `out`. -/
def pioWrite (d : Devices) (port : UInt16) (data : List UInt8) : Option Devices := do
  let d := { d with pioWrites := ← incr d.pioWrites }
  if port = serialPort then
    return { d with serialOut := d.serialOut ++ data }
  else if port = benchPort then
    return d
  else
    return { d with unhandled := ← incr d.unhandled }

/-- Guest executed `in`.  An absent device reads all-ones. -/
def pioRead (d : Devices) (_port : UInt16) (data : List UInt8) :
    Option (Devices × List UInt8) := do
  let d := { d with pioReads := ← incr d.pioReads }
  let d := { d with unhandled := ← incr d.unhandled }
  return (d, data.map fun _ => 0xff)

/-- Guest stored to an unbacked guest physical address. -/
def mmioWrite (d : Devices) (addr : UInt64) (data : List UInt8) : Option Devices := do
  let d := { d with mmioWrites := ← incr d.mmioWrites }
  if addr < mmioBase then none
  else match data with
    | b :: _ =>
        if addr - mmioBase = 0 then return { d with latch := b }
        else return { d with unhandled := ← incr d.unhandled }
    | [] => return { d with unhandled := ← incr d.unhandled }

/-- Guest loaded from an unbacked guest physical address. -/
def mmioRead (d : Devices) (addr : UInt64) (data : List UInt8) :
    Option (Devices × List UInt8) := do
  let d := { d with mmioReads := ← incr d.mmioReads }
  if addr < mmioBase then none
  else if addr - mmioBase = 0 ∧ data ≠ [] then
    return (d, (data.map fun _ => 0).set 0 d.latch)
  else
    return ({ d with unhandled := ← incr d.unhandled }, data.map fun _ => 0xff)

/-- Is `addr` inside the toy device's window? -/
def ownsMmio (addr : UInt64) : Bool :=
  mmioBase ≤ addr && addr < mmioBase + mmioLen

end Devices

/-! ### What the devices mean -/

/-- What the guest did to the devices. -/
inductive Access where
  | out (port : UInt16) (data : List UInt8)
  | inp (port : UInt16) (len : ℕ)
  | store (addr : UInt64) (data : List UInt8)
  | load (addr : UInt64) (len : ℕ)
  deriving DecidableEq

namespace Access

/-- What an access sends to the serial port. -/
@[simp] def printed : Access → List UInt8
  | .out port data => if port = serialPort then data else []
  | _ => []

/-- What an access leaves in the latch. -/
@[simp] def latched : Access → Option UInt8
  | .store addr data => if addr = mmioBase then data.head? else none
  | _ => none

/-- The last byte latched, zero if there was none. -/
def latch (past : List Access) : UInt8 := (past.filterMap latched).getLastD 0

/-- Accesses the device model does not describe. -/
@[simp] def unimplemented : Access → Bool
  | .out port _ => port ≠ serialPort && port ≠ benchPort
  | .inp _ _ => true
  | .store addr data => addr ≠ mmioBase || data.isEmpty
  | .load addr len => addr ≠ mmioBase || len = 0

/-- What the guest reads, after the accesses of the past. -/
def answer (past : List Access) : Access → List UInt8
  | .load addr len =>
      if addr = mmioBase ∧ 0 < len then latch past :: List.replicate (len - 1) 0
      else List.replicate len 0xff
  | .inp _ len => List.replicate len 0xff
  | .out _ _ => []
  | .store _ _ => []

/-- A write to a port. -/
@[simp] def isOut : Access → Bool
  | .out _ _ => true
  | _ => false

/-- A read of a port. -/
@[simp] def isInp : Access → Bool
  | .inp _ _ => true
  | _ => false

/-- A write to device memory. -/
@[simp] def isStore : Access → Bool
  | .store _ _ => true
  | _ => false

/-- A read of device memory. -/
@[simp] def isLoad : Access → Bool
  | .load _ _ => true
  | _ => false

end Access

/-- The devices are where a list of accesses leads them. -/
structure Devices.Tracks (past : List Access) (d : Devices) : Prop where
  serialOut : d.serialOut = past.flatMap Access.printed
  latch : d.latch = Access.latch past
  pioWrites : d.pioWrites.toNat = past.countP Access.isOut
  pioReads : d.pioReads.toNat = past.countP Access.isInp
  mmioWrites : d.mmioWrites.toNat = past.countP Access.isStore
  mmioReads : d.mmioReads.toNat = past.countP Access.isLoad
  unhandled : d.unhandled.toNat = past.countP Access.unimplemented

/-! ### Each operation keeps it -/

theorem incr_eq_some {n m : UInt64} (h : incr n = some m) : m.toNat = n.toNat + 1 := by
  unfold incr at h
  split at h
  · cases h
  · rename_i hn
    cases h
    have hlt := n.toNat_lt
    have hne : (n + 1).toNat ≠ 0 := fun h => hn (UInt64.toNat_inj.mp h)
    rw [UInt64.toNat_add] at hne ⊢
    simp only [UInt64.reduceToNat] at hne ⊢
    omega

theorem sub_mmioBase_eq_zero {addr : UInt64} : addr - mmioBase = 0 ↔ addr = mmioBase := by
  constructor
  · intro h
    rw [← UInt64.sub_add_cancel addr mmioBase, h, UInt64.zero_add]
  · rintro rfl
    exact UInt64.sub_self _

theorem countP_snoc (p : α → Bool) (xs : List α) (x : α) :
    (xs ++ [x]).countP p = xs.countP p + (p x).toNat := by
  rw [List.countP_append, List.countP_singleton]
  cases p x <;> rfl

theorem filterMap_snoc (f : α → Option β) (xs : List α) (x : α) :
    (xs ++ [x]).filterMap f = xs.filterMap f ++ (f x).toList := by
  rw [List.filterMap_append, List.filterMap_cons]
  cases f x <;> rfl

theorem Access.latch_snoc (past : List Access) (a : Access) :
    latch (past ++ [a]) = a.latched.getD (latch past) := by
  unfold latch
  rw [filterMap_snoc]
  cases a.latched with
  | none => rw [Option.toList_none, List.append_nil, Option.getD_none]
  | some b => rw [Option.toList_some, List.getLastD_concat, Option.getD_some]

/-- A load is answered in full. -/
theorem Access.length_answer_load (past : List Access) (addr : UInt64) (len : ℕ) :
    (answer past (.load addr len)).length = len := by
  rw [answer]
  split
  · rename_i h
    rw [List.length_cons, List.length_replicate, Nat.sub_add_cancel h.2]
  · exact List.length_replicate

namespace Devices

variable {past : List Access} {d d' : Devices}

theorem tracks_init : Tracks [] {} :=
  ⟨rfl, rfl, rfl, rfl, rfl, rfl, rfl⟩

/-- The devices after one more access, from what the access changed. -/
theorem Tracks.snoc {a : Access} (h : d.Tracks past)
    (hserial : d'.serialOut = d.serialOut ++ a.printed)
    (hlatch : d'.latch = a.latched.getD d.latch)
    (hout : d'.pioWrites.toNat = d.pioWrites.toNat + a.isOut.toNat)
    (hinp : d'.pioReads.toNat = d.pioReads.toNat + a.isInp.toNat)
    (hstore : d'.mmioWrites.toNat = d.mmioWrites.toNat + a.isStore.toNat)
    (hload : d'.mmioReads.toNat = d.mmioReads.toNat + a.isLoad.toNat)
    (hun : d'.unhandled.toNat = d.unhandled.toNat + a.unimplemented.toNat) :
    d'.Tracks (past ++ [a]) where
  serialOut := by rw [hserial, h.serialOut, List.flatMap_append, List.flatMap_singleton]
  latch := by rw [hlatch, h.latch, Access.latch_snoc]
  pioWrites := by rw [hout, h.pioWrites, countP_snoc]
  pioReads := by rw [hinp, h.pioReads, countP_snoc]
  mmioWrites := by rw [hstore, h.mmioWrites, countP_snoc]
  mmioReads := by rw [hload, h.mmioReads, countP_snoc]
  unhandled := by rw [hun, h.unhandled, countP_snoc]

theorem Tracks.pioWrite {port : UInt16} {data : List UInt8} (h : d.Tracks past)
    (hd : d.pioWrite port data = some d') : d'.Tracks (past ++ [.out port data]) := by
  simp only [Devices.pioWrite, Option.bind_eq_bind, Option.bind_eq_some_iff] at hd
  obtain ⟨n, hn, hd⟩ := hd
  replace hn := incr_eq_some hn
  by_cases hserial : port = serialPort
  · rw [if_pos hserial] at hd
    cases hd
    apply h.snoc <;> simp [hserial, hn]
  rw [if_neg hserial] at hd
  by_cases hbench : port = benchPort
  · rw [if_pos hbench] at hd
    cases hd
    apply h.snoc <;> simp [show benchPort ≠ serialPort by decide, hbench, hn]
  · rw [if_neg hbench] at hd
    obtain ⟨u, hu, hd⟩ := Option.bind_eq_some_iff.mp hd
    cases hd
    apply h.snoc <;> simp [hserial, hbench, hn, incr_eq_some hu]

/-- No port is readable. -/
theorem Tracks.pioRead {port : UInt16} {data data' : List UInt8} (h : d.Tracks past)
    (hd : d.pioRead port data = some (d', data')) :
    d'.Tracks (past ++ [.inp port data.length]) ∧
      data' = Access.answer past (.inp port data.length) := by
  simp only [Devices.pioRead, Option.bind_eq_bind, Option.bind_eq_some_iff] at hd
  obtain ⟨n, hn, u, hu, hd⟩ := hd
  cases hd
  constructor
  · apply h.snoc <;> simp [incr_eq_some hn, incr_eq_some hu]
  · rw [List.map_const', Access.answer]

theorem Tracks.mmioWrite {addr : UInt64} {data : List UInt8} (h : d.Tracks past)
    (hd : d.mmioWrite addr data = some d') : d'.Tracks (past ++ [.store addr data]) := by
  simp only [Devices.mmioWrite, Option.bind_eq_bind, Option.bind_eq_some_iff] at hd
  obtain ⟨n, hn, hd⟩ := hd
  replace hn := incr_eq_some hn
  split at hd
  · cases hd
  cases data with
  -- a store of no bytes reaches no register
  | nil =>
      obtain ⟨u, hu, hd⟩ := Option.bind_eq_some_iff.mp hd
      cases hd
      apply h.snoc <;> simp [hn, incr_eq_some hu]
  | cons b bytes =>
      simp only [sub_mmioBase_eq_zero] at hd
      -- offset 0 is the latch, any other offset counts as unhandled
      by_cases haddr : addr = mmioBase
      · rw [if_pos haddr] at hd
        cases hd
        apply h.snoc <;> simp [haddr, hn]
      · rw [if_neg haddr] at hd
        obtain ⟨u, hu, hd⟩ := Option.bind_eq_some_iff.mp hd
        cases hd
        apply h.snoc <;> simp [haddr, hn, incr_eq_some hu]

/-- A read of the latch sees the last byte written, and zeros after it. -/
theorem Tracks.mmioRead {addr : UInt64} {data data' : List UInt8} (h : d.Tracks past)
    (hd : d.mmioRead addr data = some (d', data')) :
    d'.Tracks (past ++ [.load addr data.length]) ∧
      data' = Access.answer past (.load addr data.length) := by
  simp only [Devices.mmioRead, Option.bind_eq_bind, Option.bind_eq_some_iff,
    sub_mmioBase_eq_zero] at hd
  obtain ⟨n, hn, hd⟩ := hd
  replace hn := incr_eq_some hn
  split at hd
  · cases hd
  -- the latch answers in the first byte; anything else reads as ones and counts as unhandled
  by_cases hbase : addr = mmioBase ∧ data ≠ []
  · rw [if_pos hbase] at hd
    cases hd
    obtain ⟨haddr, hdata⟩ := hbase
    obtain ⟨b, bytes, rfl⟩ := List.exists_cons_of_ne_nil hdata
    constructor
    · apply h.snoc <;> simp [haddr, hn]
    · simp [Access.answer, haddr, h.latch]
  · rw [if_neg hbase] at hd
    obtain ⟨u, hu, hd⟩ := Option.bind_eq_some_iff.mp hd
    cases hd
    rw [← List.length_pos_iff] at hbase
    have hmissed : (Access.load addr data.length).unimplemented = true := by
      by_contra hcon
      apply hbase
      simpa [Nat.pos_iff_ne_zero] using hcon
    constructor
    · apply h.snoc <;> simp only [hmissed, hn, incr_eq_some hu] <;> simp
    · rw [List.map_const', Access.answer, if_neg hbase]

end Devices

end SystemsStudy.Kvm
