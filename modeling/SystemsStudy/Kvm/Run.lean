/-
SystemsStudy/Kvm/Run.lean

`vmm.rs`: the main loop, `Vm::run`.

Each pass enters the guest, dispatches on the reason it came back and resumes.
What `KVM_RUN` does is input to the loop: it fails with an errno, or it returns
with the `kvm_run` page filled in (`KvmRun`).  The page is one mapping; its two
union variants are given as they read, next to the bytes of the mapping that
port I/O keeps its payload in.  The loop never reads back what it wrote to the
page, so it does not matter where the variants overlap.

The traces printed to stderr and the timings are left out.
-/
import SystemsStudy.Kvm.Device

namespace SystemsStudy.Kvm

/-! ### `kvm_sys.rs` -/

/-- The kernel cannot say why the guest stopped. -/
def kvmExitUnknown : UInt32 := 0

/-- The guest accessed a port. -/
def kvmExitIo : UInt32 := 2

/-- The guest executed `hlt`. -/
def kvmExitHlt : UInt32 := 5

/-- The guest accessed an address that has no memory behind it. -/
def kvmExitMmio : UInt32 := 6

/-- The guest shut down, as it does on a triple fault. -/
def kvmExitShutdown : UInt32 := 8

/-- The guest could not be entered. -/
def kvmExitFailEntry : UInt32 := 9

/-- A signal ended the run. -/
def kvmExitIntr : UInt32 := 10

/-- KVM itself gave up. -/
def kvmExitInternalError : UInt32 := 17

/-- The port was read. -/
def kvmExitIoIn : UInt8 := 0

/-- The port was written. -/
def kvmExitIoOut : UInt8 := 1

/-- The errno of an interrupted system call. -/
def eintr : ℤ := 4

/-- The name of an exit reason, for the errors. -/
def exitReasonName (r : UInt32) : String :=
  if r = kvmExitUnknown then "KVM_EXIT_UNKNOWN"
  else if r = kvmExitIo then "KVM_EXIT_IO"
  else if r = kvmExitHlt then "KVM_EXIT_HLT"
  else if r = kvmExitMmio then "KVM_EXIT_MMIO"
  else if r = kvmExitShutdown then "KVM_EXIT_SHUTDOWN"
  else if r = kvmExitFailEntry then "KVM_EXIT_FAIL_ENTRY"
  else if r = kvmExitIntr then "KVM_EXIT_INTR"
  else if r = kvmExitInternalError then "KVM_EXIT_INTERNAL_ERROR"
  else "unhandled exit reason"

/-- `KVM_EXIT_IO` variant of the union. -/
structure KvmRunIo where
  direction : UInt8 := 0
  /-- bytes per item -/
  size : UInt8 := 0
  port : UInt16 := 0
  count : UInt32 := 0
  /-- of the payload, from the start of the mapping -/
  dataOffset : UInt64 := 0
  deriving DecidableEq

/-- `KVM_EXIT_MMIO` variant of the union. -/
structure KvmRunMmio where
  physAddr : UInt64 := 0
  data : Vector UInt8 8 := Vector.replicate 8 0
  len : UInt32 := 0
  isWrite : UInt8 := 0
  deriving DecidableEq

/-- The communication page, mapped over `n` bytes. -/
structure KvmRun (n : ℕ) where
  exitReason : UInt32
  io : KvmRunIo := {}
  mmio : KvmRunMmio := {}
  bytes : Vector UInt8 n
  /-- no mapping is larger than `isize::MAX` -/
  len_lt : n < 2 ^ 63

/-- `KVM_RUN`: the errno it failed with, or the page it left. -/
abbrev Outcome (n : ℕ) := Except ℤ (KvmRun n)

variable {n : ℕ}

namespace KvmRun

/-- Length of the payload of port I/O. -/
def ioLen (page : KvmRun n) : ℕ := page.io.size.toNat * page.io.count.toNat

/-- The slice of the mapping with the payload. -/
def payload (page : KvmRun n) : List UInt8 :=
  (page.bytes.toList.drop page.io.dataOffset.toNat).take page.ioLen

/-- Write the payload in place. -/
def withPayload (page : KvmRun n) (data : List UInt8) : KvmRun n :=
  { page with
    bytes := Vector.ofFn fun i =>
      if page.io.dataOffset.toNat ≤ i ∧ i < page.io.dataOffset.toNat + page.ioLen then
        data.getD (i - page.io.dataOffset.toNat) 0
      else page.bytes[i] }

/-- Bytes of an MMIO access: at most eight. -/
def mmioLen (page : KvmRun n) : ℕ := min page.mmio.len.toNat 8

/-- The MMIO data: what the guest stored, or what its load returns. -/
def data (page : KvmRun n) : List UInt8 := page.mmio.data.toList.take page.mmioLen

/-- The inline buffer, filled with the answer to a load. -/
def withData (page : KvmRun n) (data : List UInt8) : KvmRun n :=
  { page with mmio := { page.mmio with data := Vector.ofFn fun i => data.getD i 0 } }

theorem length_payload (page : KvmRun n)
    (h : page.io.dataOffset.toNat + page.ioLen ≤ n) : page.payload.length = page.ioLen := by
  rw [payload, List.length_take, List.length_drop, Vector.length_toList]
  omega

/-- A payload written in place is the payload. -/
theorem payload_withPayload (page : KvmRun n) (data : List UInt8)
    (h : page.io.dataOffset.toNat + page.ioLen ≤ n) (hdata : data.length = page.ioLen) :
    (page.withPayload data).payload = data := by
  have hlen : (page.withPayload data).payload.length = page.ioLen := length_payload _ h
  apply List.ext_getElem (hlen.trans hdata.symm)
  intro i hi _
  have hi' : i < page.ioLen := hlen ▸ hi
  simp only [payload, withPayload, List.getElem_take, List.getElem_drop, Vector.getElem_toList,
    Vector.getElem_ofFn]
  rw [if_pos ⟨Nat.le_add_right _ _, Nat.add_lt_add_left hi' _⟩, Nat.add_sub_cancel_left,
    List.getD_eq_getElem?_getD, List.getElem?_eq_getElem ‹_›, Option.getD_some]

theorem data_withData (page : KvmRun n) (data : List UInt8) (hdata : data.length = page.mmioLen) :
    (page.withData data).data = data := by
  have hle : page.mmioLen ≤ 8 := Nat.min_le_right _ _
  have hlen : (page.withData data).data.length = page.mmioLen := by
    show (List.take page.mmioLen _).length = _
    rw [List.length_take, Vector.length_toList]
    omega
  apply List.ext_getElem (hlen.trans hdata.symm)
  intro i hi _
  simp only [KvmRun.data, withData, List.getElem_take, Vector.getElem_toList, Vector.getElem_ofFn]
  rw [List.getD_eq_getElem?_getD, List.getElem?_eq_getElem ‹_›, Option.getD_some]

end KvmRun

/-! ### `vmm.rs` -/

/-- What one call to `Vm::run` observed. -/
structure RunSummary where
  exits : UInt64 := 0
  ioExits : UInt64 := 0
  mmioExits : UInt64 := 0
  /-- `EINTR` from `KVM_RUN`, or `KVM_EXIT_INTR` -/
  interrupted : UInt64 := 0
  deriving DecidableEq

/-- `io::Error`: of the operating system, or with a message. -/
inductive RunError where
  | os (errno : ℤ)
  | other (message : String)
  deriving DecidableEq

/-- The variables of the loop. -/
structure RunState where
  devices : Devices
  summary : RunSummary := {}
  deriving DecidableEq

/-- After a pass the guest is resumed, with the page as it was left, or `run` returns. -/
inductive Flow (n : ℕ) where
  | resumed (st : RunState) (reply : Outcome n)
  | returned (st : RunState) (result : Except RunError RunSummary)

namespace Vm

/-- The arm of `KVM_EXIT_IO`. -/
def ioExit (st : RunState) (page : KvmRun n) : Option (Flow n) := do
  let st := { st with summary.ioExits := ← incr st.summary.ioExits }
  -- `off.saturating_add(len)`
  if n < min (page.io.dataOffset.toNat + page.ioLen) (2 ^ 64 - 1) then
    return .returned st (.error (.other "kvm_run io payload out of bounds"))
  else if page.io.direction = kvmExitIoOut then
    let devices ← st.devices.pioWrite page.io.port page.payload
    return .resumed { st with devices := devices } (.ok page)
  else if page.io.direction = kvmExitIoIn then
    let (devices, data) ← st.devices.pioRead page.io.port page.payload
    return .resumed { st with devices := devices } (.ok (page.withPayload data))
  else
    return .returned st
      (.error (.other ("bad io direction " ++ toString page.io.direction.toNat)))

/-- The arm of `KVM_EXIT_MMIO`. -/
def mmioExit (st : RunState) (page : KvmRun n) : Option (Flow n) := do
  let st := { st with summary.mmioExits := ← incr st.summary.mmioExits }
  if !Devices.ownsMmio page.mmio.physAddr then
    return .returned st (.error (.other
      ("guest touched unmapped, undeviced guest physical address 0x" ++
        String.ofList (Nat.toDigits 16 page.mmio.physAddr.toNat))))
  else if page.mmio.isWrite ≠ 0 then
    let devices ← st.devices.mmioWrite page.mmio.physAddr page.data
    return .resumed { st with devices := devices } (.ok page)
  else
    let (devices, data) ←
      st.devices.mmioRead page.mmio.physAddr (List.replicate page.mmioLen 0)
    return .resumed { st with devices := devices } (.ok (page.withData data))

/-- One pass of the loop, for what `KVM_RUN` did. -/
def pass (st : RunState) : Outcome n → Option (Flow n)
  | .error e => do
      if e = eintr then
        -- the guest's state is intact: re-entering resumes it
        let st := { st with summary.interrupted := ← incr st.summary.interrupted }
        return .resumed st (.error e)
      else
        return .returned st (.error (.os e))
  | .ok page => do
      let st := { st with summary.exits := ← incr st.summary.exits }
      if page.exitReason = kvmExitIo then ioExit st page
      else if page.exitReason = kvmExitMmio then mmioExit st page
      else if page.exitReason = kvmExitHlt then
        return .returned st (.ok st.summary)
      else if page.exitReason = kvmExitIntr then
        let st := { st with summary.interrupted := ← incr st.summary.interrupted }
        return .resumed st (.ok page)
      else
        return .returned st (.error (.other
          ("unhandled " ++ exitReasonName page.exitReason ++
            " (" ++ toString page.exitReason.toNat ++ ")")))

end Vm

/-- What a call of `Vm::run` did with the outcomes it was given. -/
structure Ran (n : ℕ) where
  devices : Devices
  /-- what the page held at each re-entry -/
  replies : List (Outcome n)
  /-- absent while the guest runs on -/
  result : Option (Except RunError RunSummary)

namespace Vm

/-- The loop, over what `KVM_RUN` does each time. -/
def loop (st : RunState) : List (Outcome n) → Option (Ran n)
  | [] => some { devices := st.devices, replies := [], result := none }
  | o :: trace =>
      match pass st o with
      | none => none
      | some (.returned st r) => some { devices := st.devices, replies := [], result := some r }
      | some (.resumed st reply) =>
          (loop st trace).map fun r => { r with replies := reply :: r.replies }

/-- Enter the guest repeatedly until it halts. -/
def run (devices : Devices) (trace : List (Outcome n)) : Option (Ran n) :=
  loop { devices := devices } trace

end Vm

end SystemsStudy.Kvm
