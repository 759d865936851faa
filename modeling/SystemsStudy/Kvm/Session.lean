/-
SystemsStudy/Kvm/Session.lean

A guest on KVM, and the machine it believes to be on.

A guest is a program whose calls are accesses of the devices.  The machine it
believes to be on is a board: the guest wired to a `Chip`, with nothing between
them.  What runs it is a vCPU.  `KvmRuns` is one `KVM_RUN` as its documentation
has it: the kernel first completes the access that the last exit left open,
reading the answer where it said in the page it would, and then runs the guest
until a signal or until the guest needs userspace (`Fills` is what it writes to
the page).  A `Session` is any number of `KVM_RUN`s, with what userspace left in
the page in between.
-/
import SystemsStudy.Lib.Trap
import SystemsStudy.Kvm.Trace

namespace SystemsStudy.Kvm

open Trap

variable {n : ℕ} {σ : Type}

/-! ### The board -/

/-- The devices as hardware. -/
structure Chip where
  /-- what came out of the serial port -/
  serial : List UInt8 := []
  latch : UInt8 := 0
  deriving DecidableEq

/-- Some device answers to the access.  There is always one behind a port. -/
def Access.onBus : Access → Bool
  | .out _ _ => true
  | .inp _ _ => true
  | .store addr _ => Devices.ownsMmio addr
  | .load addr _ => Devices.ownsMmio addr

/-- One access, with what the guest reads. -/
def Chip.respond (c : Chip) : Access → Chip × List UInt8
  | .out port data =>
      (if port = serialPort then { c with serial := c.serial ++ data } else c, [])
  | .inp _ len => (c, List.replicate len 0xff)
  | .store addr data =>
      (if addr = mmioBase then { c with latch := data.headD c.latch } else c, [])
  | .load addr len =>
      (c, if addr = mmioBase then (c.latch :: List.replicate (len - 1) 0).take len
        else List.replicate len 0xff)

/-- On the bus of the board; an access that no device answers to is an error. -/
def Chip.serve (c : Chip) (a : Access) : Option (Chip × List UInt8) :=
  if a.onBus then some (c.respond a) else none

/-- What a guest does next. -/
abbrev Guest (σ : Type) := Program σ Access (List UInt8)

/-- A guest wired to the devices. -/
abbrev Board (σ : Type) := Config σ Chip Access

/-- A board, switched on. -/
def Board.boot (s : σ) : Board σ := { state := s, server := {} }

/-- The chip after a list of accesses. -/
def Chip.after (past : List Access) : Chip where
  serial := past.flatMap Access.printed
  latch := Access.latch past

/-- The chip does what the accesses mean. -/
theorem Chip.respond_after (past : List Access) (a : Access) :
    (after past).respond a = (after (past ++ [a]), a.answer past) := by
  have hserial : (after (past ++ [a])).serial = (after past).serial ++ a.printed := by
    simp only [after, List.flatMap_append, List.flatMap_singleton]
  have hlatch : (after (past ++ [a])).latch = a.latched.getD (after past).latch :=
    Access.latch_snoc past a
  have hchip : after (past ++ [a]) =
      ⟨(after past).serial ++ a.printed, a.latched.getD (after past).latch⟩ := by
    rw [← hserial, ← hlatch]
  rw [hchip]
  -- what a chip does on an access depends on the port, the offset and the length alone
  cases a with
  | out port data =>
      by_cases hport : port = serialPort <;> simp [respond, Access.answer, hport]
  | inp port len => simp [respond, Access.answer]
  | store addr data =>
      by_cases haddr : addr = mmioBase
      · cases data <;> simp [respond, Access.answer, haddr]
      · simp [respond, Access.answer, haddr]
  | load addr len =>
      by_cases haddr : addr = mmioBase
      · cases len <;> simp [respond, Access.answer, haddr, after]
      · simp [respond, Access.answer, haddr]

theorem Chip.serve_after (past : List Access) {a : Access} (ha : a.onBus = true) :
    (after past).serve a = some (after (past ++ [a]), a.answer past) := by
  rw [serve, if_pos ha, respond_after]

/-! ### The vCPU -/

/-- Where the answer to the open access is, in the page. -/
inductive Operand where
  | none
  | port (off len : ℕ)
  | mmio (len : ℕ)

/-- What the kernel reads there. -/
def Operand.read (page : KvmRun n) : Operand → List UInt8
  | none => []
  | port off len => (page.bytes.toList.drop off).take len
  | mmio len => page.mmio.data.toList.take len

/-- The guest between two `KVM_RUN`s. -/
structure Vcpu (σ : Type) where
  guest : Parked σ (List UInt8)
  operand : Operand := .none

/-- The guest as the next `KVM_RUN` finds it, with its access completed.  After
an interruption none is open. -/
def Vcpu.complete (v : Vcpu σ) : Outcome n → σ
  | .ok page => v.guest.resume (v.operand.read page)
  | .error _ => v.guest.resume []

/-- The page for an access. -/
inductive Fills (page : KvmRun n) : Access → Operand → Prop
  | out {data : List UInt8} : page.exitReason = kvmExitIo → page.io.direction = kvmExitIoOut →
      page.io.dataOffset.toNat + page.ioLen ≤ n → page.payload = data →
      Fills page (.out page.io.port data) .none
  | inp {off len : ℕ} : page.exitReason = kvmExitIo → page.io.direction = kvmExitIoIn →
      page.io.dataOffset.toNat = off → page.ioLen = len → off + len ≤ n →
      Fills page (.inp page.io.port len) (.port off len)
  | store {data : List UInt8} : page.exitReason = kvmExitMmio → page.mmio.isWrite ≠ 0 →
      page.mmio.len.toNat = data.length → data.length ≤ 8 →
      page.mmio.data.toList.take data.length = data →
      Fills page (.store page.mmio.physAddr data) .none
  | load {len : ℕ} : page.exitReason = kvmExitMmio → page.mmio.isWrite = 0 →
      page.mmio.len.toNat = len → len ≤ 8 →
      Fills page (.load page.mmio.physAddr len) (.mmio len)

/-- An errno or an exit reason that says the guest cannot go on. -/
def GivesUp : Outcome n → Prop
  | .error e => e ≠ eintr
  | .ok page => page.exitReason ∉ [kvmExitIo, kvmExitMmio, kvmExitHlt, kvmExitIntr]

/-- One `KVM_RUN`, of a guest whose last access is completed. -/
inductive KvmRuns (prog : Guest σ) (s : σ) : Outcome n → Vcpu σ → Prop
  | eintr {p : Parked σ (List UInt8)} : Enter prog s .interrupted p →
      KvmRuns prog s (.error eintr) { guest := p }
  | intr {p : Parked σ (List UInt8)} {page : KvmRun n} : Enter prog s .interrupted p →
      page.exitReason = kvmExitIntr → KvmRuns prog s (.ok page) { guest := p }
  | exit {p : Parked σ (List UInt8)} {page : KvmRun n} {a : Access} {operand : Operand} :
      Enter prog s (.call a) p → Fills page a operand →
      KvmRuns prog s (.ok page) { guest := p, operand := operand }
  | hlt {p : Parked σ (List UInt8)} {page : KvmRun n} : Enter prog s .halted p →
      page.exitReason = kvmExitHlt → KvmRuns prog s (.ok page) { guest := p }
  | failed {p : Parked σ (List UInt8)} {o : Outcome n} : Enter prog s .stuck p → GivesUp o →
      KvmRuns prog s o { guest := p }

/-- `KVM_RUN`s with the outcome of each, and what each was answered with.  The
last of them may still be without an answer. -/
inductive Session (prog : Guest σ) : σ → List (Outcome n) → List (Outcome n) → Vcpu σ → Prop
  | idle {s : σ} : Session prog s [] [] { guest := .ready s }
  | exited {s : σ} {o : Outcome n} {v : Vcpu σ} : KvmRuns prog s o v →
      Session prog s [o] [] v
  | resumed {s : σ} {o reply : Outcome n} {v v' : Vcpu σ} {trace replies : List (Outcome n)} :
      KvmRuns prog s o v → Session prog (v.complete reply) trace replies v' →
      Session prog s (o :: trace) (reply :: replies) v'

end SystemsStudy.Kvm
