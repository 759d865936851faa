/-
SystemsStudy/Kvm/Guest.lean

`guest.rs`: the benchmark program, and the processor that executes it.

`bench_program` patches an iteration count into ten bytes of machine code.  The
processor is a 16-bit x86 with the five instructions these bytes consist of
(`Cpu.step`); any other byte is not an instruction here (`none`).  What the
program does is then a matter of decoding the bytes that were loaded, and of
one induction over the counter of its loop (`Cpu.exec_benchProgram`).
-/
import SystemsStudy.Lib.Bytes
import SystemsStudy.Kvm.Load

namespace SystemsStudy.Kvm

open Bytes

/-! ### The program -/

/-- Where programs are loaded, and the initial `rip`. -/
def loadAddr : UInt64 := 0x1000

/-- Offset of the 16-bit iteration count. -/
def benchCountOffset : ℕ := 4

/-- `count` iterations of a single `out`, then halt. -/
def benchTemplate : Vector UInt8 10 :=
  #v[0xBA, 0x80, 0x00, -- mov dx, 0x80
    0xB9, 0x00, 0x00,  -- mov cx, <patched>
    0xEE,              -- out dx, al
    0xE2, 0xFD,        -- loop -3
    0xF4]              -- hlt

/-- Maximum exits from one entry: the counter has 16 bits. -/
def benchMaxPerRound : UInt32 := 65535

/-- The program with the count patched in.  It panics on a count that is zero
or too large (`none`). -/
def benchProgram (count : UInt32) : Option (Vector UInt8 10) :=
  if 0 < count ∧ count ≤ benchMaxPerRound then
    let c := count.toUInt16
    some ((benchTemplate.set benchCountOffset (c &&& 0xff).toUInt8 (by decide)).set
      (benchCountOffset + 1) (c >>> 8).toUInt8 (by decide))
  else none

/-! ### The processor -/

/-- The registers the program uses. -/
structure Cpu where
  ip : UInt16
  ax : UInt16 := 0
  cx : UInt16 := 0
  dx : UInt16 := 0
  deriving DecidableEq

/-- What makes the processor leave the guest. -/
inductive GuestExit where
  | out (port : UInt16) (al : UInt8)
  | hlt
  deriving DecidableEq

namespace Cpu

/-- As `set_real_mode_regs` leaves it. -/
def entry (addr : UInt64) : Cpu := { ip := addr.toUInt16 }

/-- A 16-bit immediate operand. -/
def imm16 (ram : UInt16 → UInt8) (a : UInt16) : UInt16 :=
  UInt16.ofNat (fromLe [ram a, ram (a + 1)])

/-- An 8-bit displacement, sign-extended. -/
def rel8 (b : UInt8) : UInt16 :=
  if b < 0x80 then b.toUInt16 else b.toUInt16 + 0xff00

/-- Execute one instruction. -/
def step (ram : UInt16 → UInt8) (c : Cpu) : Option (Cpu × Option GuestExit) :=
  let op := ram c.ip
  if op = 0xBA then
    some ({ c with dx := imm16 ram (c.ip + 1), ip := c.ip + 3 }, none)
  else if op = 0xB9 then
    some ({ c with cx := imm16 ram (c.ip + 1), ip := c.ip + 3 }, none)
  else if op = 0xEE then
    some ({ c with ip := c.ip + 1 }, some (.out c.dx c.ax.toUInt8))
  else if op = 0xE2 then
    -- `loop` decrements first, so a counter of zero wraps
    let cx := c.cx - 1
    let next := c.ip + 2
    some ({ c with cx, ip := if cx ≠ 0 then next + rel8 (ram (c.ip + 1)) else next }, none)
  else if op = 0xF4 then
    some ({ c with ip := c.ip + 1 }, some .hlt)
  else none

/-- The exits up to the halt, in at most `fuel` instructions. -/
def exec (ram : UInt16 → UInt8) : ℕ → Cpu → Option (List GuestExit)
  | 0, _ => none
  | fuel + 1, c =>
      match step ram c with
      | none => none
      | some (c, none) => exec ram fuel c
      | some (_, some .hlt) => some [.hlt]
      | some (c, some e) => (exec ram fuel c).map (e :: ·)

/-! ### Executing the program -/

/-- The program is in guest RAM at its load address. -/
def Holds (ram : UInt16 → UInt8) (prog : Vector UInt8 10) : Prop :=
  ∀ i : Fin 10, ram (loadAddr.toUInt16 + UInt16.ofNat i) = prog[i]

/-- The patched bytes are the count, least significant byte first. -/
theorem fromLe_patched (c : UInt16) :
    UInt16.ofNat (fromLe [(c &&& 0xff).toUInt8, (c >>> 8).toUInt8]) = c := by
  have hlt := c.toNat_lt
  have hlow : (c &&& 0xff).toUInt8.toNat = c.toNat % 2 ^ 8 := by
    rw [UInt16.toNat_toUInt8, UInt16.toNat_and]
    show (c.toNat &&& (2 ^ 8 - 1)) % 2 ^ 8 = _
    rw [Nat.and_two_pow_sub_one_eq_mod, Nat.mod_mod]
  have hhigh : (c >>> 8).toUInt8.toNat = c.toNat / 2 ^ 8 := by
    rw [UInt16.toNat_toUInt8, UInt16.toNat_shiftRight]
    show (c.toNat >>> 8) % 2 ^ 8 = _
    rw [Nat.shiftRight_eq_div_pow, Nat.mod_eq_of_lt (by omega)]
  have hspelled : fromLe [(c &&& 0xff).toUInt8, (c >>> 8).toUInt8] = c.toNat := by
    rw [fromLe, fromLe, fromLe, hlow, hhigh]
    omega
  rw [hspelled, UInt16.ofNat_toNat]

/-- The instructions of the program, as the processor reads them. -/
structure Code (ram : UInt16 → UInt8) (count : UInt16) : Prop where
  movDx : ram 0x1000 = 0xBA
  port : imm16 ram 0x1001 = benchPort
  movCx : ram 0x1003 = 0xB9
  count : imm16 ram 0x1004 = count
  out : ram 0x1006 = 0xEE
  loop : ram 0x1007 = 0xE2
  back : rel8 (ram 0x1008) = 0xfffd
  hlt : ram 0x1009 = 0xF4

section Exec

variable {ram : UInt16 → UInt8} {count : UInt32} {prog : Vector UInt8 10} {c : UInt16}

theorem code_of_holds (hprog : benchProgram count = some prog) (hram : Holds ram prog) :
    Code ram count.toUInt16 := by
  unfold benchProgram at hprog
  split at hprog
  next =>
    cases hprog
    have hport : ram 0x1001 = 0x80 ∧ ram 0x1002 = 0x00 := ⟨hram 1, hram 2⟩
    have hcount : ram 0x1004 = (count.toUInt16 &&& 0xff).toUInt8 ∧
        ram 0x1005 = (count.toUInt16 >>> 8).toUInt8 := ⟨hram 4, hram 5⟩
    have hback : ram 0x1008 = 0xFD := hram 8
    refine ⟨hram 0, ?_, hram 3, ?_, hram 6, hram 7, ?_, hram 9⟩
    · show UInt16.ofNat (fromLe [ram 0x1001, ram 0x1002]) = benchPort
      rw [hport.1, hport.2]
      decide
    · show UInt16.ofNat (fromLe [ram 0x1004, ram 0x1005]) = count.toUInt16
      rw [hcount.1, hcount.2, fromLe_patched]
    · rw [hback]
      decide
  next => cases hprog

namespace Code

variable {ax cx dx : UInt16}

theorem step_movDx (h : Code ram c) :
    step ram { ip := 0x1000, ax, cx, dx } =
      some ({ ip := 0x1003, ax, cx, dx := benchPort }, none) := by
  unfold step
  dsimp only
  rw [h.movDx, if_pos rfl]
  show some (({ ip := _, ax, cx, dx := imm16 ram 0x1001 } : Cpu), none) = _
  rw [h.port]
  rfl

theorem step_movCx (h : Code ram c) :
    step ram { ip := 0x1003, ax, cx, dx } = some ({ ip := 0x1006, ax, cx := c, dx }, none) := by
  unfold step
  dsimp only
  rw [h.movCx, if_neg (by decide), if_pos rfl]
  show some (({ ip := _, ax, cx := imm16 ram 0x1004, dx } : Cpu), none) = _
  rw [h.count]
  rfl

theorem step_out (h : Code ram c) :
    step ram { ip := 0x1006, ax, cx, dx } =
      some ({ ip := 0x1007, ax, cx, dx }, some (.out dx ax.toUInt8)) := by
  unfold step
  dsimp only
  rw [h.out, if_neg (by decide), if_neg (by decide), if_pos rfl]
  rfl

theorem step_loop (h : Code ram c) :
    step ram { ip := 0x1007, ax, cx, dx } =
      some ({ ip := if cx - 1 ≠ 0 then 0x1006 else 0x1009, ax, cx := cx - 1, dx }, none) := by
  unfold step
  dsimp only
  rw [h.loop, if_neg (by decide), if_neg (by decide), if_neg (by decide), if_pos rfl]
  show some ((⟨if cx - 1 ≠ 0 then 0x1009 + rel8 (ram 0x1008) else 0x1009, ax, cx - 1, dx⟩ : Cpu),
    none) = _
  rw [h.back]
  rfl

theorem step_hlt (h : Code ram c) :
    step ram { ip := 0x1009, ax, cx, dx } = some ({ ip := 0x100a, ax, cx, dx }, some .hlt) := by
  unfold step
  dsimp only
  rw [h.hlt, if_neg (by decide), if_neg (by decide), if_neg (by decide), if_neg (by decide),
    if_pos rfl]
  rfl

/-- At the head of the loop with `k + 1` iterations to go. -/
theorem exec_loop (h : Code ram c) {k fuel : ℕ} (hk : k + 1 < 2 ^ 16)
    (hfuel : 2 * (k + 1) + 1 ≤ fuel) :
    exec ram fuel { ip := 0x1006, cx := UInt16.ofNat (k + 1), dx := benchPort } =
      some (List.replicate (k + 1) (.out benchPort 0) ++ [.hlt]) := by
  induction k generalizing fuel with
  -- the counter reaches zero, and LOOP falls through to HLT
  | zero =>
      obtain ⟨fuel, rfl⟩ := Nat.exists_eq_add_of_le' hfuel
      rw [exec, h.step_out]
      dsimp only
      rw [exec, h.step_loop]
      dsimp only
      rw [if_neg (by decide), exec, h.step_hlt]
      rfl
  | succ k ih =>
      obtain ⟨fuel, rfl⟩ := Nat.exists_eq_add_of_le' (show 2 ≤ fuel by omega)
      -- the counter stays nonzero, and LOOP jumps back to OUT
      have hpred : UInt16.ofNat (k + 1 + 1) - 1 = UInt16.ofNat (k + 1) := by
        rw [UInt16.ofNat_add, show UInt16.ofNat 1 = 1 from rfl, UInt16.add_sub_cancel]
      have hne : UInt16.ofNat (k + 1) ≠ 0 := by
        intro hzero
        have hnat := congrArg UInt16.toNat hzero
        rw [UInt16.toNat_ofNat', Nat.mod_eq_of_lt (by omega)] at hnat
        cases hnat
      rw [exec, h.step_out]
      dsimp only
      rw [exec, h.step_loop]
      dsimp only
      rw [hpred, if_pos hne, ih (by omega) (by omega)]
      rfl

end Code

/-- The program makes `count` exits to its port and halts, and makes no other
exit.  The bound on the instructions is what it takes. -/
theorem exec_benchProgram (hprog : benchProgram count = some prog) (hram : Holds ram prog)
    {fuel : ℕ} (hfuel : 2 * count.toNat + 3 ≤ fuel) :
    exec ram fuel (entry loadAddr) =
      some (List.replicate count.toNat (.out benchPort 0) ++ [.hlt]) := by
  have h := code_of_holds hprog hram
  have hcount : 0 < count.toNat ∧ count.toNat < 2 ^ 16 := by
    unfold benchProgram at hprog
    split at hprog
    next hrange =>
      have h₁ := UInt32.lt_iff_toNat_lt.mp hrange.1
      have h₂ := UInt32.le_iff_toNat_le.mp hrange.2
      have hmax : benchMaxPerRound.toNat = 65535 := rfl
      simp only [UInt32.toNat_zero] at h₁
      omega
    next => cases hprog
  obtain ⟨k, hk⟩ := Nat.exists_eq_add_of_lt hcount.1
  rw [Nat.zero_add] at hk
  have hcx : count.toUInt16 = UInt16.ofNat (k + 1) := by
    rw [← hk]
    exact UInt16.toNat_inj.mp rfl
  obtain ⟨fuel, rfl⟩ := Nat.exists_eq_add_of_le' (show 2 ≤ fuel by omega)
  have hentry : entry loadAddr = { ip := 0x1000, ax := 0, cx := 0, dx := 0 } := rfl
  -- the two moves set the port and the counter, then the loop runs `count` times
  rw [hentry, exec, h.step_movDx]
  dsimp only
  rw [exec, h.step_movCx]
  dsimp only
  rw [hcx, h.exec_loop (by omega) (by omega), hk]

end Exec

end Cpu

end SystemsStudy.Kvm
