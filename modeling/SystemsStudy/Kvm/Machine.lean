/-
SystemsStudy/Kvm/Machine.lean

`guest.rs`, `main.rs`: the demo program, the machine that executes it, and what
`demo()` makes of the run.

The machine is the processor of the benchmark with the instructions that the
demo adds: byte moves to and from an address, immediate moves to `al`, and `in`,
which the devices can answer.  An address below the end of guest RAM is RAM, and
any other leaves the guest.

The programs of the demo's shape print a text, send a byte through the latch and
back, and print the rest.  On the board each of them prints what it says
(`runs_greeting`), so by transparency `demo()` succeeds under every session, with
the counts and the final `rip` that the test of it expects (`demo_succeeds`).
-/
import SystemsStudy.Kvm.Transparent

namespace SystemsStudy.Kvm

open Trap Bytes

variable {n : ℕ}

/-! ### The machine -/

/-- A processor and its RAM. -/
structure Machine where
  cpu : Cpu
  ram : UInt16 → UInt8

/-- Load `al`; the other byte of `ax` stays. -/
def Cpu.setAl (c : Cpu) (b : UInt8) : Cpu :=
  { c with ax := UInt16.ofNat (c.ax.toNat / 256 * 256 + b.toNat) }

theorem Cpu.al_setAl (c : Cpu) (b : UInt8) : (c.setAl b).ax.toUInt8 = b := by
  have hb := b.toNat_lt
  apply UInt8.toNat_inj.mp
  rw [UInt16.toNat_toUInt8]
  show (UInt16.ofNat (c.ax.toNat / 256 * 256 + b.toNat)).toNat % 2 ^ 8 = _
  rw [UInt16.toNat_ofNat']
  omega

/-- Bytes of an instruction, from its first. -/
def instrLen (op : UInt8) : ℕ :=
  if op = 0xBA ∨ op = 0xB9 ∨ op = 0xA2 ∨ op = 0xA0 then 3
  else if op = 0xB0 ∨ op = 0xE2 then 2
  else 1

namespace Machine

/-- Execute one instruction. -/
def next : Guest Machine := fun m =>
  let op := m.ram m.cpu.ip
  let past := m.cpu.ip + UInt16.ofNat (instrLen op)
  let addr := Cpu.imm16 m.ram (m.cpu.ip + 1)
  -- code outside RAM is no code
  if guestRam < m.cpu.ip.toNat + instrLen op then .stuck
  else if op = 0xB0 then
    .quiet { m with cpu := { m.cpu.setAl (m.ram (m.cpu.ip + 1)) with ip := past } }
  else if op = 0xA2 then
    let al := m.cpu.ax.toUInt8
    let cpu := { m.cpu with ip := past }
    if addr.toNat < guestRam then .quiet { cpu, ram := Function.update m.ram addr al }
    else .call (.store addr.toUInt64 [al]) fun _ => { m with cpu }
  else if op = 0xA0 then
    let cpu := { m.cpu with ip := past }
    if addr.toNat < guestRam then .quiet { m with cpu := cpu.setAl (m.ram addr) }
    else .call (.load addr.toUInt64 1) fun bytes => { m with cpu := cpu.setAl (bytes.headD 0) }
  else if op = 0xEC then
    .call (.inp m.cpu.dx 1) fun bytes =>
      { m with cpu := { m.cpu.setAl (bytes.headD 0) with ip := past } }
  else
    match m.cpu.step m.ram with
    | none => .stuck
    | some (cpu, none) => .quiet { m with cpu }
    | some (cpu, some (.out port al)) => .call (.out port [al]) fun _ => { m with cpu }
    | some (cpu, some .hlt) => .halt { m with cpu }

/-- The bytes stand in RAM from an address on. -/
def CodeAt (ram : UInt16 → UInt8) (a : ℕ) (bytes : List UInt8) : Prop :=
  a + bytes.length ≤ guestRam ∧ ∀ i b, bytes[i]? = some b → ram (UInt16.ofNat (a + i)) = b

section Code

variable {ram : UInt16 → UInt8} {a : ℕ} {xs : List UInt8} {b lo hi : UInt8} {m : Machine}

theorem CodeAt.split (xs ys : List UInt8) (h : CodeAt ram a (xs ++ ys)) :
    CodeAt ram a xs ∧ CodeAt ram (a + xs.length) ys := by
  obtain ⟨hfit, hbytes⟩ := h
  rw [List.length_append] at hfit
  refine ⟨⟨by omega, fun i b hb => hbytes i b ?_⟩, ⟨by omega, fun i b hb => ?_⟩⟩
  · rw [List.getElem?_append_left (List.getElem?_eq_some_iff.mp hb).1, hb]
  · rw [Nat.add_assoc]
    refine hbytes _ b ?_
    rw [List.getElem?_append_right (Nat.le_add_right _ _), Nat.add_sub_cancel_left, hb]

theorem CodeAt.byte (h : CodeAt m.ram a xs) (hip : m.cpu.ip = UInt16.ofNat a) {i : ℕ}
    (hb : xs[i]? = some b) : m.ram (m.cpu.ip + UInt16.ofNat i) = b := by
  rw [hip, ← UInt16.ofNat_add]
  exact h.2 i b hb

theorem CodeAt.op (h : CodeAt m.ram a (b :: xs)) (hip : m.cpu.ip = UInt16.ofNat a) :
    m.ram m.cpu.ip = b := by
  have := h.byte hip (i := 0) rfl
  rwa [show UInt16.ofNat 0 = 0 from rfl, UInt16.add_zero] at this

theorem CodeAt.imm16 (h : CodeAt m.ram a (b :: lo :: hi :: xs))
    (hip : m.cpu.ip = UInt16.ofNat a) :
    Cpu.imm16 m.ram (m.cpu.ip + 1) = UInt16.ofNat (fromLe [lo, hi]) := by
  have hlo : m.ram (m.cpu.ip + 1) = lo := h.byte hip (i := 1) rfl
  have hhi : m.ram (m.cpu.ip + 1 + 1) = hi := by
    rw [UInt16.add_assoc]
    exact h.byte hip (i := 2) rfl
  rw [Cpu.imm16, hlo, hhi]

theorem CodeAt.fetched (h : CodeAt m.ram a xs) (hip : m.cpu.ip = UInt16.ofNat a) (len : ℕ)
    (hlen : len ≤ xs.length) : ¬ guestRam < m.cpu.ip.toNat + len := by
  have hfit := h.1
  have hram : guestRam = 32768 := rfl
  rw [hip, UInt16.toNat_ofNat', Nat.mod_eq_of_lt (by omega)]
  omega

/-- The address behind an instruction. -/
theorem past_eq (hip : m.cpu.ip = UInt16.ofNat a) (len : ℕ) :
    m.cpu.ip + UInt16.ofNat len = UInt16.ofNat (a + len) := by
  rw [hip, UInt16.ofNat_add]

theorem next_movAl (h : CodeAt m.ram a [0xB0, b]) (hip : m.cpu.ip = UInt16.ofNat a) :
    next m = .quiet { m with cpu := { m.cpu.setAl b with ip := UInt16.ofNat (a + 2) } } := by
  unfold next
  dsimp only
  rw [h.op hip, if_neg (h.fetched hip (instrLen 0xB0) (Nat.le_refl _)), if_pos rfl,
    past_eq hip, show m.ram (m.cpu.ip + 1) = b from h.byte hip (i := 1) rfl]
  rfl

theorem next_store (h : CodeAt m.ram a [0xA2, lo, hi]) (hip : m.cpu.ip = UInt16.ofNat a)
    (hdev : ¬ (UInt16.ofNat (fromLe [lo, hi])).toNat < guestRam) :
    next m = .call (.store (UInt16.ofNat (fromLe [lo, hi])).toUInt64 [m.cpu.ax.toUInt8])
      fun _ => { m with cpu := { m.cpu with ip := UInt16.ofNat (a + 3) } } := by
  unfold next
  dsimp only
  rw [h.op hip, if_neg (h.fetched hip (instrLen 0xA2) (Nat.le_refl _)), if_neg (by decide),
    if_pos rfl, h.imm16 hip, if_neg hdev, past_eq hip]
  rfl

theorem next_load (h : CodeAt m.ram a [0xA0, lo, hi]) (hip : m.cpu.ip = UInt16.ofNat a)
    (hdev : ¬ (UInt16.ofNat (fromLe [lo, hi])).toNat < guestRam) :
    next m = .call (.load (UInt16.ofNat (fromLe [lo, hi])).toUInt64 1) fun bytes =>
      { m with cpu := { m.cpu with ip := UInt16.ofNat (a + 3) }.setAl (bytes.headD 0) } := by
  unfold next
  dsimp only
  rw [h.op hip, if_neg (h.fetched hip (instrLen 0xA0) (Nat.le_refl _)), if_neg (by decide),
    if_neg (by decide), if_pos rfl, h.imm16 hip, if_neg hdev, past_eq hip]
  rfl

/-- The instructions of the benchmark are the processor's. -/
theorem next_of_step (h : CodeAt m.ram a xs) (hip : m.cpu.ip = UInt16.ofNat a)
    (hlen : instrLen (m.ram m.cpu.ip) ≤ xs.length)
    (hop : m.ram m.cpu.ip ∉ ([0xB0, 0xA2, 0xA0, 0xEC] : List UInt8)) :
    next m = match m.cpu.step m.ram with
      | none => .stuck
      | some (cpu, none) => .quiet { m with cpu }
      | some (cpu, some (.out port al)) => .call (.out port [al]) fun _ => { m with cpu }
      | some (cpu, some .hlt) => .halt { m with cpu } := by
  simp only [List.mem_cons, List.not_mem_nil, or_false, not_or] at hop
  obtain ⟨hB0, hA2, hA0, hEC⟩ := hop
  unfold next
  dsimp only
  rw [if_neg (h.fetched hip _ hlen), if_neg hB0, if_neg hA2, if_neg hA0, if_neg hEC]

theorem next_movDx (h : CodeAt m.ram a [0xBA, lo, hi]) (hip : m.cpu.ip = UInt16.ofNat a) :
    next m = .quiet { m with cpu := { m.cpu with
      dx := UInt16.ofNat (fromLe [lo, hi]), ip := UInt16.ofNat (a + 3) } } := by
  have hop := h.op hip
  rw [next_of_step h hip (by rw [hop]; exact Nat.le_refl _) (by rw [hop]; decide), ← past_eq hip,
    ← h.imm16 hip]
  simp only [Cpu.step, hop, if_true]
  rfl

theorem next_out (h : CodeAt m.ram a [0xEE]) (hip : m.cpu.ip = UInt16.ofNat a) :
    next m = .call (.out m.cpu.dx [m.cpu.ax.toUInt8])
      fun _ => { m with cpu := { m.cpu with ip := UInt16.ofNat (a + 1) } } := by
  have hop := h.op hip
  have hstep : m.cpu.step m.ram =
      some ({ m.cpu with ip := m.cpu.ip + 1 }, some (.out m.cpu.dx m.cpu.ax.toUInt8)) := by
    rw [Cpu.step]
    dsimp only
    rw [hop, if_neg (by decide), if_neg (by decide), if_pos rfl]
  rw [next_of_step h hip (by rw [hop]; decide) (by rw [hop]; decide), hstep, ← past_eq hip]
  rfl

theorem next_hlt (h : CodeAt m.ram a [0xF4]) (hip : m.cpu.ip = UInt16.ofNat a) :
    next m = .halt { m with cpu := { m.cpu with ip := UInt16.ofNat (a + 1) } } := by
  have hop := h.op hip
  have hstep : m.cpu.step m.ram = some ({ m.cpu with ip := m.cpu.ip + 1 }, some .hlt) := by
    rw [Cpu.step]
    dsimp only
    rw [hop, if_neg (by decide), if_neg (by decide), if_neg (by decide), if_neg (by decide),
      if_pos rfl]
  rw [next_of_step h hip (by rw [hop]; decide) (by rw [hop]; decide), hstep, ← past_eq hip]
  rfl

end Code

/-! ### Programs of the demo's shape -/

/-- Print a text: `mov al, b` and `out dx, al` for each byte. -/
def say (text : List UInt8) : List UInt8 := text.flatMap fun b => [0xB0, b, 0xEE]

/-- Latch a byte, read it back and print what was read. -/
def echo (b : UInt8) : List UInt8 :=
  [0xB0, b, 0xA2, 0x00, 0x80, 0xA0, 0x00, 0x80, 0xEE]

/-- Print a text, a byte through the latch, and another text. -/
def greeting (before : List UInt8) (b : UInt8) (after : List UInt8) : List UInt8 :=
  [0xBA, 0xF8, 0x03] ++ (say before ++ (echo b ++ (say after ++ [0xF4])))

/-- The accesses that print a text. -/
def said (text : List UInt8) : List Access := text.map fun b => .out serialPort [b]

/-- A byte goes through the latch: stored there, loaded back, and sent to the port. -/
def echoed (b : UInt8) : List Access :=
  [.store mmioBase [b], .load mmioBase 1, .out serialPort [b]]

/-- All accesses of the demo: the first text, the byte from the latch, the second text. -/
def greeted (before : List UInt8) (b : UInt8) (after : List UInt8) : List Access :=
  said before ++ echoed b ++ said after

/-- A board, after some accesses, about to execute an address of its RAM. -/
structure Stands (b₀ : Board Machine) (m : Machine) (ram : UInt16 → UInt8) (a : ℕ)
    (log : List Access) : Prop where
  runs : Runs next Chip.serve b₀ ⟨m, Chip.after log, log⟩
  ram : m.ram = ram
  ip : m.cpu.ip = UInt16.ofNat a
  dx : m.cpu.dx = serialPort

section Greeting

variable {b₀ : Board Machine} {m : Machine} {ram : UInt16 → UInt8} {a : ℕ} {log : List Access}
variable {b : UInt8}

/-- An access that a device answers is on the log. -/
theorem runs_access {s : Machine} {x : Access} {k : List UInt8 → Machine}
    (h : Runs next Chip.serve b₀ ⟨s, Chip.after log, log⟩) (hx : next s = .call x k)
    (hbus : x.onBus = true) :
    Runs next Chip.serve b₀ ⟨k (x.answer log), Chip.after (log ++ [x]), log ++ [x]⟩ :=
  h.tail (wire_call hx (Chip.serve_after log hbus))

theorem Stands.say_byte (h : Stands b₀ m ram a log) (hcode : CodeAt ram a [0xB0, b, 0xEE]) :
    ∃ m', Stands b₀ m' ram (a + 3) (log ++ [.out serialPort [b]]) := by
  obtain ⟨hruns, rfl, hip, hdx⟩ := h
  obtain ⟨hcode₀, hcode₂⟩ := CodeAt.split [0xB0, b] [0xEE] hcode
  have hmov := next_movAl hcode₀ hip
  have hout := @next_out (a + 2)
    { m with cpu := { m.cpu.setAl b with ip := UInt16.ofNat (a + 2) } } hcode₂ rfl
  rw [show (m.cpu.setAl b).ax.toUInt8 = b from Cpu.al_setAl _ _,
    show (m.cpu.setAl b).dx = serialPort from hdx] at hout
  exact ⟨_, runs_access (hruns.tail (wire_quiet hmov)) hout rfl, rfl, rfl, hdx⟩

theorem Stands.say (text : List UInt8) (h : Stands b₀ m ram a log)
    (hcode : CodeAt ram a (say text)) :
    ∃ m', Stands b₀ m' ram (a + (Machine.say text).length) (log ++ said text) := by
  induction text generalizing m a log with
  | nil => exact ⟨m, (List.append_nil log).symm ▸ h⟩
  | cons b text ih =>
      have hsplit : Machine.say (b :: text) = [0xB0, b, 0xEE] ++ Machine.say text := rfl
      rw [hsplit] at hcode
      obtain ⟨hbyte, hrest⟩ := CodeAt.split _ _ hcode
      obtain ⟨m₁, h₁⟩ := h.say_byte hbyte
      obtain ⟨m', h'⟩ := ih h₁ hrest
      rw [List.append_assoc, Nat.add_assoc] at h'
      rw [hsplit, List.length_append]
      exact ⟨m', h'⟩

theorem Stands.echo (h : Stands b₀ m ram a log) (hcode : CodeAt ram a (echo b)) :
    ∃ m', Stands b₀ m' ram (a + (Machine.echo b).length) (log ++ echoed b) := by
  obtain ⟨hruns, rfl, hip, hdx⟩ := h
  have hbase : (UInt16.ofNat (fromLe [0x00, 0x80])).toUInt64 = mmioBase := by decide
  have hdev : ¬ (UInt16.ofNat (fromLe [0x00, 0x80])).toNat < guestRam := by decide
  obtain ⟨hcode₀, hrest₂⟩ :=
    CodeAt.split [0xB0, b] [0xA2, 0x00, 0x80, 0xA0, 0x00, 0x80, 0xEE] hcode
  obtain ⟨hcode₂, hrest₅⟩ := CodeAt.split [0xA2, 0x00, 0x80] [0xA0, 0x00, 0x80, 0xEE] hrest₂
  obtain ⟨hcode₅, hcode₈⟩ := CodeAt.split [0xA0, 0x00, 0x80] [0xEE] hrest₅
  let m₁ : Machine := { m with cpu := { m.cpu.setAl b with ip := UInt16.ofNat (a + 2) } }
  let m₂ : Machine := { m₁ with cpu := { m₁.cpu with ip := UInt16.ofNat (a + 5) } }
  let m₃ : Machine := { m₂ with cpu := { m₂.cpu with ip := UInt16.ofNat (a + 8) }.setAl b }
  have hmov : next m = .quiet m₁ := next_movAl hcode₀ hip
  have hstore := @next_store (a + 2) 0x00 0x80 m₁ hcode₂ rfl hdev
  rw [hbase, show m₁.cpu.ax.toUInt8 = b from Cpu.al_setAl _ _] at hstore
  have hload := @next_load (a + 5) 0x00 0x80 m₂ hcode₅ rfl hdev
  rw [hbase] at hload
  have hout := @next_out (a + 8) m₃ hcode₈ rfl
  rw [show m₃.cpu.ax.toUInt8 = b from Cpu.al_setAl _ _,
    show m₃.cpu.dx = serialPort from hdx] at hout
  -- what the load reads is what the store left in the latch
  have hread : (Access.load mmioBase 1).answer (log ++ [.store mmioBase [b]]) = [b] := by
    simp [Access.answer, Access.latch_snoc]
  have h₁ : Runs next Chip.serve b₀ ⟨m₁, Chip.after log, log⟩ := hruns.tail (wire_quiet hmov)
  have h₂ := runs_access h₁ hstore rfl
  have h₃ := runs_access h₂ hload rfl
  rw [hread] at h₃
  have h₄ := runs_access h₃ hout rfl
  rw [List.append_assoc, List.append_assoc] at h₄
  exact ⟨_, h₄, rfl, rfl, hdx⟩

/-- A program of the demo's shape prints what it says and halts one past its last byte. -/
theorem runs_greeting (before : List UInt8) (b : UInt8) (after : List UInt8)
    (hcode : CodeAt ram loadAddr.toNat (greeting before b after)) :
    ∃ m u, Runs next Chip.serve (Board.boot { cpu := Cpu.entry loadAddr, ram })
        ⟨m, Chip.after (greeted before b after), greeted before b after⟩ ∧
      next m = .halt u ∧
      u.cpu.ip = UInt16.ofNat (loadAddr.toNat + (greeting before b after).length) := by
  obtain ⟨hmov, hrest⟩ := CodeAt.split _ _ hcode
  obtain ⟨hbefore, hrest⟩ := CodeAt.split _ _ hrest
  obtain ⟨hecho, hrest⟩ := CodeAt.split _ _ hrest
  obtain ⟨hafter, hhlt⟩ := CodeAt.split _ _ hrest
  let m₀ : Machine := { cpu := Cpu.entry loadAddr, ram }
  have hport : UInt16.ofNat (fromLe [0xF8, 0x03]) = serialPort := by decide
  have hnext := @next_movDx loadAddr.toNat 0xF8 0x03 m₀ hmov rfl
  rw [hport] at hnext
  have hstart : Stands (Board.boot m₀)
      { m₀ with cpu := { m₀.cpu with dx := serialPort, ip := UInt16.ofNat (loadAddr.toNat + 3) } }
      ram (loadAddr.toNat + 3) [] :=
    ⟨.single (wire_quiet hnext), rfl, rfl, rfl⟩
  -- the text before the echo, the echo through the latch, the text after it
  obtain ⟨m₁, h₁⟩ := hstart.say before hbefore
  obtain ⟨m₂, h₂⟩ := h₁.echo hecho
  obtain ⟨m₃, hruns, hram, hip, -⟩ := h₂.say after hafter
  rw [← hram] at hhlt
  refine ⟨m₃, _, hruns, next_hlt hhlt hip, ?_⟩
  show UInt16.ofNat _ = UInt16.ofNat _
  simp only [greeting, List.length_append, List.length_cons, List.length_nil, Nat.add_assoc]

end Greeting

end Machine

/-! ### The demo -/

/-- The demo program. -/
def demoProgram : Vector UInt8 28 :=
  #v[0xBA, 0xF8, 0x03, -- mov dx, 0x3f8
    0xB0, 0x4B,        -- mov al, 'K'
    0xEE,              -- out dx, al
    0xB0, 0x56,        -- mov al, 'V'
    0xEE,              -- out dx, al
    0xB0, 0x4D,        -- mov al, 'M'
    0xEE,              -- out dx, al
    0xB0, 0x0A,        -- mov al, newline
    0xEE,              -- out dx, al
    0xB0, 0x42,        -- mov al, 0x42
    0xA2, 0x00, 0x80,  -- mov [0x8000], al
    0xA0, 0x00, 0x80,  -- mov al, [0x8000]
    0xEE,              -- out dx, al
    0xB0, 0x0A,        -- mov al, newline
    0xEE,              -- out dx, al
    0xF4]              -- hlt

/-- What the demo must print: `KVM`, `B`, each on its line. -/
def demoExpectedOutput : List UInt8 := [0x4B, 0x56, 0x4D, 0x0A, 0x42, 0x0A]

/-- The demo program, as the slice that is loaded. -/
def demoSlice : ByteSlice where
  bytes := demoProgram.toList
  len_lt := by decide

/-- Why the demo fails. -/
inductive DemoError where
  | run (e : RunError)
  /-- guest output mismatch -/
  | mismatch (got expected : List UInt8)
  /-- guest performed accesses the device model does not describe -/
  | undescribed
  deriving DecidableEq

/-- What the demo makes of its run; nothing while the guest runs on. -/
def demoVerdict (r : Ran n) : Option (Except DemoError Unit) :=
  r.result.map fun
    | .error e => .error (.run e)
    | .ok _ =>
        if r.devices.serialOut ≠ demoExpectedOutput then
          .error (.mismatch r.devices.serialOut demoExpectedOutput)
        else if r.devices.unhandled ≠ 0 then .error .undescribed
        else .ok ()

/-- Boot the demo guest and check what it printed. -/
def demo (vm : Vm) (trace : List (Outcome n)) : Option (Option (Except DemoError Unit)) := do
  let (loaded, _) ← vm.load loadAddr demoSlice
  match loaded with
  | .error e => return some (.error (.run e))
  | .ok () =>
      let r ← Vm.run {} trace
      return demoVerdict r

/-- The guest that `demo()` enters: registers as `set_real_mode_regs` leaves them, and
the RAM of the machine. -/
def Vm.guest (vm : Vm) : Machine where
  cpu := Cpu.entry loadAddr
  ram a := vm.ram a.toNat

theorem demoProgram_eq :
    demoProgram.toList = Machine.greeting [0x4B, 0x56, 0x4D, 0x0A] 0x42 [0x0A] := by
  decide

theorem codeAt_of_loaded {vm vm' : Vm} (h : Vm.Loaded vm vm' loadAddr demoSlice) :
    Machine.CodeAt vm'.guest.ram loadAddr.toNat demoProgram.toList := by
  refine ⟨by decide, fun i b hb => ?_⟩
  obtain ⟨hi, rfl⟩ := List.getElem?_eq_some_iff.mp hb
  have hlen : i < 28 := hi
  have hstored := h.stored i hi
  have hload : loadAddr.toNat = 4096 := rfl
  show vm'.ram (UInt16.ofNat (loadAddr.toNat + i)).toNat = _
  rw [UInt16.toNat_ofNat', Nat.mod_eq_of_lt (by omega), hstored, List.getD_eq_getElem?_getD,
    show demoSlice.bytes[i]? = _ from hb]
  rfl

/-- For every machine with the RAM of `main.rs` and every session with the demo guest of
fewer than `2^64` calls: `demo()` does not panic or fail.  It waits for at most eight
exits other than interruptions, and then succeeds, after six exits for the serial port
and two for the device, with `rip` one past the `hlt`. -/
theorem demo_succeeds (vm : Vm) (hvm : vm.memSize = guestRam) (trace : List (Outcome n))
    (hroom : trace.length < 2 ^ 64) :
    ∃ vm' r, vm.load loadAddr demoSlice = some (.ok (), vm') ∧ Vm.run {} trace = some r ∧
      demo vm trace = some (demoVerdict r) ∧
      ∀ v, Session Machine.next vm'.guest trace r.replies v →
        (demoVerdict r = none ∧ trace.length ≤ 8 + (trace.map event).count .eintr +
          (trace.map event).count .intr) ∨
        (demoVerdict r = some (.ok ()) ∧ ∃ summary u, r.result = some (.ok summary) ∧
          summary.ioExits = 6 ∧ summary.mmioExits = 2 ∧ v.guest = .ready u ∧
          u.cpu.ip.toNat = loadAddr.toNat + demoProgram.toList.length) := by
  obtain ⟨vm', hload, hloaded⟩ := @Vm.load_of_inside vm loadAddr demoSlice (by rw [hvm]; decide)
  have hcode := codeAt_of_loaded hloaded
  rw [demoProgram_eq] at hcode
  obtain ⟨m, u, hruns, hhalt, hip⟩ := Machine.runs_greeting _ _ _ hcode
  obtain ⟨r, hr, hall⟩ := Vm.run_halts hruns hhalt hroom
  refine ⟨vm', r, hload, hr, ?_, fun v hsession => ?_⟩
  · rw [demo, hload, Option.bind_eq_bind, Option.bind_some]
    dsimp only
    rw [hr]
    rfl
  · rcases hall v hsession with ⟨hnone, hlen⟩ | ⟨summary, hok, hguest, hhalted, hdev, hserial, -⟩
    · -- the session stopped before the halt
      refine .inl ⟨?_, hlen⟩
      rw [demoVerdict, hnone, Option.map_none]
    · -- the guest halted: all it printed and every exit is accounted for
      have hun : r.devices.unhandled = 0 := UInt64.toNat_inj.mp hdev.unhandled
      have hprinted : r.devices.serialOut = demoExpectedOutput := hserial
      refine .inr ⟨?_, summary, u, hok, UInt64.toNat_inj.mp hhalted.ioExits,
        UInt64.toNat_inj.mp hhalted.mmioExits, hguest, ?_⟩
      · rw [demoVerdict, hok, Option.map_some, hprinted, hun]
        rfl
      · rw [hip, demoProgram_eq]
        decide

/-- `benchVm` with the demo program loaded. -/
def demoVm : Vm :=
  { benchVm with
    memory := fun a =>
      if (a - 0x11000).toNat < 28 then demoProgram.toList.getD (a - 0x11000).toNat 0 else 0 }

theorem load_demoVm : benchVm.load loadAddr demoSlice = some (.ok (), demoVm) := rfl

/-- The demo guest on `demoVm`, about to execute an address. -/
def demoAt (ip ax dx : UInt16) : Machine where
  cpu := { ip, ax, dx }
  ram := demoVm.guest.ram

/-- An exit for the serial port. -/
def sayExit (b : UInt8) : Outcome 1 :=
  bytePage kvmExitIo { direction := kvmExitIoOut, size := 1, port := serialPort, count := 1 } {} b

/-- An exit for the latch. -/
def latchExit (isWrite b : UInt8) : Outcome 1 :=
  bytePage kvmExitMmio {}
    { physAddr := mmioBase, data := Vector.replicate 8 b, len := 1, isWrite } 0

/-- The exit of the halt, the last of the demo. -/
def hltExit : Outcome 1 := bytePage kvmExitHlt {} {} 0

/-- The nine exits of the demo, interrupted after its first instruction. -/
def demoTrace : List (Outcome 1) :=
  [.error eintr, sayExit 0x4B, sayExit 0x56, sayExit 0x4D, sayExit 0x0A, latchExit 1 0x42,
    latchExit 0 0, sayExit 0x42, sayExit 0x0A, hltExit]

/-- One `KVM_RUN` that loads a byte and prints it. -/
theorem demo_prints (ip ax ax' : UInt16) {b : UInt8}
    (hmov : Machine.next (demoAt ip ax serialPort) = .quiet (demoAt (ip + 2) ax' serialPort))
    (hout : Machine.next (demoAt (ip + 2) ax' serialPort) =
      .call (.out serialPort [b]) fun _ => demoAt (ip + 3) ax' serialPort) :
    KvmRuns Machine.next (demoAt ip ax serialPort) (sayExit b)
      { guest := .waiting fun _ => demoAt (ip + 3) ax' serialPort } :=
  .exit (.call (.single hmov) hout) (.out rfl rfl (Nat.le_refl 1) rfl)

/-- The guest makes these exits, and is left one past its `hlt`. -/
theorem demo_session :
    ∃ r, Vm.run {} demoTrace = some r ∧
      Session Machine.next demoVm.guest demoTrace r.replies
        { guest := .ready (demoAt 0x101c 0x0A serialPort) } := by
  refine ⟨_, rfl, ?_⟩
  -- `mov dx` is executed before the interruption
  refine .resumed (.eintr (.interrupted (.single (b := demoAt 0x1003 0 serialPort) rfl))) ?_
  refine .resumed (demo_prints 0x1003 0 0x4B rfl rfl) ?_
  refine .resumed (demo_prints 0x1006 0x4B 0x56 rfl rfl) ?_
  refine .resumed (demo_prints 0x1009 0x56 0x4D rfl rfl) ?_
  refine .resumed (demo_prints 0x100c 0x4D 0x0A rfl rfl) ?_
  -- the byte goes to the latch, comes back and is printed
  refine .resumed (.exit (.call (t := demoAt 0x1011 0x42 serialPort)
    (k := fun _ => demoAt 0x1014 0x42 serialPort) (.single rfl) rfl)
    (.store rfl (by decide) rfl (by decide) rfl)) ?_
  refine .resumed (.exit (.call (t := demoAt 0x1014 0x42 serialPort) .refl rfl)
    (.load rfl rfl rfl (by decide))) ?_
  refine .resumed (.exit (.call (t := demoAt 0x1017 0x42 serialPort)
    (k := fun _ => demoAt 0x1018 0x42 serialPort) .refl rfl)
    (.out rfl rfl (Nat.le_refl 1) rfl)) ?_
  refine .resumed (demo_prints 0x1018 0x42 0x0A rfl rfl) ?_
  exact .exited (.hlt (.halted .refl rfl) rfl)

theorem demo_succeeds_interrupted :
    ∃ r summary, Vm.run {} demoTrace = some r ∧
      Session Machine.next demoVm.guest demoTrace r.replies
        { guest := .ready (demoAt 0x101c 0x0A serialPort) } ∧
      demo benchVm demoTrace = some (some (.ok ())) ∧ r.result = some (.ok summary) ∧
      summary.ioExits = 6 ∧ summary.mmioExits = 2 := by
  obtain ⟨r, hr, hsession⟩ := demo_session
  obtain ⟨vm', r', hload, hr', hdemo, hall⟩ :=
    demo_succeeds benchVm rfl demoTrace (by decide)
  cases hr.symm.trans hr'
  cases load_demoVm.symm.trans hload
  rcases hall _ hsession with ⟨-, hlen⟩ | ⟨hok, summary, -, hresult, hio, hmmio, -⟩
  · -- ten calls, of which one was interrupted
    exact absurd hlen (by decide)
  · exact ⟨r, summary, hr, hsession, hdemo.trans (congrArg some hok), hresult, hio, hmmio⟩

end SystemsStudy.Kvm
