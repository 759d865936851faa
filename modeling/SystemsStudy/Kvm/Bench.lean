/-
SystemsStudy/Kvm/Bench.lean

`main.rs`: the rounds of the exit-cost benchmark.

Each round loads the program with as many iterations as its counter can hold,
points the vCPU at it and runs it until it halts (`Bench.round`); the rounds go
on until all samples are taken (`Bench.rounds`).  What `KVM_RUN` does, and how
long it takes, is input.  The lines printed to stderr are left out, and so are
the two ioctls that set the registers, which are `Cpu.entry` on the guest's
side.

A pass of the loop is characterised for each event of the benchmark
(`Vm.pass_counted`), and so is the loop over many of them (`Vm.loop_counted`).
-/
import SystemsStudy.Kvm.Guest
import SystemsStudy.Kvm.Trace

namespace SystemsStudy.Kvm

variable {n : ℕ}

/-! ### A timed run -/

/-- `Vm::run` with timings: one sample is appended per return of `KVM_RUN`. -/
def Vm.timedLoop (st : RunState) (timings : List UInt64) :
    List (Outcome n × UInt64) → Option (Ran n × List UInt64)
  | [] => some ({ devices := st.devices, replies := [], result := none }, timings)
  | (o, ns) :: trace =>
      let timings := timings ++ [ns]
      match pass st o with
      | none => none
      | some (.returned st r) =>
          some ({ devices := st.devices, replies := [], result := some r }, timings)
      | some (.resumed st reply) =>
          (timedLoop st timings trace).map fun r =>
            ({ r.1 with replies := reply :: r.1.replies }, r.2)

/-- How many times `KVM_RUN` returned. -/
def Ran.returns (r : Ran n) : ℕ := r.replies.length + if r.result.isSome then 1 else 0

/-- The timings do not change what the loop does, and there is one for each
return. -/
theorem Vm.timedLoop_eq (st : RunState) (timings : List UInt64)
    (trace : List (Outcome n × UInt64)) :
    timedLoop st timings trace = (loop st (trace.map Prod.fst)).map fun r =>
      (r, timings ++ (trace.take r.returns).map Prod.snd) := by
  induction trace generalizing st timings with
  | nil =>
      show some (_, timings) = some (_, timings ++ (List.take _ []).map Prod.snd)
      rw [List.take_nil, List.map_nil, List.append_nil]
  | cons x trace ih =>
      obtain ⟨o, ns⟩ := x
      rw [timedLoop, List.map_cons, loop]
      -- the pass overflows a counter, resumes, or ends the loop
      rcases pass st o with - | (⟨st', reply⟩ | ⟨st', r⟩)
      · rfl
      · dsimp only
        rw [ih, Option.map_map, Option.map_map]
        congr 1
        funext r
        have hreturns : ({ r with replies := reply :: r.replies } : Ran n).returns =
            r.returns + 1 := Nat.add_right_comm _ _ _
        dsimp only [Function.comp_apply]
        rw [hreturns, List.take_succ_cons, List.map_cons, List.append_assoc, List.singleton_append]
      · rfl

/-! ### The events of the benchmark -/

namespace Event

/-- The host interrupted the vCPU. -/
def isInterruption : Event → Bool
  | .eintr => true
  | .intr => true
  | _ => false

/-- An exit of the benchmark's loop. -/
def isBenchOut : Event → Bool
  | .access (.out port _) => port == benchPort
  | _ => false

/-- What can happen while the benchmark program runs. -/
def Ordinary (e : Event) : Prop := e.isInterruption = true ∨ e.isBenchOut = true

end Event

/-- An exit of the guest, as `KVM_RUN` reports it. -/
def GuestExit.event : GuestExit → Event
  | .out port al => .access (.out port [al])
  | .hlt => .hlt

section Passes

variable {st : RunState} {o : Outcome n}

theorem event_eq_eintr (h : event o = .eintr) : o = .error eintr := by
  cases o with
  | error e =>
      simp only [event] at h
      split_ifs at h with he
      rw [he]
  | ok page =>
      simp only [event, KvmRun.ioEvent, KvmRun.mmioEvent] at h
      split_ifs at h

theorem event_eq_intr (h : event o = .intr) :
    ∃ page : KvmRun n, o = .ok page ∧ page.exitReason = kvmExitIntr := by
  cases o with
  | error e =>
      simp only [event] at h
      split_ifs at h
  | ok page =>
      simp only [event, KvmRun.ioEvent, KvmRun.mmioEvent] at h
      split_ifs at h
      exact ⟨page, rfl, ‹_›⟩

theorem event_eq_hlt (h : event o = .hlt) :
    ∃ page : KvmRun n, o = .ok page ∧ page.exitReason = kvmExitHlt := by
  cases o with
  | error e =>
      simp only [event] at h
      split_ifs at h
  | ok page =>
      simp only [event, KvmRun.ioEvent, KvmRun.mmioEvent] at h
      split_ifs at h
      exact ⟨page, rfl, ‹_›⟩

theorem event_eq_out {port : UInt16} {data : List UInt8} (h : event o = .access (.out port data)) :
    ∃ page : KvmRun n, o = .ok page ∧ page.exitReason = kvmExitIo ∧
      page.io.dataOffset.toNat + page.ioLen ≤ n ∧ page.io.direction = kvmExitIoOut ∧
      page.io.port = port ∧ page.payload = data := by
  cases o with
  | error e =>
      simp only [event] at h
      split_ifs at h
  | ok page =>
      simp only [event, KvmRun.ioEvent, KvmRun.mmioEvent] at h
      split_ifs at h with hio hbounds hout
      · cases h
        exact ⟨page, rfl, hio, Nat.not_lt.mp hbounds, hout, rfl, rfl⟩
      all_goals cases h

theorem Vm.pass_eintr (h : event o = .eintr) :
    pass st o = (incr st.summary.interrupted).bind fun k =>
      some (.resumed { st with summary.interrupted := k } o) := by
  rw [event_eq_eintr h]
  simp only [pass, if_true]
  rfl

theorem Vm.pass_intr (h : event o = .intr) :
    pass st o = (incr st.summary.exits).bind fun m =>
      (incr st.summary.interrupted).bind fun k => some (.resumed
        { st with summary := { st.summary with exits := m, interrupted := k } } o) := by
  obtain ⟨page, rfl, hexit⟩ := event_eq_intr h
  simp only [pass, hexit]
  rfl

theorem Vm.pass_hlt (h : event o = .hlt) :
    pass st o = (incr st.summary.exits).bind fun m =>
      some (.returned { st with summary.exits := m } (.ok { st.summary with exits := m })) := by
  obtain ⟨page, rfl, hexit⟩ := event_eq_hlt h
  simp only [pass, hexit]
  rfl

/-- The benchmark port only counts. -/
theorem Devices.pioWrite_benchPort (d : Devices) (data : List UInt8) :
    d.pioWrite benchPort data = (incr d.pioWrites).bind fun k => some { d with pioWrites := k } :=
  rfl

theorem Vm.pass_out {data : List UInt8} (h : event o = .access (.out benchPort data)) :
    pass st o = (incr st.summary.exits).bind fun m => (incr st.summary.ioExits).bind fun k =>
      (incr st.devices.pioWrites).bind fun w => some (.resumed
        { devices := { st.devices with pioWrites := w }
          summary := { st.summary with exits := m, ioExits := k } } o) := by
  obtain ⟨page, rfl, hexit, hbounds, hdir, hport, hdata⟩ := event_eq_out h
  have hin := mt page.out_of_bounds.mp (Nat.not_lt.mpr hbounds)
  simp only [pass, hexit, ioExit, if_neg hin, hdir, hport, hdata, if_true,
    Devices.pioWrite_benchPort, Option.bind_eq_bind, Option.bind_assoc, Option.bind_some]
  rfl

theorem incr_of_lt {k : UInt64} (h : k.toNat + 1 < 2 ^ 64) : ∃ m, incr k = some m := by
  have hne : k + 1 ≠ 0 := by
    intro hzero
    have hnat := congrArg UInt64.toNat hzero
    rw [UInt64.toNat_add] at hnat
    simp only [UInt64.reduceToNat] at hnat
    omega
  exact ⟨_, if_neg hne⟩

theorem Event.isBenchOut_iff {e : Event} :
    e.isBenchOut = true ↔ ∃ data, e = .access (.out benchPort data) := by
  constructor
  · intro h
    unfold isBenchOut at h
    split at h
    next port data => exact ⟨data, by rw [eq_of_beq h]⟩
    next => cases h
  · rintro ⟨data, rfl⟩
    rfl

/-- The guest is resumed from an ordinary event, unless a counter is at its
maximum, and the devices describe it. -/
theorem Vm.pass_ordinary (h : (event o).Ordinary) :
    pass st o = none ∨ ∃ st' reply, pass st o = some (.resumed st' reply) ∧
      st'.devices.unhandled = st.devices.unhandled := by
  -- an interruption counts and resumes, a store to the port counts as I/O; both may overflow
  rcases h with h | h
  · rcases he : event o with - | a | - | - | -
    · rw [pass_eintr he]
      rcases incr st.summary.interrupted with - | k
      · exact .inl rfl
      · exact .inr ⟨_, _, rfl, rfl⟩
    · rw [he] at h
      cases h
    · rw [he] at h
      cases h
    · rw [pass_intr he]
      rcases incr st.summary.exits with - | m
      · exact .inl rfl
      rcases incr st.summary.interrupted with - | k
      · exact .inl rfl
      · exact .inr ⟨_, _, rfl, rfl⟩
    · rw [he] at h
      cases h
  · obtain ⟨data, he⟩ := Event.isBenchOut_iff.mp h
    rw [pass_out he]
    rcases incr st.summary.exits with - | m
    · exact .inl rfl
    rcases incr st.summary.ioExits with - | k
    · exact .inl rfl
    rcases incr st.devices.pioWrites with - | w
    · exact .inl rfl
    · exact .inr ⟨_, _, rfl, rfl⟩

/-- The counters of the loop can count `k` more returns of `KVM_RUN`. -/
structure RunState.HasRoom (st : RunState) (k : ℕ) : Prop where
  exits : st.summary.exits.toNat + k < 2 ^ 64
  ioExits : st.summary.ioExits.toNat + k < 2 ^ 64
  pioWrites : st.devices.pioWrites.toNat + k < 2 ^ 64
  interrupted : st.summary.interrupted.toNat + k < 2 ^ 64

theorem Event.not_isBenchOut_of_isInterruption {e : Event} (h : e.isInterruption = true) :
    e.isBenchOut = false := by
  unfold isInterruption at h
  split at h
  · rfl
  · rfl
  · cases h

/-- An ordinary event is the one or the other. -/
theorem Event.isBenchOut_of_ordinary {e : Event} (h : e.Ordinary) :
    e.isBenchOut = !e.isInterruption := by
  rcases h with h | h
  · rw [not_isBenchOut_of_isInterruption h, h]
    rfl
  · rcases hint : e.isInterruption with - | -
    · exact h
    · rw [not_isBenchOut_of_isInterruption hint] at h
      cases h

/-- An ordinary event is counted: an exit of the benchmark's loop as a write to
the port, any other as an interruption. -/
theorem Vm.pass_counted (h : (event o).Ordinary) {k : ℕ} (hroom : st.HasRoom (k + 1)) :
    ∃ st' reply, pass st o = some (.resumed st' reply) ∧ st'.HasRoom k ∧
      st'.devices.pioWrites.toNat =
        st.devices.pioWrites.toNat + (if (event o).isBenchOut then 1 else 0) ∧
      st'.summary.interrupted.toNat =
        st.summary.interrupted.toNat + (if (event o).isInterruption then 1 else 0) := by
  obtain ⟨h₁, h₂, h₃, h₄⟩ := hroom
  obtain ⟨m, hm⟩ := incr_of_lt (show st.summary.exits.toNat + 1 < 2 ^ 64 by omega)
  obtain ⟨i, hi⟩ := incr_of_lt (show st.summary.ioExits.toNat + 1 < 2 ^ 64 by omega)
  obtain ⟨w, hw⟩ := incr_of_lt (show st.devices.pioWrites.toNat + 1 < 2 ^ 64 by omega)
  obtain ⟨x, hx⟩ := incr_of_lt (show st.summary.interrupted.toNat + 1 < 2 ^ 64 by omega)
  have hw' := incr_eq_some hw
  have hx' := incr_eq_some hx
  -- the counters that are left alone, and those that are not
  have hkeep : st.summary.exits.toNat + k < 2 ^ 64 ∧ st.summary.ioExits.toNat + k < 2 ^ 64 ∧
      st.devices.pioWrites.toNat + k < 2 ^ 64 ∧ st.summary.interrupted.toNat + k < 2 ^ 64 := by
    omega
  have hcount : m.toNat + k < 2 ^ 64 ∧ i.toNat + k < 2 ^ 64 ∧ w.toNat + k < 2 ^ 64 ∧
      x.toNat + k < 2 ^ 64 := by
    have hm' := incr_eq_some hm
    have hi' := incr_eq_some hi
    omega
  rcases h with h | h
  · rw [Event.not_isBenchOut_of_isInterruption h, h]
    rcases he : event o with - | a | - | - | -
    · -- the ioctl was interrupted: this is no exit
      rw [pass_eintr he, hx]
      exact ⟨_, _, rfl, ⟨hkeep.1, hkeep.2.1, hkeep.2.2.1, hcount.2.2.2⟩, rfl, hx'⟩
    · rw [he] at h
      cases h
    · rw [he] at h
      cases h
    · rw [pass_intr he, hm, hx]
      exact ⟨_, _, rfl, ⟨hcount.1, hkeep.2.1, hkeep.2.2.1, hcount.2.2.2⟩, rfl, hx'⟩
    · rw [he] at h
      cases h
  · obtain ⟨data, he⟩ := Event.isBenchOut_iff.mp h
    rw [pass_out he, hm, hi, hw, he]
    exact ⟨_, _, rfl, ⟨hcount.1, hcount.2.1, hcount.2.2.1, hkeep.2.2.2⟩, hw', rfl⟩

end Passes

/-! ### The loop over a round -/

section Loops

variable {st : RunState} {body : List (Outcome n)}

/-- A loop that goes on with these replies. -/
theorem Vm.loop_cons {o reply : Outcome n} {st' : RunState}
    (h : pass st o = some (.resumed st' reply)) (trace : List (Outcome n)) :
    loop st (o :: trace) =
      (loop st' trace).map fun r => { r with replies := reply :: r.replies } := by
  rw [loop, h]

/-- The loop goes on over ordinary events, one reply for each. -/
theorem Vm.loop_ordinary (hbody : ∀ o ∈ body, (event o).Ordinary) (rest : List (Outcome n)) :
    loop st (body ++ rest) = none ∨ ∃ (st' : RunState) (replies : List (Outcome n)),
      replies.length = body.length ∧
      loop st (body ++ rest) =
        (loop st' rest).map fun r => { r with replies := replies ++ r.replies } := by
  induction body generalizing st with
  | nil => exact .inr ⟨st, [], rfl, Option.map_id'.symm⟩
  | cons o body ih =>
      rcases pass_ordinary (hbody o List.mem_cons_self) with h | ⟨st', reply, h, -⟩
      · left
        show loop st (o :: (body ++ rest)) = none
        rw [loop, h]
      · rw [List.cons_append, loop_cons h]
        rcases ih (fun o ho => hbody o (List.mem_cons_of_mem _ ho)) with
          hnone | ⟨st'', replies, hlen, hloop⟩
        · left
          rw [hnone]
          rfl
        · right
          refine ⟨st'', reply :: replies, congrArg (· + 1) hlen, ?_⟩
          rw [hloop, Option.map_map]
          rfl

/-- With room in the counters it goes on for sure, and counts what it passes. -/
theorem Vm.loop_counted (hbody : ∀ o ∈ body, (event o).Ordinary) {k : ℕ}
    (hroom : st.HasRoom (body.length + k)) (rest : List (Outcome n)) :
    ∃ (st' : RunState) (replies : List (Outcome n)), replies.length = body.length ∧
      st'.HasRoom k ∧
      st'.devices.pioWrites.toNat =
        st.devices.pioWrites.toNat + body.countP (fun o => (event o).isBenchOut) ∧
      st'.summary.interrupted.toNat =
        st.summary.interrupted.toNat + body.countP (fun o => (event o).isInterruption) ∧
      loop st (body ++ rest) =
        (loop st' rest).map fun r => { r with replies := replies ++ r.replies } := by
  induction body generalizing st with
  | nil =>
      rw [List.length_nil, Nat.zero_add] at hroom
      exact ⟨st, [], rfl, hroom, rfl, rfl, Option.map_id'.symm⟩
  | cons o body ih =>
      rw [List.length_cons, Nat.add_right_comm] at hroom
      -- each outcome uses up one unit of the room the counters have left
      obtain ⟨st', reply, h, hroom', hpio, hint⟩ := pass_counted (hbody o List.mem_cons_self) hroom
      obtain ⟨st'', replies, hlen, hroom'', hpio', hint', hloop⟩ :=
        ih (fun o ho => hbody o (List.mem_cons_of_mem _ ho)) hroom'
      refine ⟨st'', reply :: replies, congrArg (· + 1) hlen, hroom'', ?_, ?_, ?_⟩
      · rw [hpio', hpio, List.countP_cons]
        omega
      · rw [hint', hint, List.countP_cons]
        omega
      · rw [List.cons_append, loop_cons h, hloop, Option.map_map]
        rfl

/-- Whatever the host does in between, the devices describe all of a run. -/
theorem Vm.loop_unhandled {trace : List (Outcome n)}
    (htrace : ∀ o ∈ trace, (event o).Ordinary ∨ event o = .hlt) {r : Ran n}
    (hr : loop st trace = some r) : r.devices.unhandled = st.devices.unhandled := by
  induction trace generalizing st r with
  | nil =>
      cases hr
      rfl
  | cons o trace ih =>
      rcases htrace o List.mem_cons_self with ho | ho
      · rcases pass_ordinary ho with h | ⟨st', reply, h, hkept⟩
        · rw [loop, h] at hr
          cases hr
        · rw [loop_cons h] at hr
          obtain ⟨r', hr', rfl⟩ := Option.map_eq_some_iff.mp hr
          exact (ih (fun o ho => htrace o (List.mem_cons_of_mem _ ho)) hr').trans hkept
      · -- HLT ends the loop without touching the devices
        rw [loop, pass_hlt ho] at hr
        rcases hm : incr st.summary.exits with - | m
        · rw [hm] at hr
          cases hr
        · rw [hm] at hr
          cases hr
          rfl

end Loops

/-! ### The rounds -/

/-- 32 KiB. -/
def guestRam : ℕ := 32 * 1024

/-- How many samples a round takes. -/
def chunk (remaining : UInt32) : UInt32 := min remaining benchMaxPerRound

theorem toNat_pos_of_ne_zero {k : UInt32} (h : k ≠ 0) : 0 < k.toNat := by
  apply Nat.pos_of_ne_zero
  intro hzero
  exact h (UInt32.toNat_inj.mp hzero)

theorem chunk_pos {remaining : UInt32} (h : remaining ≠ 0) :
    0 < (chunk remaining).toNat ∧ (chunk remaining).toNat ≤ 65535 ∧
      (chunk remaining).toNat ≤ remaining.toNat ∧
      (remaining - chunk remaining).toNat = remaining.toNat - (chunk remaining).toNat := by
  have hpos := toNat_pos_of_ne_zero h
  have hmax : benchMaxPerRound.toNat = 65535 := rfl
  have hmin : (chunk remaining).toNat = min remaining.toNat 65535 := by
    show (if remaining ≤ benchMaxPerRound then remaining else benchMaxPerRound).toNat = _
    split
    next hle => exact (Nat.min_eq_left (UInt32.le_iff_toNat_le.mp hle)).symm
    next hle =>
      rw [UInt32.le_iff_toNat_le] at hle
      exact (Nat.min_eq_right (Nat.le_of_not_le hle)).symm
  have hsub := UInt32.toNat_sub_of_le remaining (chunk remaining) (by
    rw [UInt32.le_iff_toNat_le, hmin]
    exact Nat.min_le_left _ _)
  omega

/-- The counts of the rounds. -/
def chunks (remaining : UInt32) : List UInt32 :=
  if remaining = 0 then [] else chunk remaining :: chunks (remaining - chunk remaining)
termination_by remaining.toNat
decreasing_by
  rename_i h
  have := chunk_pos h
  omega

theorem chunks_zero : chunks 0 = [] := by
  rw [chunks, if_pos rfl]

theorem chunks_of_ne_zero {remaining : UInt32} (h : remaining ≠ 0) :
    chunks remaining = chunk remaining :: chunks (remaining - chunk remaining) := by
  rw [chunks, if_neg h]

/-- The program as a slice. -/
def programSlice (prog : Vector UInt8 10) : ByteSlice where
  bytes := prog.toList
  len_lt := by
    rw [Vector.length_toList]
    decide

/-- The program for so many exits was loaded, and nothing else of the machine
changed. -/
def Loads (vm vm' : Vm) (count : UInt32) : Prop :=
  ∃ prog, benchProgram count = some prog ∧ Vm.Loaded vm vm' loadAddr (programSlice prog)

theorem Loads.memSize {vm vm' : Vm} {count : UInt32} (h : Loads vm vm' count) :
    vm'.memSize = vm.memSize := by
  obtain ⟨_, -, hloaded⟩ := h
  exact hloaded.memSize

/-- A program with an accepted count is loaded, and fits. -/
theorem load_program {vm : Vm} (hvm : vm.memSize = guestRam) {count : UInt32}
    (hpos : 1 ≤ count.toNat) (hle : count.toNat ≤ 65535) :
    ∃ prog vm', benchProgram count = some prog ∧
      vm.load loadAddr (programSlice prog) = some (.ok (), vm') ∧
      Vm.Loaded vm vm' loadAddr (programSlice prog) := by
  have hrange : 0 < count ∧ count ≤ benchMaxPerRound :=
    ⟨UInt32.lt_iff_toNat_lt.mpr hpos, UInt32.le_iff_toNat_le.mpr hle⟩
  have hfits : ∀ prog, loadAddr.toNat + (programSlice prog).len ≤ vm.memSize := by
    intro prog
    rw [hvm]
    show loadAddr.toNat + prog.toList.length ≤ guestRam
    rw [Vector.length_toList]
    decide
  obtain ⟨vm', hload, hloaded⟩ := Vm.load_of_inside (hfits _)
  exact ⟨_, vm', if_pos hrange, hload, hloaded⟩

/-- The variables of `run_bench`. -/
structure Bench where
  vm : Vm
  remaining : UInt32
  devices : Devices := {}
  timings : List UInt64 := []
  interrupted : UInt64 := 0

/-- How a round ended: the loop goes on, the guest has not halted yet, or an
error is returned. -/
inductive RoundEnd where
  | halted
  | running
  | failed (e : RunError)
  deriving DecidableEq

/-- `+=` on a counter. -/
def addChecked (a b : UInt64) : Option UInt64 :=
  if a.toNat + b.toNat < 2 ^ 64 then some (a + b) else none

namespace Bench

/-- What is done after the run of a round, given the samples up to it. -/
def collect (b : Bench) (ran : Ran n) (timings : List UInt64) : Option (Bench × RoundEnd) :=
  let taken := timings.length - b.timings.length
  let b := { b with devices := ran.devices, timings }
  match ran.result with
  | none => some (b, .running)
  | some (.error e) => some (b, .failed e)
  | some (.ok summary) => do
      let interrupted ← addChecked b.interrupted summary.interrupted
      if taken < 1 then none
      else
        -- the final sample of the round is the `hlt`
        return ({ b with
          interrupted
          timings := timings.dropLast
          remaining := b.remaining - chunk b.remaining }, .halted)

/-- One round, for what `KVM_RUN` does in it, and how long it takes. -/
def round (b : Bench) (trace : List (Outcome n × UInt64)) : Option (Bench × RoundEnd) := do
  let prog ← benchProgram (chunk b.remaining)
  match ← b.vm.load loadAddr (programSlice prog) with
  | (.error e, vm) => return ({ b with vm }, .failed e)
  | (.ok (), vm) =>
      let (ran, timings) ← Vm.timedLoop { devices := b.devices } b.timings trace
      collect { b with vm } ran timings

/-- The rounds, until no sample remains to be taken. -/
def rounds (b : Bench) : List (List (Outcome n × UInt64)) → Option (Bench × RoundEnd)
  | [] => some (b, if b.remaining = 0 then .halted else .running)
  | trace :: traces =>
      if b.remaining = 0 then some (b, .halted)
      else match round b trace with
      | none => none
      | some (b, .halted) => rounds b traces
      | some (b, e) => some (b, e)

variable {b : Bench} {trace : List (Outcome n × UInt64)}

/-- A round is a run of the loop on its program, and what is made of it. -/
theorem round_eq (hvm : b.vm.memSize = guestRam) (hrem : b.remaining ≠ 0) :
    ∃ vm', Loads b.vm vm' (chunk b.remaining) ∧ ∀ trace : List (Outcome n × UInt64),
      round b trace = (Vm.loop { devices := b.devices } (trace.map Prod.fst)).bind fun ran =>
        collect { b with vm := vm' } ran
          (b.timings ++ (trace.take ran.returns).map Prod.snd) := by
  obtain ⟨hpos, hle, -⟩ := chunk_pos hrem
  obtain ⟨prog, vm', hprog, hload, hloaded⟩ := load_program hvm hpos hle
  refine ⟨vm', ⟨prog, hprog, hloaded⟩, fun trace => ?_⟩
  unfold round
  rw [hprog]
  dsimp only [Option.bind_eq_bind, Option.bind_some]
  rw [hload]
  dsimp only [Option.bind_some]
  rw [Vm.timedLoop_eq, Option.bind_map]
  rfl

theorem collect_eq_some {ran : Ran n} {timings : List UInt64} {b' : Bench} {e : RoundEnd}
    (h : collect b ran timings = some (b', e)) :
    b'.devices = ran.devices ∧ b'.vm = b.vm ∧
      (e = .halted → b'.remaining = b.remaining - chunk b.remaining) := by
  unfold collect at h
  dsimp only at h
  split at h
  · cases h
    exact ⟨rfl, rfl, nofun⟩
  · cases h
    exact ⟨rfl, rfl, nofun⟩
  · obtain ⟨i, -, h⟩ := Option.bind_eq_some_iff.mp h
    split at h
    · cases h
    · cases h
      exact ⟨rfl, rfl, fun _ => rfl⟩

end Bench

/-- A machine with the benchmark's RAM. -/
def benchVm : Vm where
  ptr := 0x10000
  memSize := guestRam
  memory _ := 0
  writable _ := true
  memSize_aligned := rfl
  memSize_pos := by decide
  memSize_lt := by decide
  end_le := by decide
  ram_writable _ _ := rfl

end SystemsStudy.Kvm
