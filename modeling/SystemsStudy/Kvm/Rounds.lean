/-
SystemsStudy/Kvm/Rounds.lean

`main.rs`: the rounds of the exit-cost benchmark, over what its guest does.

A round is served if the exits of its guest happen, with interruptions anywhere
between them, and the guest then halts (`Served`).  A served round ends, unless
a counter is at its maximum, and takes its chunk of the samples
(`Bench.round_counted`); so the rounds end with no sample left to take, one
round for each chunk (`Bench.rounds_performed`).

The guest of a round makes exactly the exits that were requested, and the
devices describe every one of them, wherever a run is cut off
(`bench_guest_exact`).
-/
import SystemsStudy.Kvm.Bench

namespace SystemsStudy.Kvm

variable {n : ℕ}

/-! ### The guest of a round -/

/-- The exits of the program. -/
def benchExits (count : UInt32) : List GuestExit :=
  List.replicate count.toNat (.out benchPort 0) ++ [.hlt]

/-- What `KVM_RUN` has reported so far of a guest with these exits: a prefix of
them, with interruptions anywhere in between. -/
def Reports (exits : List GuestExit) (trace : List (Outcome n × UInt64)) : Prop :=
  (trace.map fun x => event x.1).filter (fun e => !e.isInterruption) <+: exits.map GuestExit.event

/-- All of these exits have been reported, and nothing after the last. -/
def ReportsAll (exits : List GuestExit) (trace : List (Outcome n × UInt64)) : Prop :=
  (trace.map fun x => event x.1).filter (fun e => !e.isInterruption) =
    exits.map GuestExit.event ∧
  ∀ x ∈ trace.getLast?, (event x.1).isInterruption = false

/-- What `KVM_RUN` does in a round that is asked for `count` exits: they happen,
with interruptions anywhere between them, and then the guest halts. -/
structure Served (count : UInt32) (trace : List (Outcome n × UInt64)) : Prop where
  halts : ∃ x, trace.getLast? = some x ∧ event x.1 = .hlt
  ordinary : ∀ x ∈ trace.dropLast, (event x.1).Ordinary
  outs : trace.dropLast.countP (fun x => (event x.1).isBenchOut) = count.toNat

/-- The samples that are kept of a round. -/
def kept (trace : List (Outcome n × UInt64)) : List UInt64 := trace.dropLast.map Prod.snd

section Guests

variable {b b' : Bench} {e : RoundEnd} {count : UInt32} {trace : List (Outcome n × UInt64)}
  {traces : List (List (Outcome n × UInt64))}

theorem mem_reported {x : Outcome n × UInt64} (hx : x ∈ trace)
    (hint : (event x.1).isInterruption = false) :
    event x.1 ∈ (trace.map fun x => event x.1).filter fun e => !e.isInterruption :=
  List.mem_filter.mpr ⟨List.mem_map_of_mem hx, by rw [hint]; rfl⟩

theorem ordinary_of_reports (h : Reports (benchExits count) trace) :
    ∀ o ∈ trace.map Prod.fst, (event o).Ordinary ∨ event o = .hlt := by
  intro o ho
  obtain ⟨x, hx, rfl⟩ := List.mem_map.mp ho
  by_cases hint : (event x.1).isInterruption = true
  · exact .inl (.inl hint)
  have hmem := mem_reported hx (Bool.eq_false_iff.mpr hint)
  obtain ⟨g, hg, hgx⟩ := List.mem_map.mp (h.subset hmem)
  rcases List.mem_append.mp hg with hg | hg
  · rw [List.eq_of_mem_replicate hg] at hgx
    rw [← hgx]
    exact .inl (.inr rfl)
  · rw [List.mem_singleton.mp hg] at hgx
    exact .inr hgx.symm

/-- Reporting all exits of the program is to serve the round. -/
theorem served_of_reportsAll (h : ReportsAll (benchExits count) trace) : Served count trace := by
  obtain ⟨hall, hlast⟩ := h
  have hne : trace ≠ [] := by
    rintro rfl
    have hlen := congrArg List.length hall
    simp [benchExits] at hlen
  obtain ⟨x, hx⟩ := Option.ne_none_iff_exists'.mp (List.getLast?_eq_none_iff.not.mpr hne)
  have htrace : trace.dropLast ++ [x] = trace := List.dropLast_append_getLast? x hx
  have hint : (event x.1).isInterruption = false := hlast x hx
  -- the last report is the halt, and those before it are the exits
  rw [← htrace, List.map_append, List.filter_append, benchExits, List.map_append] at hall
  have hone : ([x].map fun x => event x.1).filter (fun e => !e.isInterruption) = [event x.1] := by
    simp [hint]
  rw [hone] at hall
  obtain ⟨hbody, hhlt⟩ := List.append_inj' hall rfl
  have hordinary : ∀ y ∈ trace.dropLast, (event y.1).Ordinary := by
    intro y hy
    rcases hy' : (event y.1).isInterruption with - | -
    · right
      have hmem := mem_reported hy hy'
      rw [hbody, List.map_replicate] at hmem
      rw [List.eq_of_mem_replicate hmem]
      rfl
    · exact .inl hy'
  refine ⟨⟨x, hx, (List.cons.inj hhlt).1⟩, hordinary, ?_⟩
  have houts : (trace.dropLast.map fun x => event x.1).countP Event.isBenchOut =
      ((trace.dropLast.map fun x => event x.1).filter fun e => !e.isInterruption).length := by
    rw [← List.countP_eq_length_filter]
    apply List.countP_congr
    intro e he
    obtain ⟨y, hy, rfl⟩ := List.mem_map.mp he
    rw [Event.isBenchOut_of_ordinary (hordinary y hy)]
  rw [hbody, List.length_map, List.length_replicate, List.countP_map] at houts
  exact houts

/-- A loaded program is what the processor fetches. -/
theorem holds_of_loaded {vm vm' : Vm} {prog : Vector UInt8 10}
    (h : Vm.Loaded vm vm' loadAddr (programSlice prog)) :
    Cpu.Holds (fun a => vm'.ram a.toNat) prog := by
  intro i
  have hstored := h.stored i (by
    show i.val < prog.toList.length
    rw [Vector.length_toList]
    exact i.isLt)
  have haddr : (loadAddr.toUInt16 + UInt16.ofNat i).toNat = loadAddr.toNat + i := by
    have hi := i.isLt
    have hload : loadAddr.toUInt16.toNat = 0x1000 ∧ loadAddr.toNat = 0x1000 := ⟨rfl, rfl⟩
    rw [UInt16.toNat_add, UInt16.toNat_ofNat', hload.1, hload.2]
    omega
  show vm'.ram (loadAddr.toUInt16 + UInt16.ofNat i).toNat = _
  rw [haddr, hstored]
  show prog.toList.getD i 0 = _
  rw [List.getD_eq_getElem?_getD, List.getElem?_eq_getElem (by
    rw [Vector.length_toList]
    exact i.isLt), Option.getD_some, Vector.getElem_toList]
  rfl

/-- The loaded program makes the exits it was patched for. -/
theorem Loads.exec {vm vm' : Vm} (h : Loads vm vm' count) {fuel : ℕ}
    (hfuel : 2 * count.toNat + 3 ≤ fuel) :
    Cpu.exec (fun a => vm'.ram a.toNat) fuel (.entry loadAddr) = some (benchExits count) := by
  obtain ⟨prog, hprog, hloaded⟩ := h
  exact Cpu.exec_benchProgram hprog (holds_of_loaded hloaded) hfuel

/-! ### The devices -/

/-- No part of a round is an access the devices do not describe. -/
theorem Bench.round_unhandled (hvm : b.vm.memSize = guestRam) (hrem : b.remaining ≠ 0)
    (htrace : Reports (benchExits count) trace) (h : b.round trace = some (b', e)) :
    b'.devices.unhandled = b.devices.unhandled ∧ b'.vm.memSize = guestRam ∧
      (e = .halted → b'.remaining = b.remaining - chunk b.remaining) := by
  obtain ⟨vm', hloads, hround⟩ := round_eq (n := n) hvm hrem
  rw [hround] at h
  obtain ⟨ran, hran, h⟩ := Option.bind_eq_some_iff.mp h
  obtain ⟨hdevices, hkept, hnext⟩ := collect_eq_some h
  refine ⟨?_, (congrArg Vm.memSize hkept).trans (hloads.memSize.trans hvm), hnext⟩
  rw [hdevices]
  exact Vm.loop_unhandled (ordinary_of_reports htrace) hran

theorem Bench.rounds_unhandled {traces : List (List (Outcome n × UInt64))}
    (hvm : b.vm.memSize = guestRam)
    (htraces : List.Forall₂ (fun count trace => Reports (benchExits count) trace)
      ((chunks b.remaining).take traces.length) traces)
    (h : b.rounds traces = some (b', e)) : b'.devices.unhandled = b.devices.unhandled := by
  induction traces generalizing b with
  | nil =>
      cases h
      rfl
  | cons trace traces ih =>
      rw [rounds] at h
      by_cases hrem : b.remaining = 0
      · rw [if_pos hrem] at h
        cases h
        rfl
      rw [if_neg hrem] at h
      rw [chunks_of_ne_zero hrem, List.length_cons, List.take_succ_cons] at htraces
      obtain ⟨htrace, htraces⟩ := List.forall₂_cons.mp htraces
      rcases hround : b.round trace with - | ⟨b'', e'⟩
      · rw [hround] at h
        cases h
      -- no outcome of this round is unhandled; the rest is the induction hypothesis where it halted
      obtain ⟨hkept, hvm', hnext⟩ := round_unhandled hvm hrem htrace hround
      rw [hround] at h
      cases e' with
      | halted =>
          rw [← hnext rfl] at htraces
          exact (ih hvm' htraces h).trans hkept
      | running =>
          cases h
          exact hkept
      | failed e' =>
          cases h
          exact hkept

/-! ### A served round -/

theorem Served.eq_append (h : Served count trace) :
    ∃ x, event x.1 = .hlt ∧ trace = trace.dropLast ++ [x] := by
  obtain ⟨x, hx, hhlt⟩ := h.halts
  exact ⟨x, hhlt, (List.dropLast_append_getLast? x hx).symm⟩

theorem Served.ordinary_fst (h : Served count trace) :
    ∀ o ∈ trace.dropLast.map Prod.fst, (event o).Ordinary := by
  intro o ho
  obtain ⟨y, hy, rfl⟩ := List.mem_map.mp ho
  exact h.ordinary y hy

theorem map_fst_eq {x : Outcome n × UInt64} (h : trace = trace.dropLast ++ [x]) :
    trace.map Prod.fst = trace.dropLast.map Prod.fst ++ [x.1] := by
  rw [congrArg (List.map Prod.fst) h, List.map_append]
  rfl

/-- The first of the rounds to come. -/
theorem served_cons {remaining : UInt32}
    (h : List.Forall₂ Served (chunks remaining) (trace :: traces)) :
    remaining ≠ 0 ∧ Served (chunk remaining) trace ∧
      List.Forall₂ Served (chunks (remaining - chunk remaining)) traces := by
  have hne : remaining ≠ 0 := by
    rintro rfl
    rw [chunks_zero] at h
    cases h
  rw [chunks_of_ne_zero hne] at h
  exact ⟨hne, List.forall₂_cons.mp h⟩

theorem Vm.loop_halt {st : RunState} {o : Outcome n} (h : event o = .hlt) :
    loop st [o] = (incr st.summary.exits).map fun m =>
      { devices := st.devices
        replies := []
        result := some (.ok { st.summary with exits := m }) } := by
  rw [loop, pass_hlt h]
  rcases incr st.summary.exits with - | m
  · rfl
  · rfl

/-- What is made of a run that halted: all of its samples but the last are
kept. -/
theorem Bench.collect_halted {ran : Ran n} {summary : RunSummary}
    (hran : ran.result = some (.ok summary)) {samples : List UInt64} (hne : samples ≠ []) :
    b.collect ran (b.timings ++ samples) =
      (addChecked b.interrupted summary.interrupted).map fun interrupted =>
        ({ b with
          devices := ran.devices
          interrupted
          timings := b.timings ++ samples.dropLast
          remaining := b.remaining - chunk b.remaining }, .halted) := by
  have htaken : ¬ (b.timings ++ samples).length - b.timings.length < 1 := by
    rw [List.length_append, Nat.add_sub_cancel_left]
    exact Nat.not_lt.mpr (List.length_pos_of_ne_nil hne)
  unfold collect
  dsimp only
  rw [hran]
  dsimp only
  rcases addChecked b.interrupted summary.interrupted with - | i
  · rfl
  · show (if _ then none else some (_, _)) = some (_, _)
    rw [if_neg htaken, List.dropLast_append_of_ne_nil hne]

/-- A round whose loop goes on up to the halt. -/
theorem Bench.round_halted (hvm : b.vm.memSize = guestRam) (hrem : b.remaining ≠ 0)
    {x : Outcome n × UInt64} (htrace : trace = trace.dropLast ++ [x]) (hx : event x.1 = .hlt)
    {st' : RunState} {replies : List (Outcome n)} (hlen : replies.length = trace.dropLast.length)
    (hloop : Vm.loop { devices := b.devices } (trace.dropLast.map Prod.fst ++ [x.1]) =
      (Vm.loop st' [x.1]).map fun r => { r with replies := replies ++ r.replies }) :
    ∃ vm', Loads b.vm vm' (chunk b.remaining) ∧
      b.round trace = (incr st'.summary.exits).bind fun _ =>
        (addChecked b.interrupted st'.summary.interrupted).map fun interrupted =>
          ({ vm := vm'
             devices := st'.devices
             interrupted
             timings := b.timings ++ kept trace
             remaining := b.remaining - chunk b.remaining }, .halted) := by
  obtain ⟨vm', hloads, hround⟩ := round_eq (n := n) hvm hrem
  refine ⟨vm', hloads, ?_⟩
  rw [hround, map_fst_eq htrace, hloop, Vm.loop_halt hx, Option.map_map, Option.bind_map]
  congr 1
  funext m
  -- a halted round ran its whole trace, so the sample of HLT is the one dropped
  have hlength : trace.length = trace.dropLast.length + 1 := by
    rw [congrArg List.length htrace, List.length_append, List.length_singleton]
  have hne : trace.map Prod.snd ≠ [] := by
    apply List.ne_nil_of_length_pos
    rw [List.length_map]
    omega
  simp only [Function.comp_apply, Ran.returns, List.append_nil, Option.isSome_some, if_true]
  rw [hlen, ← hlength, List.take_length, kept, List.map_dropLast]
  exact @collect_halted n { b with vm := vm' } _ { st'.summary with exits := m } rfl _ hne

/-- A served round ends, if the counters have room for it: the program of its chunk
was loaded, the chunk is taken, and every exit of it was a write to the port. -/
theorem Bench.round_counted (hvm : b.vm.memSize = guestRam) (hrem : b.remaining ≠ 0)
    (h : Served (chunk b.remaining) trace)
    (hpio : b.devices.pioWrites.toNat + trace.length < 2 ^ 64)
    (hint : b.interrupted.toNat + trace.length < 2 ^ 64) :
    ∃ b', b.round trace = some (b', .halted) ∧ Loads b.vm b'.vm (chunk b.remaining) ∧
      b'.remaining = b.remaining - chunk b.remaining ∧
      b'.devices.pioWrites.toNat = b.devices.pioWrites.toNat + (chunk b.remaining).toNat ∧
      b'.interrupted.toNat =
        b.interrupted.toNat + trace.countP fun x => (event x.1).isInterruption := by
  obtain ⟨x, hx, htrace⟩ := h.eq_append
  have hlength : trace.length = (trace.dropLast.map Prod.fst).length + 1 := by
    rw [congrArg List.length htrace, List.length_append, List.length_map, List.length_singleton]
  -- each counter starts with room for one more pass per entry of the trace
  have hroom : ({ devices := b.devices } : RunState).HasRoom
      ((trace.dropLast.map Prod.fst).length + 1) := by
    rw [← hlength]
    have hzero : (0 : UInt64).toNat + trace.length < 2 ^ 64 := by
      show 0 + _ < _
      omega
    exact ⟨hzero, hzero, hpio, hzero⟩
  obtain ⟨st', replies, hlen, hroom', hwrites, hints, hloop⟩ :=
    Vm.loop_counted h.ordinary_fst hroom [x.1]
  rw [List.length_map] at hlen
  obtain ⟨vm', hloads, hround⟩ := round_halted hvm hrem htrace hx hlen hloop
  obtain ⟨m, hm⟩ := incr_of_lt hroom'.exits
  -- the HLT at the end is no interruption, so the body's count is the trace's
  have hcount : st'.summary.interrupted.toNat =
      trace.countP fun x => (event x.1).isInterruption := by
    have hlast : [x].countP (fun x => (event x.1).isInterruption) = 0 := by
      rw [List.countP_singleton, hx]
      rfl
    rw [hints, List.countP_map, congrArg (List.countP _) htrace, List.countP_append, hlast]
    exact Nat.zero_add _
  have hle : b.interrupted.toNat + st'.summary.interrupted.toNat < 2 ^ 64 := by
    have := List.countP_le_length (p := fun x => (event x.1).isInterruption) (l := trace)
    omega
  have hadd : addChecked b.interrupted st'.summary.interrupted =
      some (b.interrupted + st'.summary.interrupted) := if_pos hle
  rw [hround, hm, hadd]
  refine ⟨_, rfl, hloads, rfl, ?_, ?_⟩
  · rw [hwrites, List.countP_map]
    exact congrArg (_ + ·) h.outs
  · show (b.interrupted + st'.summary.interrupted).toNat = _
    rw [UInt64.toNat_add, Nat.mod_eq_of_lt hle, hcount]

theorem Served.count_lt_length (h : Served count trace) : count.toNat < trace.length := by
  obtain ⟨x, -, htrace⟩ := h.eq_append
  rw [congrArg List.length htrace, List.length_append, ← h.outs]
  exact Nat.lt_succ_of_le List.countP_le_length

/-! ### All rounds -/

/-- A whole round: the program for `count` exits is loaded, the guest in RAM makes
exactly these, and once it has halted there are `count` samples fewer to take. -/
structure Bench.Performs (b : Bench) (trace : List (Outcome n × UInt64)) (b' : Bench)
    (count : UInt32) : Prop where
  ends : b.round trace = some (b', .halted)
  loads : Loads b.vm b'.vm count
  exits : ∀ fuel, 2 * count.toNat + 3 ≤ fuel →
    Cpu.exec (fun a => b'.vm.ram a.toNat) fuel (.entry loadAddr) = some (benchExits count)
  remaining : b'.remaining = b.remaining - count

/-- With no sample left the loop ends. -/
theorem Bench.rounds_done (h : b.remaining = 0) (traces : List (List (Outcome n × UInt64))) :
    b.rounds traces = some (b, .halted) := by
  cases traces with
  | nil => rw [rounds, if_pos h]
  | cons trace traces => rw [rounds, if_pos h]

theorem Bench.rounds_cons (hrem : b.remaining ≠ 0) (h : b.round trace = some (b', .halted))
    (traces : List (List (Outcome n × UInt64))) :
    b.rounds (trace :: traces) = b'.rounds traces := by
  rw [rounds, if_neg hrem, h]

/-- Served rounds take all samples, whatever could follow, and the one that is
asked for the `k`-th chunk is the `k`-th. -/
theorem Bench.rounds_performed (hvm : b.vm.memSize = guestRam)
    (h : List.Forall₂ Served (chunks b.remaining) traces)
    (hpio : b.devices.pioWrites.toNat + traces.flatten.length < 2 ^ 64)
    (hint : b.interrupted.toNat + traces.flatten.length < 2 ^ 64)
    (rest : List (List (Outcome n × UInt64))) :
    (∃ b', b.rounds (traces ++ rest) = some (b', .halted) ∧ b'.remaining = 0 ∧
      b'.devices.pioWrites.toNat = b.devices.pioWrites.toNat + b.remaining.toNat) ∧
    ∀ k count, (chunks b.remaining)[k]? = some count → ∃ b₁ trace b₂,
      b.rounds (traces.take k) = some (b₁, .running) ∧ traces[k]? = some trace ∧
      b₁.Performs trace b₂ count := by
  induction traces generalizing b with
  | nil =>
      have hzero : b.remaining = 0 := by
        by_contra hne
        rw [chunks_of_ne_zero hne] at h
        cases h
      refine ⟨⟨b, rounds_done hzero _, hzero, by rw [hzero]; rfl⟩, fun k count hk => ?_⟩
      rw [hzero, chunks_zero] at hk
      cases hk
  | cons trace traces ih =>
      obtain ⟨hrem, hserved, hrest⟩ := served_cons h
      obtain ⟨-, -, hle, hsub⟩ := chunk_pos hrem
      rw [List.flatten_cons, List.length_append] at hpio hint
      have hshort := hserved.count_lt_length
      have hints : (trace.countP fun x => (event x.1).isInterruption) ≤ trace.length :=
        List.countP_le_length
      obtain ⟨b', hround, hloads, hnext, hpio', hint'⟩ :=
        round_counted hvm hrem hserved (by omega) (by omega)
      rw [← hnext] at hrest
      obtain ⟨⟨b'', hend, hzero, hwrites⟩, hrounds⟩ :=
        ih (hloads.memSize.trans hvm) hrest (by omega) (by omega)
      constructor
      · refine ⟨b'', ?_, hzero, ?_⟩
        · rw [List.cons_append, rounds_cons hrem hround, hend]
        · rw [hwrites, hpio', hnext, hsub]
          omega
      · intro k count hk
        rw [chunks_of_ne_zero hrem] at hk
        cases k with
        | zero =>
            -- this round
            obtain rfl := Option.some.inj hk
            refine ⟨b, trace, b', ?_, rfl, hround, hloads, fun _ => hloads.exec, hnext⟩
            rw [List.take_zero, rounds, if_neg hrem]
        | succ k =>
            rw [List.getElem?_cons_succ, ← hnext] at hk
            obtain ⟨b₁, trace', b₂, htake, hget, hperforms⟩ := hrounds k count hk
            refine ⟨b₁, trace', b₂, ?_, hget, hperforms⟩
            rw [List.take_succ_cons, rounds_cons hrem hround, htake]

/-! ### The counts -/

theorem mem_chunks {remaining : UInt32} (h : count ∈ chunks remaining) :
    1 ≤ count.toNat ∧ count.toNat ≤ 65535 := by
  induction remaining using chunks.induct with
  | case1 =>
      rw [chunks_zero] at h
      cases h
  | case2 remaining hne ih =>
      rw [chunks_of_ne_zero hne] at h
      rcases List.mem_cons.mp h with rfl | h
      · obtain ⟨h₁, h₂, -⟩ := chunk_pos hne
        exact ⟨h₁, h₂⟩
      · exact ih h

theorem sum_chunks (remaining : UInt32) :
    ((chunks remaining).map UInt32.toNat).sum = remaining.toNat := by
  induction remaining using chunks.induct with
  | case1 =>
      rw [chunks_zero]
      rfl
  | case2 remaining hne ih =>
      obtain ⟨-, -, hle, hrest⟩ := chunk_pos hne
      rw [chunks_of_ne_zero hne, List.map_cons, List.sum_cons, ih, hrest]
      omega

/-- For every number of samples, the chunks are counts that the program accepts and
add up to the samples, and the guest that is loaded for one makes as many exits to
the port, then halts, and makes no other exit.

In every run of the rounds over such guests, whatever the host does in between and
wherever the run has got to, the devices describe every access.  When `KVM_RUN` has
reported all exits of each guest, in fewer returns than a counter can count, the
rounds have ended: no sample remains, as many exits to the port as there are samples
have reached the devices, and the `k`-th round was that of the `k`-th chunk. -/
theorem bench_guest_exact (samples : UInt32) {vm : Vm} (hvm : vm.memSize = guestRam) :
    ((chunks samples).map UInt32.toNat).sum = samples.toNat ∧
    (∀ count ∈ chunks samples, 1 ≤ count.toNat ∧ count.toNat ≤ 65535 ∧
      ∃ prog vm', benchProgram count = some prog ∧
        vm.load loadAddr (programSlice prog) = some (.ok (), vm') ∧
        ∀ fuel, 2 * count.toNat + 3 ≤ fuel →
          Cpu.exec (fun a => vm'.ram a.toNat) fuel (.entry loadAddr) = some (benchExits count)) ∧
    (∀ (n : ℕ) (traces : List (List (Outcome n × UInt64))),
      List.Forall₂ (fun count trace => Reports (benchExits count) trace)
        ((chunks samples).take traces.length) traces →
      ∀ b e, Bench.rounds { vm, remaining := samples } traces = some (b, e) →
        b.devices.unhandled = 0) ∧
    ∀ (n : ℕ) (traces rest : List (List (Outcome n × UInt64))),
      List.Forall₂ (fun count trace => ReportsAll (benchExits count) trace) (chunks samples)
        traces →
      traces.flatten.length < 2 ^ 64 →
      (∃ b, Bench.rounds { vm, remaining := samples } (traces ++ rest) = some (b, .halted) ∧
        b.remaining = 0 ∧ b.devices.pioWrites.toNat = samples.toNat) ∧
      ∀ k count, (chunks samples)[k]? = some count → ∃ b trace b',
        Bench.rounds { vm, remaining := samples } (traces.take k) = some (b, .running) ∧
        traces[k]? = some trace ∧ b.Performs trace b' count := by
  refine ⟨sum_chunks samples, fun count hcount => ?_, fun n traces htraces b e h => ?_,
    fun n traces rest htraces hlen => ?_⟩
  · obtain ⟨hpos, hle⟩ := mem_chunks hcount
    obtain ⟨prog, vm', hprog, hload, hloaded⟩ := load_program hvm hpos hle
    exact ⟨hpos, hle, prog, vm', hprog, hload, fun _ => Loads.exec ⟨prog, hprog, hloaded⟩⟩
  · exact Bench.rounds_unhandled hvm htraces h
  · -- complete reports are served traces, so every round halts and `rounds` runs to the end
    have hserved : List.Forall₂ Served (chunks samples) traces :=
      htraces.imp fun _ _ => served_of_reportsAll
    have hroom : (0 : UInt64).toNat + traces.flatten.length < 2 ^ 64 := by
      rw [UInt64.toNat_zero, Nat.zero_add]
      exact hlen
    obtain ⟨⟨b, hend, hzero, hwrites⟩, hrounds⟩ :=
      Bench.rounds_performed (b := { vm, remaining := samples }) hvm hserved hroom hroom rest
    refine ⟨⟨b, hend, hzero, hwrites.trans ?_⟩, hrounds⟩
    exact Nat.zero_add _

/-- The page of an exit of the benchmark program. -/
def benchPage (reason : UInt32) : Outcome 1 :=
  bytePage reason { direction := kvmExitIoOut, size := 1, port := benchPort, count := 1 } {} 0

/-- A round of so many exits, interrupted once before the guest halts. -/
def benchReport (count : UInt32) : List (Outcome 1 × UInt64) :=
  List.replicate count.toNat (benchPage kvmExitIo, 5) ++
    [(.error eintr, 100), (benchPage kvmExitHlt, 7)]

theorem length_benchReport (count : UInt32) :
    (benchReport count).length = count.toNat + 2 := by
  rw [benchReport, List.length_append, List.length_replicate]
  rfl

theorem reportsAll_benchReport (count : UInt32) :
    ReportsAll (benchExits count) (benchReport count) := by
  have hout : event (benchPage kvmExitIo) = .access (.out benchPort [0]) := rfl
  have hint : event (.error eintr : Outcome 1) = .eintr := rfl
  have hhlt : event (benchPage kvmExitHlt) = .hlt := rfl
  have hkeep : (!(Event.access (.out benchPort [0])).isInterruption) = true := rfl
  constructor
  · rw [benchReport, benchExits, List.map_append, List.filter_append, List.map_replicate, hout,
      List.filter_replicate, if_pos hkeep, List.map_append, List.map_replicate, List.map_cons,
      List.map_cons, hint, hhlt]
    rfl
  · rw [benchReport, List.getLast?_append]
    intro x hx
    cases hx
    rfl

theorem chunks_twoRounds : chunks 65536 = [65535, 1] := by
  rw [chunks_of_ne_zero (by decide)]
  show 65535 :: chunks 1 = _
  rw [chunks_of_ne_zero (by decide)]
  show [65535, 1] ++ chunks 0 = _
  rw [chunks_zero]
  rfl

/-- One sample more than a round can take. -/
theorem bench_guest_exact_twoRounds :
    (∃ b, Bench.rounds { vm := benchVm, remaining := 65536 }
        [benchReport 65535, benchReport 1] = some (b, .halted) ∧
      b.remaining = 0 ∧ b.devices.pioWrites.toNat = 65536 ∧ b.devices.unhandled = 0) ∧
    ∃ b b', Bench.rounds { vm := benchVm, remaining := 65536 } [benchReport 65535] =
        some (b, .running) ∧ b.Performs (benchReport 1) b' 1 := by
  have h : List.Forall₂ (fun count trace => ReportsAll (benchExits count) trace) (chunks 65536)
      [benchReport 65535, benchReport 1] := by
    rw [chunks_twoRounds]
    exact .cons (reportsAll_benchReport 65535) (.cons (reportsAll_benchReport 1) .nil)
  have hprefix : List.Forall₂ (fun count trace => Reports (benchExits count) trace)
      ((chunks 65536).take 2) [benchReport 65535, benchReport 1] := by
    rw [chunks_twoRounds] at h ⊢
    exact h.imp fun _ _ hall => List.prefix_iff_eq_append.mpr (by rw [hall.1]; simp)
  -- `decide` only sees the lengths, never the reports themselves
  have hlen : [benchReport 65535, benchReport 1].flatten.length < 2 ^ 64 := by
    have hcounts : (65535 : UInt32).toNat = 65535 ∧ (1 : UInt32).toNat = 1 := ⟨rfl, rfl⟩
    rw [List.flatten_cons, List.length_append, length_benchReport, List.flatten_cons,
      List.length_append, length_benchReport, hcounts.1, hcounts.2]
    decide
  obtain ⟨-, -, hdevices, hwhole⟩ :=
    bench_guest_exact 65536 (show benchVm.memSize = guestRam from rfl)
  obtain ⟨⟨b, hend, hzero, hwrites⟩, hrounds⟩ := hwhole 1 _ [] h hlen
  rw [List.append_nil] at hend
  have hunhandled := hdevices 1 [benchReport 65535, benchReport 1] hprefix b _ hend
  refine ⟨⟨b, hend, hzero, hwrites, hunhandled⟩, ?_⟩
  have hsecond : (chunks 65536)[1]? = some 1 := by
    rw [chunks_twoRounds]
    rfl
  obtain ⟨b₁, trace, b₂, htake, hget, hperforms⟩ := hrounds 1 1 hsecond
  obtain rfl := Option.some.inj hget
  exact ⟨b₁, b₂, htake, hperforms⟩

end Guests

end SystemsStudy.Kvm
