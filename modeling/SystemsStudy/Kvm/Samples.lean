/-
SystemsStudy/Kvm/Samples.lean

`main.rs`: the samples of the exit-cost benchmark, and the file they go to.

The run appends one sample per return of `KVM_RUN`, an interruption of the host
included, and the statistics sort the samples in place before they are written.
So the file has the exits in the order they were collected exactly if the host
never interrupted and the samples were sorted already (`csv_exact_iff`).
-/
import Mathlib
import SystemsStudy.Kvm.Rounds

namespace SystemsStudy.Kvm

variable {n : ℕ}

/-! ### The file -/

/-- `Stats::from`: it sorts its argument in place, and panics if that is empty.
The percentiles are only printed. -/
def statsFrom (v : List UInt64) : Option (List UInt64) :=
  if v = [] then none else some (v.insertionSort (· ≤ ·))

/-- A row of the file for the sample with this index. -/
def csvRow (i : ℕ) (ns : UInt64) : String :=
  "vmexit_io," ++ toString i ++ "," ++ toString ns.toNat

/-- The raw samples, one per row. -/
def writeCsv (timerNs : UInt64) (timings : List UInt64) : List String :=
  "kind,index,ns" :: ("timer_overhead_median,0," ++ toString timerNs.toNat) ::
    timings.mapIdx csvRow

/-- `run_bench`, for what `KVM_RUN` does in each round: the lines of the file,
or an error.  There is neither after a panic, or while a guest runs on. -/
def runBench (samples : UInt32) (timerNs : UInt64) (vm : Vm)
    (traces : List (List (Outcome n × UInt64))) : Option (Except RunError (List String)) :=
  match Bench.rounds { vm, remaining := samples } traces with
  | none => none
  | some (_, .running) => none
  | some (_, .failed e) => some (.error e)
  | some (b, .halted) => (statsFrom b.timings).map fun timings => .ok (writeCsv timerNs timings)

theorem csvRow_injective (i : ℕ) : Function.Injective (csvRow i) := by
  intro a b h
  have hnat : Nat.repr a.toNat = Nat.repr b.toNat := (String.append_right_inj _).mp h
  exact UInt64.toNat_inj.mp (Nat.repr_injective hnat)

/-- The file tells the samples. -/
theorem writeCsv_injective (timerNs : UInt64) : Function.Injective (writeCsv timerNs) := by
  intro v w h
  have hrows : v.mapIdx csvRow = w.mapIdx csvRow := (List.cons.inj (List.cons.inj h).2).2
  apply List.ext_getElem?
  intro i
  have hi := congrArg (·[i]?) hrows
  simp only [List.getElem?_mapIdx] at hi
  exact Option.map_injective (csvRow_injective i) hi

/-! ### What is sampled -/

/-- How long the exits of a round took. -/
def outDurations (trace : List (Outcome n × UInt64)) : List UInt64 :=
  (trace.filter fun x => (event x.1).isBenchOut).map Prod.snd

/-- The file has a row for each requested sample: the exits in the order they
were collected. -/
def ExportsExits (samples : UInt32) (timerNs : UInt64) (vm : Vm)
    (traces : List (List (Outcome n × UInt64))) : Prop :=
  (traces.flatMap outDurations).length = samples.toNat ∧
    runBench samples timerNs vm traces = some (.ok (writeCsv timerNs (traces.flatMap outDurations)))

section Rounds

variable {b : Bench} {count : UInt32} {trace : List (Outcome n × UInt64)}
  {traces : List (List (Outcome n × UInt64))}

/-- The halt is not one of the exits. -/
theorem Served.outDurations_eq (h : Served count trace) :
    outDurations trace =
      (trace.dropLast.filter fun x => (event x.1).isBenchOut).map Prod.snd := by
  obtain ⟨x, hhlt, htrace⟩ := h.eq_append
  have hlast : [x].filter (fun x => (event x.1).isBenchOut) = [] := by
    rw [List.filter_singleton, hhlt]
    rfl
  rw [outDurations, congrArg (List.filter _) htrace, List.filter_append, hlast, List.append_nil]

theorem Served.length_outDurations (h : Served count trace) :
    (outDurations trace).length = count.toNat := by
  rw [h.outDurations_eq, List.length_map, ← List.countP_eq_length_filter, h.outs]

/-- An interruption is kept as one more sample. -/
theorem Served.length_kept (h : Served count trace) :
    (kept trace).length =
      count.toNat + trace.countP fun x => (event x.1).isInterruption := by
  obtain ⟨x, hhlt, htrace⟩ := h.eq_append
  have hlast : [x].countP (fun x => (event x.1).isInterruption) = 0 := by
    rw [List.countP_singleton, hhlt]
    rfl
  have hints : (trace.countP fun x => (event x.1).isInterruption) =
      trace.dropLast.countP fun x => !(event x.1).isBenchOut := by
    rw [congrArg (List.countP _) htrace, List.countP_append, hlast, Nat.add_zero]
    apply List.countP_congr
    intro x hx
    rw [Event.isBenchOut_of_ordinary (h.ordinary x hx), Bool.not_not]
  rw [kept, List.length_map, hints, ← h.outs]
  simpa using List.length_eq_countP_add_countP (l := trace.dropLast) fun x =>
    (event x.1).isBenchOut

/-- Without interruptions the exits are what is kept. -/
theorem Served.kept_eq (h : Served count trace)
    (hquiet : ∀ x ∈ trace, (event x.1).isInterruption = false) :
    (∀ x ∈ trace.dropLast, (event x.1).isBenchOut = true) ∧ kept trace = outDurations trace := by
  have houts : ∀ x ∈ trace.dropLast, (event x.1).isBenchOut = true := by
    intro x hx
    rw [Event.isBenchOut_of_ordinary (h.ordinary x hx),
      hquiet x (List.dropLast_subset _ hx)]
    rfl
  refine ⟨houts, ?_⟩
  rw [h.outDurations_eq, List.filter_eq_self.mpr houts]
  rfl

/-- A served round keeps its samples, unless a counter overflows. -/
theorem Bench.round_served (hvm : b.vm.memSize = guestRam) (hrem : b.remaining ≠ 0)
    (h : Served (chunk b.remaining) trace) :
    b.round trace = none ∨ ∃ b', b.round trace = some (b', .halted) ∧ b'.vm.memSize = guestRam ∧
      b'.remaining = b.remaining - chunk b.remaining ∧ b'.timings = b.timings ++ kept trace := by
  obtain ⟨x, hx, htrace⟩ := h.eq_append
  -- everything before HLT resumes the loop
  rcases @Vm.loop_ordinary n { devices := b.devices } _ h.ordinary_fst [x.1] with
    hnone | ⟨st', replies, hlen, hloop⟩
  · left
    obtain ⟨vm', -, hround⟩ := round_eq (n := n) hvm hrem
    rw [hround, map_fst_eq htrace, hnone]
    rfl
  · rw [List.length_map] at hlen
    obtain ⟨vm', hloads, hround⟩ := round_halted hvm hrem htrace hx hlen hloop
    rw [hround]
    rcases incr st'.summary.exits with - | m
    · exact .inl rfl
    rcases addChecked b.interrupted st'.summary.interrupted with - | i
    · exact .inl rfl
    · exact .inr ⟨_, rfl, hloads.memSize.trans hvm, rfl, rfl⟩

/-- Without interruptions no counter overflows. -/
theorem Bench.round_quiet (hvm : b.vm.memSize = guestRam) (hrem : b.remaining ≠ 0)
    (h : Served (chunk b.remaining) trace)
    (hquiet : ∀ x ∈ trace, (event x.1).isInterruption = false)
    (hpio : b.devices.pioWrites.toNat + (chunk b.remaining).toNat + 1 < 2 ^ 64)
    (hint : b.interrupted = 0) :
    ∃ b', b.round trace = some (b', .halted) ∧ b'.interrupted = 0 ∧
      b'.devices.pioWrites.toNat = b.devices.pioWrites.toNat + (chunk b.remaining).toNat := by
  have hnone : (trace.countP fun x => (event x.1).isInterruption) = 0 :=
    List.countP_eq_zero.mpr fun x hx => Bool.eq_false_iff.mp (hquiet x hx)
  obtain ⟨x, -, htrace⟩ := h.eq_append
  -- with no interruption a round returns once for each store, and once for HLT
  have hlen : trace.length = (chunk b.remaining).toNat + 1 := by
    have hkept := h.length_kept
    rw [hnone, kept, List.length_map] at hkept
    rw [congrArg List.length htrace, List.length_append, hkept]
    rfl
  obtain ⟨b', hround, -, -, hpio', hint'⟩ := round_counted hvm hrem h (by omega) (by
    obtain ⟨-, hle, -⟩ := chunk_pos hrem
    rw [hint, hlen]
    show 0 + _ < _
    omega)
  refine ⟨b', hround, ?_, hpio'⟩
  rw [hnone, hint] at hint'
  exact UInt64.toNat_inj.mp hint'

theorem Bench.rounds_served (hvm : b.vm.memSize = guestRam)
    (h : List.Forall₂ Served (chunks b.remaining) traces) :
    b.rounds traces = none ∨ ∃ b', b.rounds traces = some (b', .halted) ∧
      b'.timings = b.timings ++ traces.flatMap kept := by
  induction traces generalizing b with
  | nil =>
      right
      -- no round is left, so nothing remains
      have hzero : b.remaining = 0 := by
        by_contra hne
        rw [chunks_of_ne_zero hne] at h
        cases h
      refine ⟨b, ?_, (List.append_nil _).symm⟩
      rw [rounds, if_pos hzero]
  | cons trace traces ih =>
      obtain ⟨hrem, hserved, hrest⟩ := served_cons h
      rw [rounds, if_neg hrem]
      rcases round_served hvm hrem hserved with hnone | ⟨b', hround, hvm', hnext, htimings⟩
      · left
        rw [hnone]
      · rw [hround]
        dsimp only
        rw [← hnext] at hrest
        rcases ih hvm' hrest with hnone | ⟨b'', hrounds, htimings'⟩
        · exact .inl hnone
        · refine .inr ⟨b'', hrounds, ?_⟩
          rw [htimings', htimings, List.append_assoc, List.flatMap_cons]

theorem Bench.rounds_quiet (hvm : b.vm.memSize = guestRam)
    (h : List.Forall₂ Served (chunks b.remaining) traces)
    (hquiet : ∀ trace ∈ traces, ∀ x ∈ trace, (event x.1).isInterruption = false)
    (hpio : b.devices.pioWrites.toNat + b.remaining.toNat + 1 < 2 ^ 64) (hint : b.interrupted = 0) :
    b.rounds traces ≠ none := by
  induction traces generalizing b with
  | nil => nofun
  | cons trace traces ih =>
      obtain ⟨hrem, hserved, hrest⟩ := served_cons h
      obtain ⟨-, -, hle, hsub⟩ := chunk_pos hrem
      obtain ⟨b', hround, hint', hpio'⟩ := round_quiet hvm hrem hserved
        (hquiet trace List.mem_cons_self) (by omega) hint
      rcases round_served hvm hrem hserved with hnone | ⟨b'', hround', hvm', hnext, -⟩
      · rw [hnone] at hround
        cases hround
      cases hround.symm.trans hround'
      rw [rounds, if_neg hrem, hround]
      apply ih hvm' (by rw [hnext]; exact hrest)
        (fun trace ht => hquiet trace (List.mem_cons_of_mem _ ht)) _ hint'
      rw [hpio', hnext, hsub]
      omega

/-- The exits of the rounds are as many as were requested. -/
theorem length_outDurations {counts : List UInt32} (h : List.Forall₂ Served counts traces) :
    (traces.flatMap outDurations).length = (counts.map UInt32.toNat).sum := by
  induction h with
  | nil => rfl
  | cons hserved _ ih =>
      rw [List.flatMap_cons, List.length_append, hserved.length_outDurations, ih, List.map_cons,
        List.sum_cons]

/-- Each interruption is one sample too many. -/
theorem length_kept {counts : List UInt32} (h : List.Forall₂ Served counts traces) :
    (traces.flatMap kept).length = (traces.flatMap outDurations).length +
      traces.flatten.countP fun x => (event x.1).isInterruption := by
  induction h with
  | nil => rfl
  | cons hserved _ ih =>
      rw [List.flatMap_cons, List.length_append, hserved.length_kept, ih, List.flatMap_cons,
        List.length_append, hserved.length_outDurations, List.flatten_cons, List.countP_append]
      omega

/-- Without interruptions exactly the exits are kept. -/
theorem flatMap_kept {counts : List UInt32} (h : List.Forall₂ Served counts traces)
    (hquiet : ∀ trace ∈ traces, ∀ x ∈ trace, (event x.1).isInterruption = false) :
    traces.flatMap kept = traces.flatMap outDurations := by
  induction h with
  | nil => rfl
  | cons hserved _ ih =>
      rw [List.flatMap_cons, List.flatMap_cons,
        (hserved.kept_eq (hquiet _ List.mem_cons_self)).2,
        ih fun trace ht => hquiet trace (List.mem_cons_of_mem _ ht)]

/-- What the file holds: every sample that was kept, sorted. -/
theorem runBench_eq {samples : UInt32} (timerNs : UInt64) {vm : Vm} (hvm : vm.memSize = guestRam)
    (h : List.Forall₂ Served (chunks samples) traces) :
    runBench samples timerNs vm traces =
      (Bench.rounds { vm, remaining := samples } traces).bind fun _ =>
        (statsFrom (traces.flatMap kept)).map fun timings => .ok (writeCsv timerNs timings) := by
  unfold runBench
  rcases Bench.rounds_served (b := { vm, remaining := samples }) hvm h with
    hnone | ⟨b, hrounds, htimings⟩
  · rw [hnone]
    rfl
  · have hkept : b.timings = traces.flatMap kept := htimings
    rw [hrounds]
    dsimp only [Option.bind_some]
    rw [hkept]

/-- For every number of samples, timer overhead and behaviour of `KVM_RUN` in
which each round performs its exits and halts, with interruptions anywhere
before that: the rows of the file are the exits in the order they were collected
if and only if there was no interruption, and no exit took less time than the
one before it. -/
theorem csv_exact_iff {samples : UInt32} (hsamples : samples ≠ 0) (timerNs : UInt64) {vm : Vm}
    (hvm : vm.memSize = guestRam) (h : List.Forall₂ Served (chunks samples) traces) :
    ExportsExits samples timerNs vm traces ↔
      (∀ trace ∈ traces, ∀ x ∈ trace, (event x.1).isInterruption = false) ∧
        (traces.flatMap outDurations).Pairwise (· ≤ ·) := by
  have hcount : (traces.flatMap outDurations).length = samples.toNat := by
    rw [length_outDurations h, sum_chunks]
  rw [ExportsExits, runBench_eq timerNs hvm h]
  constructor
  · rintro ⟨-, hrun⟩
    obtain ⟨_, -, hrun⟩ := Option.bind_eq_some_iff.mp hrun
    obtain ⟨timings, hstats, hlines⟩ := Option.map_eq_some_iff.mp hrun
    -- equal files have equal rows, so the sorted vector is the list of exits itself
    have hexits : timings = traces.flatMap outDurations :=
      writeCsv_injective timerNs (Except.ok.inj hlines)
    have hsorted : (traces.flatMap kept).insertionSort (· ≤ ·) = traces.flatMap outDurations := by
      rw [← hexits]
      unfold statsFrom at hstats
      split at hstats
      · cases hstats
      · exact Option.some.inj hstats
    have hlength := congrArg List.length hsorted
    rw [List.length_insertionSort, length_kept h] at hlength
    refine ⟨fun trace ht x hx => ?_, ?_⟩
    · -- sorting keeps the length, so nothing but the exits was kept
      have hzero : (traces.flatten.countP fun x => (event x.1).isInterruption) = 0 := by omega
      have hnot := List.countP_eq_zero.mp hzero x (List.mem_flatten.mpr ⟨trace, ht, hx⟩)
      exact Bool.eq_false_iff.mpr hnot
    · rw [← hsorted]
      exact List.pairwise_insertionSort _ _
  · rintro ⟨hquiet, hordered⟩
    refine ⟨hcount, ?_⟩
    have hne : traces.flatMap outDurations ≠ [] := by
      apply List.ne_nil_of_length_pos
      rw [hcount]
      exact toNat_pos_of_ne_zero hsamples
    have hlt := samples.toNat_lt
    have hrounds := Bench.rounds_quiet (b := { vm, remaining := samples }) hvm h hquiet
      (show 0 + samples.toNat + 1 < 2 ^ 64 by omega) rfl
    obtain ⟨b, hb⟩ := Option.ne_none_iff_exists'.mp hrounds
    rw [hb, flatMap_kept h hquiet, statsFrom, if_neg hne, hordered.insertionSort_eq]
    rfl

end Rounds

/-- An exit of the benchmark's loop that took `ns`. -/
def benchOut (ns : UInt64) : Outcome 8 × UInt64 :=
  (exitPage kvmExitIo { direction := kvmExitIoOut, size := 1, port := benchPort, count := 1 } {},
    ns)

/-- The exit of the guest's halt, and how long its round trip took. -/
def benchHlt (ns : UInt64) : Outcome 8 × UInt64 := (exitPage kvmExitHlt {} {}, ns)

theorem chunks_two : chunks 2 = [2] := by
  rw [chunks_of_ne_zero (by decide)]
  show 2 :: chunks 0 = [2]
  rw [chunks_zero]

theorem csv_exact_iff_ordered :
    ExportsExits 2 30 benchVm [[benchOut 5, benchOut 9, benchHlt 7]] := by
  have hserved : Served 2 [benchOut 5, benchOut 9, benchHlt 7] :=
    { halts := ⟨benchHlt 7, rfl, rfl⟩
      ordinary := by
        intro x hx
        rcases List.mem_cons.mp hx with rfl | hx
        · exact .inr rfl
        · rw [List.mem_singleton.mp hx]
          exact .inr rfl
      outs := rfl }
  have h : List.Forall₂ Served (chunks 2) [[benchOut 5, benchOut 9, benchHlt 7]] := by
    rw [chunks_two]
    exact .cons hserved .nil
  apply (csv_exact_iff (by decide) 30 rfl h).mpr
  decide

/-- The samples of the two exits are swapped, and the interruption that lies
between them is the last row. -/
theorem interrupted_csv_is_sorted :
    runBench 2 30 benchVm [[benchOut 9, (.error eintr, 100), benchOut 5, benchHlt 7]] =
      some (.ok (writeCsv 30 [5, 9, 100])) ∧
    ¬ ExportsExits 2 30 benchVm [[benchOut 9, (.error eintr, 100), benchOut 5, benchHlt 7]] := by
  have hrun : runBench 2 30 benchVm [[benchOut 9, (.error eintr, 100), benchOut 5, benchHlt 7]] =
      some (.ok (writeCsv 30 [5, 9, 100])) := rfl
  refine ⟨hrun, ?_⟩
  rintro ⟨-, hexits⟩
  have hsame := writeCsv_injective 30 (Except.ok.inj (Option.some.inj (hrun.symm.trans hexits)))
  revert hsame
  decide

end SystemsStudy.Kvm
