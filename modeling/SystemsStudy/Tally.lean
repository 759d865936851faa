/-
SystemsStudy/Tally.lean

How many entries a refused chain gets in `ProcessStats::rejected`.

`errors()` is the length of that list, and a chain whose walk fails adds one
entry.  A chain that was walked without an error adds one for every readable
buffer outside the region, since the gather loop goes on after each, and one
more if the response gets to a writable buffer it does not fit into.

`obstacles` counts these from the region before the iteration.  The entries are
one per refused chain, in every iteration of a run, exactly if no chain of the
run has more than one obstacle (`one_entry_per_chain_iff`).
-/
import SystemsStudy.Refusal

namespace SystemsStudy

open Fallible

variable {ω : Type}

/-- `ProcessStats::errors`. -/
def ProcessStats.errors (s : ProcessStats) : ℕ := s.rejected.length

/-- What the device meets that it has to report, in a chain that was walked
without an error and is answered with `total` bytes. -/
def obstacles (m : SharedMem) (ds : List Descriptor) (total : ℕ) : ℕ :=
  (readableOf ds).countP (fun b => m.len < b.1.toNat + b.2.toNat) +
    if (pieces total (writableOf ds) 0).all (fits m.len) then 0 else 1

/-- `gather` reports the buffers that are not inside the region, each once. -/
theorem length_gather_snd {m : SharedMem} {bs : List BufferRef} :
    (gather m bs).2.length = bs.countP fun b => m.len < b.1.toNat + b.2.toNat := by
  induction bs with
  | nil => rfl
  | cons b bs ih =>
      obtain ⟨addr, len⟩ := b
      simp only [gather, m.readSlice_eq, List.countP_cons, ← ih]
      by_cases h : addr.toNat + len.toNat ≤ m.len
      · simp [h, Nat.not_lt.mpr h]
      · simp [h, Nat.not_le.mp h]

/-- The entries of a chain that was served are its obstacles. -/
theorem errors_served {st : ProcessStats} {head : UInt16} {ds : List Descriptor}
    {response : List UInt8} {m m' : SharedMem} {written : UInt32} {err : Option MemError}
    (hsc : ScatterSpec response (writableOf ds) m 0 0 m' written err) :
    (st.served head ds (gather m (readableOf ds)) written err).errors =
      st.errors + obstacles m ds response.length := by
  have herr : err.toList.length =
      if (pieces response.length (writableOf ds) 0).all (fits m.len) then 0 else 1 := by
    have hrefused := hsc.refused
    rcases err with - | e
    · have hall : (pieces response.length (writableOf ds) 0).all (fits m.len) = true := by
        simpa using hrefused
      rw [if_pos hall]
      rfl
    · have hsome : ¬ (pieces response.length (writableOf ds) 0).all (fits m.len) = true := by
        simpa using hrefused
      rw [if_neg hsome]
      rfl
  simp only [ProcessStats.errors, ProcessStats.served, obstacles, List.length_append,
    List.length_map, length_gather_snd, herr]

namespace Process

variable {work : Work ω} {s s' t : Process ω × SharedMem}

/-- The walk of the next chain fails, or the chain has at most one obstacle. -/
def OneObstacle (work : Work ω) (s : Process ω × SharedMem) : Prop :=
  ∀ ds, (s.1.dev.chain s.2 (s.1.dev.nextHead s.2)).collect (s.1.dev.layout.qs + 1) =
      .ok (ds, none) →
    obstacles s.2 ds (work s.1.work (gather s.2 (readableOf ds)).1).1.length ≤ 1

/-- The step lemma. -/
theorem errors_of_step {c : UInt16 × UInt32} (hs : Covered s)
    (h : step work s = .ok (some c) s') :
    s.1.stats.errors ≤ s'.1.stats.errors ∧
      (s'.1.stats.errors ≤ s.1.stats.errors + 1 ↔ OneObstacle work s) := by
  obtain ⟨p, m⟩ := s
  obtain ⟨p', m'⟩ := s'
  cases stepSpec_of_step hs h with
  -- a failed walk is exactly one error
  | @refused ds e hp hw =>
      have hone : (p.stats.refused (p.dev.nextHead m) ds e).errors = p.stats.errors + 1 := by
        simp [ProcessStats.errors, ProcessStats.refused]
      refine ⟨by rw [hone]; exact Nat.le_succ _, iff_of_true hone.le ?_⟩
      intro ds' hc
      have hw' := (ChainIter.collect_eq_ok (Nat.lt_succ_self _)).mp hc
      exact absurd (hw.unique hw').2 (by simp)
  -- a served chain adds one error for each obstacle it met
  | @served ds response w m₁ written err hp hw hwork hsc =>
      have hcount := @errors_served p.stats (p.dev.nextHead m) _ _ _ _ _ _ hsc
      refine ⟨by rw [hcount]; exact Nat.le_add_right _ _, ?_⟩
      rw [hcount, Nat.add_le_add_iff_left]
      constructor
      · intro hle ds' hc
        obtain ⟨rfl, -⟩ := hw.unique ((ChainIter.collect_eq_ok (Nat.lt_succ_self _)).mp hc)
        simp only [hwork]
        exact hle
      · intro hone
        have hle := hone ds ((ChainIter.collect_eq_ok (Nat.lt_succ_self _)).mpr hw)
        simp only [hwork] at hle
        exact hle

/-! ### Runs -/

/-- How many of the next `k` chains the device refuses part of. -/
def refusals (work : Work ω) : ℕ → Process ω × SharedMem → ℕ
  | 0, _ => 0
  | k + 1, s =>
      match step work s with
      | .ok (some _) s' =>
          (if s'.1.stats.errors = s.1.stats.errors then 0 else 1) + refusals work k s'
      | _ => 0

theorem refusals_succ {c : UInt16 × UInt32} (h : step work s = .ok (some c) s') (k : ℕ) :
    refusals work (k + 1) s =
      (if s'.1.stats.errors = s.1.stats.errors then 0 else 1) + refusals work k s' := by
  show (match step work s with | .ok (some _) s' => _ | _ => 0) = _
  rw [h]

/-- In a run of the loop, `P` holds of the state before each iteration. -/
def BeforeEach (work : Work ω) (P : Process ω × SharedMem → Prop) (s : Process ω × SharedMem)
    (cs : List (UInt16 × UInt32)) : Prop :=
  ∀ cs₁ c cs₂ u, cs = cs₁ ++ c :: cs₂ → Iterations work s cs₁ u → P u

theorem beforeEach_cons {P : Process ω × SharedMem → Prop} {c : UInt16 × UInt32}
    {cs : List (UInt16 × UInt32)} (h : step work s = .ok (some c) s') :
    BeforeEach work P s (c :: cs) ↔ P s ∧ BeforeEach work P s' cs := by
  constructor
  · intro hP
    refine ⟨hP [] c cs s rfl (.nil s), ?_⟩
    rintro cs₁ c' cs₂ u rfl hu
    exact hP (c :: cs₁) c' cs₂ u rfl (.cons h hu)
  · rintro ⟨hs, hP⟩ cs₁ c' cs₂ u heq hu
    cases hu with
    | nil => exact hs
    | cons hstep hrest =>
        obtain ⟨rfl, rfl⟩ := List.cons.inj heq
        cases hstep.symm.trans h
        exact hP _ c' cs₂ u rfl hrest

/-- A run whose chains have at most one obstacle each: the entries are as many
as the refused chains, which are among the popped ones. -/
theorem Iterations.errors {cs : List (UInt16 × UInt32)} (hs : Covered s)
    (h : Iterations work s cs t) (hone : BeforeEach work (OneObstacle work) s cs) :
    t.1.stats.errors = s.1.stats.errors + refusals work cs.length s ∧
      refusals work cs.length s ≤ cs.length := by
  induction h with
  | nil s => exact ⟨rfl, le_rfl⟩
  | @cons s s' t c cs hstep _ ih =>
      obtain ⟨hfirst, hrest⟩ := (beforeEach_cons hstep).mp hone
      obtain ⟨htotal, hle⟩ := ih (hs.step hstep) hrest
      obtain ⟨hge, hiff⟩ := errors_of_step hs hstep
      have hmore := hiff.mpr hfirst
      rw [List.length_cons, refusals_succ hstep]
      split
      next hsame => exact ⟨by omega, by omega⟩
      next hnew => exact ⟨by omega, by omega⟩

/-- Along a run each popped chain adds at most one entry, so that `errors` is
at most the number of chains and counts the refused ones. -/
structure OneEntryPerChain (work : Work ω) (s : Process ω × SharedMem)
    (cs : List (UInt16 × UInt32)) (t : Process ω × SharedMem) : Prop where
  each : BeforeEach work (fun u => ∀ c u', step work u = .ok (some c) u' →
    u'.1.stats.errors ≤ u.1.stats.errors + 1) s cs
  errors_le : t.1.stats.errors ≤ cs.length
  errors_eq : t.1.stats.errors = refusals work cs.length s

/-- Over a region that covers the layout, for any device, work closure and
number of iterations: a refused chain gets one entry throughout the run exactly
if no chain of the run has more than one obstacle.  `chains` counts the chains
in either case. -/
theorem one_entry_per_chain_iff (work : Work ω) {d : Device} {w : ω} {m : SharedMem}
    (hcov : d.layout.Covered m) {cs : List (UInt16 × UInt32)} {t : Process ω × SharedMem}
    (h : Iterations work (start d w m) cs t) :
    (OneEntryPerChain work (start d w m) cs t ↔
      BeforeEach work (OneObstacle work) (start d w m) cs) ∧
    t.1.stats.chains = UInt64.ofNat cs.length := by
  have hs : Covered (start d w m) := hcov
  refine ⟨⟨fun hprop => ?_, fun hone => ?_⟩, ?_⟩
  · rintro cs₁ c cs₂ u rfl hu
    obtain ⟨u₁, hu₁, hrest⟩ := h.split
    obtain rfl : u₁ = u := (hu₁.unique hu rfl).2
    rcases hrest with - | ⟨hstep, -⟩
    exact (errors_of_step (hs.iterations hu) hstep).2.mp
      (hprop.each cs₁ c cs₂ _ rfl hu c _ hstep)
  · have htotal := h.errors hs hone
    have hzero : (start d w m).1.stats.errors = 0 := rfl
    refine ⟨?_, by omega, by omega⟩
    intro cs₁ c cs₂ u heq hu c' u' hstep
    exact (errors_of_step (hs.iterations hu) hstep).2.mpr (hone cs₁ c cs₂ u heq hu)
  · rw [(h.totals hs).chains]
    exact UInt64.zero_add _

/-! ### Two entries for one chain -/

/-- A chain of two readable buffers, neither inside the region. -/
def twiceUnreadable : SharedMem :=
  (((SharedMem.new 81 (by decide)).put 0 (Bytes.toLe 8 1000 ++ Bytes.toLe 4 1 ++
    Bytes.toLe 2 1 ++ Bytes.toLe 2 1)).put 16 (Bytes.toLe 8 2000 ++ Bytes.toLe 4 1 ++
    Bytes.toLe 2 0 ++ Bytes.toLe 2 0)).put 34 [1, 0]

/-- Answer nothing. -/
def mute : Work Unit := fun w _ => ([], w)

theorem one_entry_per_chain_iff_twiceUnreadable :
    ∃ c t, pairQueue.Covered twiceUnreadable ∧
      Iterations mute (start (Device.new pairQueue true) () twiceUnreadable) [c] t ∧
      (OneEntryPerChain mute (start (Device.new pairQueue true) () twiceUnreadable) [c] t ↔
        BeforeEach mute (OneObstacle mute)
          (start (Device.new pairQueue true) () twiceUnreadable) [c]) :=
  ⟨_, _, by decide, .cons rfl (.nil _),
    (one_entry_per_chain_iff mute (d := Device.new pairQueue true) (by decide)
      (.cons rfl (.nil _))).1⟩

/-- One chain is popped and two entries are recorded. -/
theorem two_entries_for_one_chain :
    ∃ c t, pairQueue.Covered twiceUnreadable ∧
      Iterations mute (start (Device.new pairQueue true) () twiceUnreadable) [c] t ∧
      t.1.stats.chains = 1 ∧ t.1.stats.errors = 2 ∧
      t.1.stats.rejected =
        [(0, .buffer (.outOfBounds 1000 1 81)), (0, .buffer (.outOfBounds 2000 1 81))] ∧
      ¬ OneEntryPerChain mute (start (Device.new pairQueue true) () twiceUnreadable) [c] t := by
  refine ⟨_, _, by decide, .cons rfl (.nil _), ?_, ?_, ?_, fun h => ?_⟩
  · decide +kernel
  · decide +kernel
  · decide +kernel
  · exact absurd h.errors_le (by decide +kernel)

end Process

end SystemsStudy
