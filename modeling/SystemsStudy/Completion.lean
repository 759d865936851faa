/-
SystemsStudy/Completion.lean

Every chain the device pops is completed, whatever the guest wrote.

The region only has to cover the layout; its contents are arbitrary, and so
are the device, the statistics so far and the work closure.  Under that
assumption alone

* an iteration of the loop returns: no access of the rings fails, and none of
  the counters of one iteration overflows (`step_returns`);
* an iteration that takes a head publishes exactly one completion, for that
  head (`Completes`);
* after `k` iterations both counters have advanced by `k`, and the statistics
  count what was published (`Totals`).

`Iterations` is the run of the loop; its invariants follow by induction from
the one-step facts, which all come from `step_spec`.
-/
import SystemsStudy.Process

namespace SystemsStudy

open Fallible

variable {ω : Type}

namespace Process

/-- The region covers the layout of the device. -/
def Covered (s : Process ω × SharedMem) : Prop := s.1.dev.layout.Covered s.2

instance (s : Process ω × SharedMem) : Decidable (Covered s) :=
  inferInstanceAs (Decidable (s.1.dev.layout.Covered s.2))

/-! ### Runs of the loop -/

/-- `Iterations work s cs t`: from `s` the loop performs `cs.length`
iterations, which publish the completions `cs`, and stands at `t`. -/
inductive Iterations (work : Work ω) :
    Process ω × SharedMem → List (UInt16 × UInt32) → Process ω × SharedMem → Prop
  | nil (s) : Iterations work s [] s
  | cons {s s' t c cs} : step work s = .ok (some c) s' → Iterations work s' cs t →
      Iterations work s (c :: cs) t

variable {work : Work ω} {s s' t : Process ω × SharedMem}

theorem Iterations.append {cs cs' : List (UInt16 × UInt32)} (h : Iterations work s cs t)
    (h' : Iterations work t cs' s') : Iterations work s (cs ++ cs') s' := by
  induction h with
  | nil => exact h'
  | cons hstep _ ih => exact .cons hstep (ih h')

/-- Iterations are determined by how many there are. -/
theorem Iterations.unique {cs cs' : List (UInt16 × UInt32)} {t' : Process ω × SharedMem}
    (h : Iterations work s cs t) (h' : Iterations work s cs' t')
    (hlen : cs.length = cs'.length) : cs = cs' ∧ t = t' := by
  induction h generalizing cs' t' with
  | nil =>
      cases h' with
      | nil => exact ⟨rfl, rfl⟩
      | cons => simp at hlen
  | cons hstep _ ih =>
      cases h' with
      | nil => simp at hlen
      | cons hstep' hrest' =>
          rw [hstep] at hstep'
          obtain ⟨rfl, rfl⟩ : _ = _ ∧ _ = _ := by simpa using hstep'
          obtain ⟨rfl, rfl⟩ := ih hrest' (by simpa using hlen)
          exact ⟨rfl, rfl⟩

/-- An invariant of one iteration is an invariant of every run. -/
theorem Iterations.invariant {I : Process ω × SharedMem → Prop}
    (hstep : ∀ {s c s'}, I s → step work s = .ok (some c) s' → I s')
    {cs : List (UInt16 × UInt32)} (h : Iterations work s cs t) (hs : I s) : I t := by
  induction h with
  | nil => exact hs
  | cons h₁ _ ih => exact ih (hstep hs h₁)

/-! ### One iteration -/

/-- Every outcome of an iteration is one of those `StepSpec` lists. -/
theorem stepSpec_of_step {r : Option (UInt16 × UInt32)} (hs : Covered s)
    (h : step work s = .ok r s') : StepSpec work s.1 s.2 r s'.1 s'.2 := by
  obtain ⟨r', p', m', hr, hspec⟩ := step_spec (p := s.1) (m := s.2) work hs
  rw [h] at hr
  obtain ⟨rfl, rfl⟩ : _ = _ ∧ _ = _ := by simpa using hr
  exact hspec

/-- An iteration that finds nothing changes nothing. -/
theorem eq_of_step_none (hs : Covered s) (h : step work s = .ok none s') :
    s' = s ∧ s.1.dev.pending s.2 = 0 := by
  obtain ⟨p, m⟩ := s
  obtain ⟨p', m'⟩ := s'
  cases stepSpec_of_step hs h with
  | idle hp => exact ⟨rfl, hp⟩

theorem pending_ne_zero_of_step {c : UInt16 × UInt32} (hs : Covered s)
    (h : step work s = .ok (some c) s') : s.1.dev.pending s.2 ≠ 0 := by
  obtain ⟨p, m⟩ := s
  obtain ⟨p', m'⟩ := s'
  cases stepSpec_of_step hs h with
  | refused hp => exact hp
  | served hp => exact hp

theorem step_returns (work : Work ω) (hs : Covered s) : ∃ r s', step work s = .ok r s' := by
  obtain ⟨r, p', m', hr, -⟩ := step_spec (p := s.1) (m := s.2) work hs
  exact ⟨r, (p', m'), hr⟩

/-- The layout and the length of the region never change. -/
theorem StepSpec.layout_len {r : Option (UInt16 × UInt32)} {p p' : Process ω}
    {m m' : SharedMem} (h : StepSpec work p m r p' m') :
    p'.dev.layout = p.dev.layout ∧ m'.len = m.len := by
  cases h with
  | idle => exact ⟨rfl, rfl⟩
  | refused => exact ⟨rfl, VirtqLayout.len_putUsed _ _ _⟩
  | served _ _ _ hsc => exact ⟨rfl, (VirtqLayout.len_putUsed _ _ _).trans hsc.len_eq⟩

theorem Covered.step {r : Option (UInt16 × UInt32)} (hs : Covered s)
    (h : step work s = .ok r s') : Covered s' := by
  obtain ⟨hl, hm⟩ := (stepSpec_of_step hs h).layout_len
  unfold Covered VirtqLayout.Covered at *
  rwa [hl, hm]

theorem Covered.iterations {cs : List (UInt16 × UInt32)} (hs : Covered s)
    (h : Iterations work s cs t) : Covered t :=
  h.invariant Covered.step hs

/-- What the iteration that publishes `c` does to the queue: it pops the head
`c.1`, calls `add_used` once, with `c`, and leaves that completion in the used
slot, advertised by the index. -/
structure Completes (work : Work ω) (s : Process ω × SharedMem) (c : UInt16 × UInt32)
    (s' : Process ω × SharedMem) : Prop where
  head : c.1 = s.1.dev.nextHead s.2
  once : ∃ m, Device.addUsed c.1 c.2 (s.1.dev.popped, m) = .ok () (s'.1.dev, s'.2)
  nextAvail : s'.1.dev.nextAvail = s.1.dev.nextAvail + 1
  nextUsed : s'.1.dev.nextUsed = s.1.dev.nextUsed + 1
  id : s'.2.word32 (s.1.dev.layout.usedSlot s.1.dev.nextUsed).1 = c.1.toUInt32
  len : s'.2.word32 (s.1.dev.layout.usedSlot s.1.dev.nextUsed).2 = c.2
  idx : s'.2.word16 s'.1.dev.layout.usedIdx = s'.1.dev.nextUsed
  failed : ∀ ds e, (s.1.dev.chain s.2 c.1).collect (s.1.dev.layout.qs + 1) =
    .ok (ds, some e) → c.2 = 0 ∧ s'.1.work = s.1.work

theorem completes_of_step {c : UInt16 × UInt32} (hs : Covered s)
    (h : step work s = .ok (some c) s') : Completes work s c s' := by
  obtain ⟨p, m⟩ := s
  obtain ⟨p', m'⟩ := s'
  cases stepSpec_of_step hs h with
  | refused hp hw =>
      -- a refused chain is completed with length zero
      have hslot : p.dev.layout.usedBase p.dev.nextUsed + 8 ≤ m.len :=
        VirtqLayout.Covered.usedBase hs _
      refine ⟨rfl, ⟨m, Device.addUsed_ok (d := p.dev.popped) hslot _ _⟩, rfl, rfl, ?_, ?_, ?_, ?_⟩
      · exact VirtqLayout.word32_usedBase_putUsed hslot _ _
      · exact VirtqLayout.word32_usedLen_putUsed hslot _ _
      · exact VirtqLayout.word16_usedIdx_putUsed hslot _ _
      · exact fun _ _ _ => ⟨rfl, rfl⟩
  | @served ds response w m₁ written err hp hw hwork hsc =>
      -- a served one with what was written, in a region that the scatter loop kept as long
      have hslot : p.dev.layout.usedBase p.dev.nextUsed + 8 ≤ m₁.len := by
        rw [hsc.len_eq]
        exact VirtqLayout.Covered.usedBase hs _
      refine ⟨rfl, ⟨_, Device.addUsed_ok (d := p.dev.popped) hslot _ _⟩, rfl, rfl, ?_, ?_, ?_, ?_⟩
      · exact VirtqLayout.word32_usedBase_putUsed hslot _ _
      · exact VirtqLayout.word32_usedLen_putUsed hslot _ _
      · exact VirtqLayout.word16_usedIdx_putUsed hslot _ _
      · intro ds e hc
        have hw' := (ChainIter.collect_eq_ok (Nat.lt_succ_self _)).mp hc
        exact absurd (hw.unique hw').2 (by simp)

/-! ### Totals over a run -/

/-- How the counters have moved after publishing the completions `cs`. -/
structure Totals (s : Process ω × SharedMem) (cs : List (UInt16 × UInt32))
    (t : Process ω × SharedMem) : Prop where
  nextAvail : t.1.dev.nextAvail = s.1.dev.nextAvail + UInt16.ofNat cs.length
  nextUsed : t.1.dev.nextUsed = s.1.dev.nextUsed + UInt16.ofNat cs.length
  chains : t.1.stats.chains = s.1.stats.chains + UInt64.ofNat cs.length
  bytesWritten : t.1.stats.bytesWritten =
    s.1.stats.bytesWritten + UInt64.ofNat (cs.map fun c => c.2.toNat).sum

theorem totals_of_step {c : UInt16 × UInt32} (hs : Covered s)
    (h : step work s = .ok (some c) s') : Totals s [c] s' := by
  obtain ⟨p, m⟩ := s
  obtain ⟨p', m'⟩ := s'
  cases stepSpec_of_step hs h with
  | refused => exact ⟨rfl, rfl, rfl, by simp [ProcessStats.refused]⟩
  | served => exact ⟨rfl, rfl, rfl, by simp [ProcessStats.served]⟩

theorem Totals.cons {c : UInt16 × UInt32} {cs : List (UInt16 × UInt32)}
    (h : Totals s [c] s') (h' : Totals s' cs t) : Totals s (c :: cs) t := by
  obtain ⟨h₁, h₂, h₃, h₄⟩ := h
  obtain ⟨g₁, g₂, g₃, g₄⟩ := h'
  have hlen : ([c] : List (UInt16 × UInt32)).length = 1 := rfl
  rw [hlen] at h₁ h₂ h₃
  refine ⟨?_, ?_, ?_, ?_⟩
  · rw [g₁, h₁, List.length_cons, Nat.add_comm, UInt16.ofNat_add, UInt16.add_assoc]
  · rw [g₂, h₂, List.length_cons, Nat.add_comm, UInt16.ofNat_add, UInt16.add_assoc]
  · rw [g₃, h₃, List.length_cons, Nat.add_comm, UInt64.ofNat_add, UInt64.add_assoc]
  · rw [g₄, h₄, List.map_cons, List.sum_cons, UInt64.ofNat_add, UInt64.add_assoc]
    simp

theorem Iterations.totals {cs : List (UInt16 × UInt32)} (hs : Covered s)
    (h : Iterations work s cs t) : Totals s cs t := by
  induction h with
  | nil => exact ⟨by simp, by simp, by simp, by simp⟩
  | cons hstep _ ih => exact (totals_of_step hs hstep).cons (ih (hs.step hstep))

/-! ### The loop and the function -/

/-- The loop either finds nothing available after fewer than `fuel`
iterations, or performs `fuel` of them. -/
theorem loop_spec (work : Work ω) (fuel : ℕ) (hs : Covered s) :
    (∃ cs t, loop work fuel s = .ok () t ∧ Iterations work s cs t ∧ cs.length < fuel ∧
      t.1.dev.pending t.2 = 0) ∨
    (∃ cs t, loop work fuel s = .error .fuel t ∧ Iterations work s cs t ∧
      cs.length = fuel) := by
  induction fuel generalizing s with
  | zero => exact .inr ⟨[], s, rfl, .nil s, rfl⟩
  | succ fuel ih =>
      obtain ⟨r, s', hr⟩ := step_returns work hs
      -- the loop ends here, or goes on with one iteration less of fuel
      rcases r with - | c
      · obtain ⟨rfl, hz⟩ := eq_of_step_none hs hr
        exact .inl ⟨[], _, by rw [loop, bind_ok hr]; rfl, .nil _, Nat.succ_pos _, hz⟩
      · have hloop : loop work (fuel + 1) s = loop work fuel s' := by
          rw [loop, bind_ok hr]
        rcases ih (hs.step hr) with ⟨cs, t, hl, hi, hlen, hz⟩ | ⟨cs, t, hl, hi, hlen⟩
        · exact .inl ⟨c :: cs, t, hloop.trans hl, .cons hr hi, by simpa using hlen, hz⟩
        · exact .inr ⟨c :: cs, t, hloop.trans hl, .cons hr hi, by simpa using hlen⟩

/-- A run splits at each of its iterations. -/
theorem Iterations.split {cs₁ cs₂ : List (UInt16 × UInt32)}
    (h : Iterations work s (cs₁ ++ cs₂) t) :
    ∃ s₁, Iterations work s cs₁ s₁ ∧ Iterations work s₁ cs₂ t := by
  induction cs₁ generalizing s with
  | nil => exact ⟨s, .nil s, h⟩
  | cons c cs₁ ih =>
      rcases h with - | ⟨hstep, hrest⟩
      obtain ⟨s₁, h₁, h₂⟩ := ih hrest
      exact ⟨s₁, .cons hstep h₁, h₂⟩

/-- The state `Device::process` starts its loop from. -/
def start (d : Device) (w : ω) (m : SharedMem) : Process ω × SharedMem :=
  ({ dev := d, stats := {}, work := w }, m)

/-- What `Device::process` returns are the statistics after a run of the loop
that ends with nothing available. -/
theorem process_spec {d : Device} {m : SharedMem} (work : Work ω) (fuel : ℕ) (w : ω)
    (hs : Covered (start d w m)) :
    (∃ cs t, d.process fuel work w m = .ok t.1.stats t ∧
      Iterations work (start d w m) cs t ∧ cs.length < fuel ∧ t.1.dev.pending t.2 = 0) ∨
    (∃ cs t, d.process fuel work w m = .error .fuel t ∧
      Iterations work (start d w m) cs t ∧ cs.length = fuel) := by
  rcases loop_spec work fuel hs with
    ⟨cs, t, hl, hi, hlen, hz⟩ | ⟨cs, t, hl, hi, hlen⟩
  · exact .inl ⟨cs, t, bind_ok hl, hi, hlen, hz⟩
  · exact .inr ⟨cs, t, bind_error hl, hi, hlen⟩

/-- Whatever the bytes of a region that covers the layout: the loop never
fails, each iteration completes exactly the head it popped, and the statistics
`Device::process` returns count the iterations and the bytes. -/
theorem process_completes_every_head (work : Work ω) (d : Device) (w : ω) (m : SharedMem)
    (h : d.layout.Covered m) :
    -- every further iteration returns
    (∀ cs t, Iterations work (start d w m) cs t → ∃ r t', step work t = .ok r t') ∧
    -- each iteration so far completed its head
    (∀ cs₁ c cs₂ t, Iterations work (start d w m) (cs₁ ++ c :: cs₂) t →
      ∃ s s', Iterations work (start d w m) cs₁ s ∧ step work s = .ok (some c) s' ∧
        Iterations work s' cs₂ t ∧ Completes work s c s') ∧
    -- both counters advanced by the number of iterations
    (∀ cs t, Iterations work (start d w m) cs t →
      t.1.dev.nextAvail = d.nextAvail + UInt16.ofNat cs.length ∧
      t.1.dev.nextUsed = d.nextUsed + UInt16.ofNat cs.length) ∧
    -- a range that passes the bounds check can be indexed
    (∀ cs t a n lo hi, Iterations work (start d w m) cs t → t.2.range a n = .ok (lo, hi) →
      hi = lo + n ∧ hi ≤ t.2.buf.length) ∧
    -- the function returns the totals of its iterations, unless the bound cuts it off
    (∀ fuel, (∃ stats t cs, d.process fuel work w m = .ok stats t ∧
        Iterations work (start d w m) cs t ∧
        stats.chains = UInt64.ofNat cs.length ∧
        stats.bytesWritten = UInt64.ofNat (cs.map fun c => c.2.toNat).sum) ∨
      (∃ t cs, d.process fuel work w m = .error .fuel t ∧
        Iterations work (start d w m) cs t ∧ cs.length = fuel)) := by
  have hs : Covered (start d w m) := h
  refine ⟨?_, ?_, ?_, ?_, ?_⟩
  · exact fun cs t hi => step_returns work (hs.iterations hi)
  · intro cs₁ c cs₂ t hi
    obtain ⟨s, h₁, h₂⟩ := hi.split
    rcases h₂ with - | ⟨hstep, hrest⟩
    exact ⟨s, _, h₁, hstep, hrest, completes_of_step (hs.iterations h₁) hstep⟩
  · exact fun cs t hi => ⟨(hi.totals hs).nextAvail, (hi.totals hs).nextUsed⟩
  · intro cs t a n lo hi _ hr
    rw [SharedMem.range_eq] at hr
    split at hr
    next hle =>
      obtain ⟨rfl, rfl⟩ : a = lo ∧ a + n = hi := by simpa using hr
      exact ⟨rfl, hle⟩
    next => cases hr
  · intro fuel
    rcases process_spec work fuel w hs with ⟨cs, t, hp, hi, -⟩ | ⟨cs, t, hp, hi, hlen⟩
    · have ht := hi.totals hs
      refine .inl ⟨_, t, cs, hp, hi, ?_, ?_⟩
      · simpa [start] using ht.chains
      · simpa [start] using ht.bytesWritten
    · exact .inr ⟨t, cs, hp, hi, hlen⟩

/-- One published chain, whose only buffer is the last byte of the region. -/
def oneChain : SharedMem :=
  ((SharedMem.new 39 (by decide)).put 0 (Bytes.toLe 8 38 ++ Bytes.toLe 4 1 ++
    Bytes.toLe 2 2 ++ Bytes.toLe 2 0)).put 18 [1, 0]

/-- One iteration completes the chain, and there is no second. -/
theorem iterations_oneChain {cs : List (UInt16 × UInt32)} {t : Process Unit × SharedMem}
    (h : Iterations (fun w _ => ([7], w)) (start (Device.new unitQueue true) () oneChain) cs t) :
    cs = [] ∨ cs = [(0, 1)] := by
  have hs : Covered (start (Device.new unitQueue true) () oneChain) := by decide
  obtain ⟨s, hstep, hdone⟩ : ∃ s, step (fun w _ => ([7], w))
        (start (Device.new unitQueue true) () oneChain) = .ok (some (0, 1)) s ∧
      s.1.dev.pending s.2 = 0 := ⟨_, rfl, by decide +kernel⟩
  cases h with
  | nil => exact .inl rfl
  | cons h₁ h₂ =>
      cases h₁.symm.trans hstep
      cases h₂ with
      | nil => exact .inr rfl
      | cons h₃ _ => exact absurd hdone (pending_ne_zero_of_step (hs.step hstep) h₃)

theorem process_completes_every_head_oneChain :
    ∃ stats t, (Device.new unitQueue true).process 2 (fun w _ => ([7], w)) () oneChain =
        .ok stats t ∧
      Iterations (fun w _ => ([7], w)) (start (Device.new unitQueue true) () oneChain)
        [(0, 1)] t ∧
      Completes (fun w _ => ([7], w)) (start (Device.new unitQueue true) () oneChain) (0, 1) t ∧
      t.1.dev.nextAvail = 1 ∧ t.1.dev.nextUsed = 1 ∧
      stats.chains = 1 ∧ stats.bytesWritten = 1 := by
  obtain ⟨-, hcompletes, hcounters, -, hreturns⟩ := process_completes_every_head
    (fun w _ => ([7], w)) (Device.new unitQueue true) () oneChain (by decide)
  have hrun : (match (Device.new unitQueue true).process 2 (fun w _ => ([7], w)) () oneChain with
      | .ok stats _ => stats.chains == 1
      | .error _ _ => false) = true := by decide +kernel
  rcases hreturns 2 with ⟨stats, t, cs, hprocess, hcs, hchains, hwritten⟩ | ⟨_, cs, hfuel, -⟩
  · rw [hprocess] at hrun
    have hone : stats.chains = 1 := eq_of_beq hrun
    rcases iterations_oneChain hcs with rfl | rfl
    · cases hchains.symm.trans hone
    · obtain ⟨s₀, s, h₀, -, h₁, hcompleted⟩ := hcompletes [] (0, 1) [] t hcs
      cases h₀
      cases h₁
      obtain ⟨havail, hused⟩ := hcounters _ t hcs
      exact ⟨stats, t, hprocess, hcs, hcompleted, havail, hused, hone, hwritten⟩
  · rw [hfuel] at hrun
    cases hrun
/-- One published chain: a byte to read at 80, and two to write behind it. -/
def pairChain : SharedMem :=
  (((SharedMem.new 90 (by decide)).put 0 (Bytes.toLe 8 80 ++ Bytes.toLe 4 1 ++
    Bytes.toLe 2 1 ++ Bytes.toLe 2 1 ++ Bytes.toLe 8 81 ++ Bytes.toLe 4 2 ++
    Bytes.toLe 2 2 ++ Bytes.toLe 2 0)).put 34 [1, 0]).put 80 [9]

theorem collect_pairChain : ((Device.new pairQueue true).chain pairChain 0).collect 3 =
    .ok ([⟨80, 1, 1, 1⟩, ⟨81, 2, 2, 0⟩], none) := by decide +kernel

end Process

end SystemsStudy
