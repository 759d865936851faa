/-
SystemsStudy/Notify.lean

`bench_notification`: what the event thresholds save.

A configuration publishes a number of requests in bursts and counts the kicks
and the interrupts.  With `EVENT_IDX` a burst costs one of each, whatever its
size; without it every chain is kicked for, and an interrupt still comes once
for each pass of the device.  So the counts depend on nothing but the number of
requests and the size of a burst, and the kicks saved are a difference that
does not underflow.  A queue that cannot hold a burst ends the configuration.
-/
import SystemsStudy.Burst
import SystemsStudy.Arena

namespace SystemsStudy

open Bytes Fallible

/-! ### The model -/

/-- `RUNG1_EXIT_NS`: what a kick is worth. -/
def rung1ExitNs : ℕ := 1610

/-- The counters of a configuration. -/
structure NotifyCounts where
  kicks : UInt64 := 0
  interrupts : UInt64 := 0
  submitted : UInt32 := 0

/-- The burst of one turn: the same two buffers `n` times. -/
def notifyBurst (chain : List Buffer) (n : UInt32) : Burst Unit where
  chains := List.replicate n.toNat chain
  work := fun w _ => ([0x79], w)
  state := ()

namespace System

/-- `while submitted < TOTAL`, for at most `turns` turns. -/
def bursts (fuel : ℕ) (chain : List Buffer) (total batch : UInt32) :
    ℕ → NotifyCounts → SystemM NotifyCounts
  | 0, c => if c.submitted < total then failure else return c
  | turns + 1, c =>
      if c.submitted < total then do
        let n := min batch (total - c.submitted)
        let r ← round fuel (notifyBurst chain n)
        bursts fuel chain total batch turns
          { kicks := c.kicks + UInt64.ofNat (r.kicks.count true)
            interrupts := c.interrupts + if r.interrupt then 1 else 0
            submitted := c.submitted + n }
      else return c

/-- One configuration of `bench_notification`, once its halves are made. -/
def notification (fuel turns : ℕ) (total batch : UInt32) : SystemM NotifyCounts := do
  let some payload ← onDriver (Driver.alloc [0x78]) | failure
  let some reply ← onDriver (Driver.allocUninit 8) | failure
  bursts fuel [⟨UInt64.ofNat payload, 1, false⟩, ⟨UInt64.ofNat reply, 8, true⟩] total batch turns {}

end System

/-- One configuration of `bench_notification`, from its fresh halves. -/
def notificationCounts (l : VirtqLayout) (mem : SharedMem) (fuel turns : ℕ)
    (total batch : UInt32) (eventIdx : Bool) : Option NotifyCounts := do
  let driver ← Driver.new l mem.len eventIdx
  let r ← System.notification fuel turns total batch (System.init mem driver eventIdx)
  return r.1

/-- A row of the table: the counts without and with `EVENT_IDX`. -/
def notificationRow (l : VirtqLayout) (mem : SharedMem) (fuel turns : ℕ) (total batch : UInt32) :
    Option (NotifyCounts × NotifyCounts) := do
  let off ← notificationCounts l mem fuel turns total batch false
  let on ← notificationCounts l mem fuel turns total batch true
  return (off, on)

theorem Driver.eventIdx_collected (d : Driver) (id : UInt16) :
    (d.collected id).eventIdx = d.eventIdx := by
  unfold collected
  split <;> rfl

variable {ω : Type} {l : VirtqLayout} {s : System} {q : Relay UInt16 UInt32} {n : ℕ}

/-! ### A round without thresholds -/

namespace Represents

theorem onDriver_addChain (h : Represents l s q) {bufs : List Buffer}
    (ho : (Op.addChain bufs).Admissible l) (hroom : bufs.length ≤ s.driver.freeDescs.length) :
    ∃ head s', System.onDriver (Driver.addChain bufs) s = some (head, s') ∧
      Represents l s' { q with requests := q.requests ++ [head] } ∧
      s'.device = s.device ∧ s'.driver.eventIdx = s.driver.eventIdx ∧
      s'.driver.freeDescs.length + bufs.length = s.driver.freeDescs.length := by
  obtain ⟨hne, hord, hclear⟩ := ho
  obtain ⟨head, rest, free, hlen, hfree, hadd⟩ := Driver.addChain_ok h.driverCovered hne hord
    (fun i hi => h.owned.lt_of_free hi) hroom
  rw [h.driverLayout] at hadd
  refine ⟨head, _, System.onDriver_ok hadd, h.publish hne hord hclear hlen hfree, rfl, rfl, ?_⟩
  show free.length + bufs.length = _
  rw [hfree, List.length_append, List.length_reverse, hlen]

theorem onDriver_armUsedEvent (h : Represents l s q) :
    ∃ s', System.onDriver Driver.armUsedEvent s = some ((), s') ∧ Represents l s' q ∧
      s'.driver = s.driver ∧ s'.device = s.device := by
  have harm := Driver.armUsedEvent_ok h.driverCovered
  rw [h.driverLayout] at harm
  exact ⟨_, System.onDriver_ok harm, h.armUsedEvent, rfl, rfl⟩

/-- Asking whether to kick changes nothing the queues depend on. -/
theorem onDriver_needsKick (h : Represents l s q) :
    ∃ b s', System.onDriver Driver.needsKick s = some (b, s') ∧ Represents l s' q ∧
      (s.driver.eventIdx = false → b = true) ∧ s'.device = s.device ∧
      s'.driver.eventIdx = s.driver.eventIdx ∧ s'.driver.freeDescs = s.driver.freeDescs := by
  refine ⟨_, _, System.onDriver_ok (Driver.needsKick_ok h.driverCovered), { h with }, ?_, rfl,
    rfl, rfl⟩
  intro hoff
  rw [hoff]
  rfl

/-- Without `EVENT_IDX` every chain is kicked for. -/
theorem submit_off (h : Represents l s q) (hoff : s.driver.eventIdx = false)
    {chains : List (List Buffer)} (hadm : ∀ bufs ∈ chains, (Op.addChain bufs).Admissible l)
    (hroom : (chains.map List.length).sum ≤ s.driver.freeDescs.length) :
    ∃ heads s', System.submit chains s = some (List.replicate chains.length true, s') ∧
      heads.length = chains.length ∧
      Represents l s' { q with requests := q.requests ++ heads } ∧
      s'.device = s.device ∧ s'.driver.eventIdx = false := by
  induction chains generalizing s q with
  | nil =>
      refine ⟨[], s, rfl, rfl, ?_, rfl, hoff⟩
      rw [List.append_nil]
      exact h
  | cons bufs chains ih =>
      rw [List.map_cons, List.sum_cons] at hroom
      obtain ⟨head, s₁, hadd, h₁, hdev₁, hidx₁, hfree₁⟩ :=
        h.onDriver_addChain (hadm bufs List.mem_cons_self) (by omega)
      obtain ⟨b, s₂, hkick, h₂, hb, hdev₂, hidx₂, hfree₂⟩ := h₁.onDriver_needsKick
      -- with EVENT_IDX off every chain is kicked for
      obtain rfl := hb (hidx₁.trans hoff)
      obtain ⟨heads, s₃, hrest, hlen, h₃, hdev₃, hidx₃⟩ :=
        ih h₂ (hidx₂.trans (hidx₁.trans hoff)) (fun b hb => hadm b (List.mem_cons_of_mem _ hb))
          (by rw [hfree₂]; omega)
      refine ⟨head :: heads, s₃, ?_, by rw [List.length_cons, hlen, List.length_cons], ?_,
        hdev₃.trans (hdev₂.trans hdev₁), hidx₃⟩
      · rw [System.submit, System.bind_some hadd, System.bind_some hkick, System.bind_some hrest]
        rfl
      · rwa [List.append_assoc, List.singleton_append] at h₃

/-- A burst that needs more descriptors than are free ends in a panic. -/
theorem submit_eq_none (h : Represents l s q) {chains : List (List Buffer)}
    (hadm : ∀ bufs ∈ chains, (Op.addChain bufs).Admissible l)
    (hroom : s.driver.freeDescs.length < (chains.map List.length).sum) :
    System.submit chains s = none := by
  induction chains generalizing s q with
  | nil => simp at hroom
  | cons bufs chains ih =>
      rw [List.map_cons, List.sum_cons] at hroom
      -- either this chain is the one the free list cannot hold, or a later one is
      rcases Nat.lt_or_ge s.driver.freeDescs.length bufs.length with hlt | hge
      · have hfull := Driver.addChain_outOfDescriptors (m := s.mem)
          (hadm bufs List.mem_cons_self).1 hlt
        have hnone : System.onDriver (Driver.addChain bufs) s = none := by
          simp only [System.onDriver, hfull]
        rw [System.submit]
        show (System.onDriver (Driver.addChain bufs) s).bind _ = none
        rw [hnone]
        rfl
      · obtain ⟨head, s₁, hadd, h₁, -, -, hfree₁⟩ :=
          h.onDriver_addChain (hadm bufs List.mem_cons_self) hge
        obtain ⟨b, s₂, hkick, h₂, -, -, -, hfree₂⟩ := h₁.onDriver_needsKick
        have hrest := ih h₂ (fun b hb => hadm b (List.mem_cons_of_mem _ hb))
          (by rw [hfree₂]; omega)
        rw [System.submit, System.bind_some hadd, System.bind_some hkick]
        show (System.submit chains s₂).bind _ = none
        rw [hrest]
        rfl

/-- The run of the device's loop, as the queues see it. -/
theorem iterations (h : Represents l s q) {work : Work ω} {p : Process ω}
    {cs : List (UInt16 × UInt32)} {t : Process ω × SharedMem} (hdev : p.dev = s.device)
    (hi : Process.Iterations work (p, s.mem) cs t) :
    ∃ rs cs', q.requests.length = cs.length + rs.length ∧ cs'.length = cs.length ∧
      t.1.dev.eventIdx = s.device.eventIdx ∧
      Represents l (s.withDevice (t.1.dev, t.2))
        { q with requests := rs, answers := q.answers ++ cs' } := by
  induction cs generalizing s q p with
  | nil =>
      cases hi
      refine ⟨q.requests, [], (Nat.zero_add _).symm, rfl, by rw [hdev], ?_⟩
      rw [List.append_nil, hdev]
      exact h
  | cons c cs ih =>
      rcases hi with - | ⟨hstep, hrest⟩
      rcases e : q.requests with - | ⟨a, rs⟩
      · -- the device pops only what is pending
        have hs : Process.Covered (p, s.mem) := by
          rw [Process.Covered, hdev]
          exact h.deviceCovered
        have hne := Process.pending_ne_zero_of_step hs hstep
        have hz := h.toNat_pending
        rw [e] at hz
        rw [hdev] at hne
        exact absurd (UInt16.toNat_inj.mp hz) hne
      · have hkeep := h.keeps_step e hdev hstep
        obtain ⟨rs', cs', hlen, hlen', hidx, h'⟩ :=
          ih (p := _) (h.step e hdev hstep).2 rfl hrest
        refine ⟨rs', (a, c.2) :: cs', ?_, by rw [List.length_cons, hlen', List.length_cons],
          hidx.trans hkeep.eventIdx, ?_⟩
        · have hlen : rs.length = cs.length + rs'.length := hlen
          rw [List.length_cons, List.length_cons]
          omega
        · rwa [List.append_assoc, List.singleton_append] at h'

/-- `process` drains the ring. -/
theorem process (h : Represents l s q) {fuel : ℕ} (hfuel : q.requests.length < fuel)
    (work : Work ω) (w : ω) :
    ∃ stats s' cs, System.process fuel work w s = some (stats, s') ∧
      stats.chains = UInt64.ofNat q.requests.length ∧ cs.length = q.requests.length ∧
      s'.driver = s.driver ∧
      s'.device.eventIdx = s.device.eventIdx ∧
      Represents l s' { q with requests := [], answers := q.answers ++ cs } := by
  have hs : Process.Covered (Process.start s.device w s.mem) := h.deviceCovered
  rcases Process.process_spec work fuel w hs with ⟨cs, t, hp, hi, -, hz⟩ | ⟨cs, t, -, hi, hlen⟩
  · obtain ⟨rs, cs', hlen, hlen', hidx, h'⟩ := h.iterations rfl hi
    have hpending := h'.toNat_pending
    have hz' : (s.withDevice (t.1.dev, t.2)).device.pending
        (s.withDevice (t.1.dev, t.2)).mem = 0 := hz
    rw [hz'] at hpending
    obtain rfl : rs = [] := List.length_eq_zero_iff.mp hpending.symm
    refine ⟨t.1.stats, s.withDevice (t.1.dev, t.2), cs', by simp only [System.process, hp], ?_,
      hlen'.trans hlen.symm, rfl, hidx, h'⟩
    rw [(hi.totals hs).chains, hlen]
    exact UInt64.zero_add _
  · obtain ⟨rs, cs', hlen', -⟩ := h.iterations rfl hi
    omega

end Represents

/-! ### A round in either mode -/

/-- Every chain takes a descriptor. -/
theorem Burst.Fits.length_le {b : Burst ω} (hb : b.Fits l) : b.chains.length ≤ l.qs := by
  refine le_trans ?_ hb.room
  have hsum := List.card_nsmul_le_sum (b.chains.map List.length) 1 fun k hk => ?_
  · simpa using hsum
  · obtain ⟨bufs, hbufs, rfl⟩ := List.mem_map.mp hk
    exact List.length_pos_iff.mpr (hb.admissible bufs hbufs).1

/-- Between two rounds, with or without `EVENT_IDX`. -/
structure Between (l : VirtqLayout) (s : System) (e : Bool) (n : ℕ) : Prop where
  represents : Represents l s { collected := n }
  driverEventIdx : s.driver.eventIdx = e
  deviceEventIdx : s.device.eventIdx = e
  quiet : e = true → Quiet l s n

namespace Between

variable {e : Bool} {b : Burst ω} {fuel : ℕ}

theorem freeDescs_length (h : Between l s e n) : s.driver.freeDescs.length = l.qs := by
  rw [(h.represents.freeDescs_perm rfl rfl).length_eq, VirtqLayout.length_indices]

/-- Without thresholds both sides always notify. -/
theorem round_off (h : Between l s false n) (hb : b.Fits l) (hfuel : l.qs < fuel) :
    ∃ r s', System.round fuel b s = some (r, s') ∧
      r.kicks = List.replicate b.chains.length true ∧ r.interrupt = true ∧
      Between l s' false (n + b.chains.length) := by
  -- the calls of a round in the order of the source
  obtain ⟨s₁, harm, h₁, hdriver₁, hdev₁⟩ := h.represents.onDriver_armUsedEvent
  have hfree : s₁.driver.freeDescs.length = l.qs := by
    rw [hdriver₁]
    exact h.freeDescs_length
  obtain ⟨heads, s₂, hsubmit, hheads, h₂, hdev₂, hidx₂⟩ :=
    h₁.submit_off (hdriver₁ ▸ h.driverEventIdx) hb.admissible (hfree ▸ hb.room)
  have hwaiting : heads.length < fuel := by
    rw [hheads]
    exact hb.length_le.trans_lt hfuel
  obtain ⟨stats, s₃, cs, hprocess, -, hcs, hdriver₃, hidx₃, h₃⟩ :=
    h₂.process hwaiting b.work b.state
  have hoff₃ : s₃.device.eventIdx = false := by
    rw [hidx₃, hdev₂, hdev₁]
    exact h.deviceEventIdx
  obtain ⟨s₄, hnotify, h₄, hdriver₄, hidx₄⟩ : ∃ s₄,
      System.onDevice Device.needsNotification s₃ = some (true, s₄) ∧
      Represents l s₄ { answers := cs, collected := n } ∧ s₄.driver = s₃.driver ∧
      s₄.device.eventIdx = false := by
    have hdecision := Device.needsNotification_ok h₃.deviceCovered
    rw [hoff₃, Bool.not_false, Bool.true_or] at hdecision
    exact ⟨_, System.onDevice_ok hdecision, { h₃ with }, rfl, rfl⟩
  obtain ⟨again, s₅, henable, h₅, hdriver₅, hidx₅⟩ : ∃ again s₅,
      System.onDevice Device.enableNotification s₄ = some (again, s₅) ∧
      Represents l s₅ { answers := cs, collected := n } ∧ s₅.driver = s₄.driver ∧
      s₅.device.eventIdx = false :=
    ⟨_, _, System.onDevice_ok (Device.enableNotification_ok h₄.deviceCovered), h₄.notifyOn, rfl,
      hidx₄⟩
  obtain ⟨d, hcollect, h₆⟩ := h₅.collectUsed
  have hidx : d.eventIdx = s₅.driver.eventIdx :=
    Driver.collectUsed_keeps (P := fun d' => d'.eventIdx = s₅.driver.eventIdx)
      (fun id hd => (Driver.eventIdx_collected _ id).trans hd) hcollect rfl
  refine ⟨⟨List.replicate b.chains.length true, stats.chains, true, again⟩,
    s₅.withDriver (d, s₅.mem), ?_, rfl, rfl, ?_⟩
  · rw [System.round, System.bind_some harm, System.bind_some hsubmit, System.bind_some hprocess,
      System.bind_some hnotify, System.bind_some henable,
      System.bind_some (System.onDriver_ok hcollect)]
    rfl
  · rw [show b.chains.length = cs.length from (hcs.trans hheads).symm]
    exact
      { represents := h₆
        driverEventIdx := by
          show d.eventIdx = false
          rw [hidx, hdriver₅, hdriver₄, hdriver₃, hidx₂]
        deviceEventIdx := hidx₅
        quiet := fun h => absurd h Bool.false_ne_true }

/-- A round kicks once with the thresholds and once per chain without. -/
theorem round (h : Between l s e n) (hb : b.Fits l) (hfuel : l.qs < fuel) :
    ∃ r s', System.round fuel b s = some (r, s') ∧
      r.kicks.count true = (if e then 1 else b.chains.length) ∧ r.interrupt = true ∧
      Between l s' e (n + b.chains.length) := by
  cases e with
  | false =>
      obtain ⟨r, s', hround, hkicks, hint, h'⟩ := h.round_off hb hfuel
      refine ⟨r, s', hround, ?_, hint, h'⟩
      rw [hkicks, List.count_replicate_self]
      rfl
  | true =>
      obtain ⟨s', hround, hquiet⟩ := (h.quiet rfl).round hb hfuel
      refine ⟨_, s', hround, ?_, rfl, hquiet.represents, hquiet.driverEventIdx,
        hquiet.deviceEventIdx, fun _ => hquiet⟩
      show (true :: List.replicate (b.chains.length - 1) false).count true = 1
      rw [List.count_cons_self, List.count_replicate]
      rfl

/-- A round whose burst has no room does not return. -/
theorem round_eq_none (h : Between l s e n) (fuel : ℕ)
    (hadm : ∀ bufs ∈ b.chains, (Op.addChain bufs).Admissible l)
    (hroom : l.qs < (b.chains.map List.length).sum) : System.round fuel b s = none := by
  obtain ⟨s₁, harm, h₁, hdriver₁, -⟩ := h.represents.onDriver_armUsedEvent
  have hnone := h₁.submit_eq_none hadm (by rw [hdriver₁, h.freeDescs_length]; exact hroom)
  rw [System.round, System.bind_some harm]
  show (System.submit b.chains s₁).bind _ = none
  rw [hnone]
  rfl

end Between

/-! ### A configuration -/

/-- How many turns it takes: the quotient, rounded up. -/
def turnsFor (total batch : ℕ) : ℕ := (total + batch - 1) / batch

/-- One turn takes a burst off. -/
theorem turnsFor_eq {total batch : ℕ} (hbatch : 0 < batch) (htotal : 0 < total) :
    turnsFor total batch = turnsFor (total - min batch total) batch + 1 := by
  rw [turnsFor, turnsFor]
  rcases Nat.le_total batch total with hle | hle
  · rw [min_eq_left hle, show total + batch - 1 = total - batch + batch - 1 + batch by omega,
      Nat.add_div_right _ hbatch]
  · rw [min_eq_right hle, show total + batch - 1 = total - 1 + batch by omega,
      Nat.add_div_right _ hbatch, Nat.sub_self, Nat.zero_add,
      Nat.div_eq_of_lt (show total - 1 < batch by omega),
      Nat.div_eq_of_lt (show batch - 1 < batch by omega)]

theorem turnsFor_le (total : ℕ) {batch : ℕ} (hbatch : 0 < batch) :
    turnsFor total batch ≤ total := by
  rw [turnsFor, Nat.div_le_iff_le_mul_add_pred hbatch]
  have := Nat.le_mul_of_pos_left total hbatch
  omega

/-- A burst of `k` chains of `chain.length` buffers. -/
theorem notifyBurst_room (chain : List Buffer) (k : UInt32) :
    ((notifyBurst chain k).chains.map List.length).sum = k.toNat * chain.length := by
  rw [notifyBurst, List.map_replicate, List.sum_replicate, smul_eq_mul]

theorem notifyBurst_fits {chain : List Buffer} (hchain : (Op.addChain chain).Admissible l)
    {k : UInt32} (hk : 0 < k.toNat) (hroom : k.toNat * chain.length ≤ l.qs) :
    (notifyBurst chain k).Fits l where
  nonempty h := by
    have hlen := congrArg List.length h
    rw [notifyBurst, List.length_replicate, List.length_nil] at hlen
    omega
  admissible bufs hbufs := by
    rw [List.eq_of_mem_replicate hbufs]
    exact hchain
  room := by
    rw [notifyBurst_room]
    exact hroom

theorem System.bursts_done {fuel : ℕ} {chain : List Buffer} {total batch : UInt32}
    {c : NotifyCounts} (h : ¬ c.submitted < total) (turns : ℕ) :
    System.bursts fuel chain total batch turns c s = some (c, s) := by
  cases turns with
  | zero => rw [System.bursts, if_neg h]; rfl
  | succ turns => rw [System.bursts, if_neg h]; rfl

theorem toNat_min (a b : UInt32) : (min a b).toNat = min a.toNat b.toNat := by
  show (if a ≤ b then a else b).toNat = _
  by_cases h : a ≤ b
  · rw [if_pos h, min_eq_left (UInt32.le_iff_toNat_le.mp h)]
  · have hle : b.toNat ≤ a.toNat := Nat.le_of_not_le fun hc => h (UInt32.le_iff_toNat_le.mpr hc)
    rw [if_neg h, min_eq_right hle]

theorem turnsFor_zero {batch : ℕ} (hbatch : 0 < batch) : turnsFor 0 batch = 0 := by
  rw [turnsFor, Nat.zero_add]
  exact Nat.div_eq_of_lt (by omega)

namespace Between

variable {e : Bool} {fuel : ℕ} {chain : List Buffer} {total batch : UInt32}

/-- The run lemma: the turns left are decided by what is left to submit. -/
theorem bursts (h : Between l s e n) (hchain : (Op.addChain chain).Admissible l)
    (hbatch : 0 < batch.toNat) (hfuel : l.qs < fuel) {c : NotifyCounts} {rem : ℕ}
    (hrem : c.submitted.toNat + rem = total.toNat)
    (hroom : min batch.toNat rem * chain.length ≤ l.qs) {turns : ℕ} (hturns : rem ≤ turns) :
    ∃ s', System.bursts fuel chain total batch turns c s = some
      ({ kicks := c.kicks + UInt64.ofNat (if e then turnsFor rem batch.toNat else rem)
         interrupts := c.interrupts + UInt64.ofNat (turnsFor rem batch.toNat)
         submitted := total }, s') := by
  induction turns generalizing s n c rem with
  | zero =>
      obtain rfl : rem = 0 := by omega
      obtain rfl : c.submitted = total := UInt32.toNat_inj.mp hrem
      refine ⟨s, ?_⟩
      rw [System.bursts_done (UInt32.lt_irrefl _), turnsFor_zero hbatch, ite_self]
      simp
  | succ turns ih =>
      -- the induction is on the turns left; `rem` is what is still to be submitted
      rcases Nat.eq_zero_or_pos rem with rfl | hpos
      · obtain rfl : c.submitted = total := UInt32.toNat_inj.mp hrem
        refine ⟨s, ?_⟩
        rw [System.bursts_done (UInt32.lt_irrefl _), turnsFor_zero hbatch, ite_self]
        simp
      have hlt : c.submitted < total := UInt32.lt_iff_toNat_lt.mpr (by omega)
      have hsub : (total - c.submitted).toNat = rem := by
        rw [UInt32.toNat_sub_of_le _ _ (UInt32.le_of_lt hlt)]
        omega
      set k := min batch (total - c.submitted) with hk
      have hkn : k.toNat = min batch.toNat rem := by rw [hk, toNat_min, hsub]
      have hadd : (c.submitted + k).toNat = c.submitted.toNat + k.toNat := by
        rw [UInt32.toNat_add, Nat.mod_eq_of_lt]
        have := total.toNat_lt
        omega
      obtain ⟨r, s₁, hround, hkicks, hint, h₁⟩ := h.round
        (b := notifyBurst chain k) (notifyBurst_fits hchain (by omega) (hkn ▸ hroom)) hfuel
      have hlen : (notifyBurst chain k).chains.length = k.toNat := List.length_replicate
      rw [hlen] at hkicks
      have hroom' : min batch.toNat (rem - k.toNat) * chain.length ≤ l.qs :=
        le_trans (Nat.mul_le_mul_right _ (by omega)) hroom
      obtain ⟨s', hrest⟩ := ih h₁
        (c := { kicks := c.kicks + UInt64.ofNat (r.kicks.count true)
                interrupts := c.interrupts + if r.interrupt then 1 else 0
                submitted := c.submitted + k })
        (show (c.submitted + k).toNat + (rem - k.toNat) = total.toNat by omega) hroom' (by omega)
      refine ⟨s', ?_⟩
      rw [System.bursts, if_pos hlt, ← hk, System.bind_some hround, hrest, hkicks, hint,
        turnsFor_eq hbatch hpos, ← hkn]
      -- one turn of kicks and the turns after it add up
      have hkick : UInt64.ofNat (if e then 1 else k.toNat) +
          UInt64.ofNat (if e then turnsFor (rem - k.toNat) batch.toNat else rem - k.toNat) =
          UInt64.ofNat (if e then turnsFor (rem - k.toNat) batch.toNat + 1 else rem) := by
        rw [← UInt64.ofNat_add]
        congr 1
        split <;> omega
      have hinterrupt : (1 : UInt64) + UInt64.ofNat (turnsFor (rem - k.toNat) batch.toNat) =
          UInt64.ofNat (turnsFor (rem - k.toNat) batch.toNat + 1) := by
        rw [UInt64.ofNat_add, UInt64.add_comm]
        rfl
      rw [← hkick, ← hinterrupt, ← UInt64.add_assoc, ← UInt64.add_assoc]
      rfl

/-- The first burst has no room: the configuration does not return. -/
theorem bursts_eq_none (h : Between l s e n) (hchain : (Op.addChain chain).Admissible l)
    (hbatch : 0 < batch.toNat) {c : NotifyCounts} (hc : c.submitted = 0)
    (hroom : l.qs < min batch.toNat total.toNat * chain.length) (turns : ℕ) :
    System.bursts fuel chain total batch turns c s = none := by
  have hk : (min batch (total - 0)).toNat = min batch.toNat total.toNat := by
    rw [toNat_min, UInt32.sub_zero]
  have hpos : 0 < min batch.toNat total.toNat := by
    rcases Nat.eq_zero_or_pos (min batch.toNat total.toNat) with hz | hpos
    · rw [hz, Nat.zero_mul] at hroom
      exact absurd hroom (Nat.not_lt_zero _)
    · exact hpos
  have hlt : c.submitted < total := by
    rw [hc, UInt32.lt_iff_toNat_lt, UInt32.toNat_zero]
    omega
  -- the first burst already asks for more descriptors than there are
  cases turns with
  | zero => rw [System.bursts, if_pos hlt]; rfl
  | succ turns =>
      have hnone := h.round_eq_none (b := notifyBurst chain (min batch (total - c.submitted)))
        fuel (fun bufs hbufs => by rw [List.eq_of_mem_replicate hbufs]; exact hchain)
        (by rw [notifyBurst_room, hc, hk]; exact hroom)
      rw [System.bursts, if_pos hlt]
      show (System.round fuel _ s).bind _ = none
      rw [hnone]
      rfl

theorem reserve (h : Between l s e n) {arena : ℕ} (hle : s.driver.arena ≤ arena) :
    Between l { s with driver := { s.driver with arena } } e n where
  represents := { h.represents with arena := h.represents.arena.trans hle }
  driverEventIdx := h.driverEventIdx
  deviceEventIdx := h.deviceEventIdx
  quiet he :=
    { h.quiet he with
      represents := { h.represents with arena := h.represents.arena.trans hle } }

/-- Filling a buffer behind the rings. -/
theorem fill (h : Between l s e n) {a : ℕ} (data : List UInt8) (ha : l.endAddr ≤ a) :
    Between l { s with mem := s.mem.put a data } e n where
  represents := h.represents.put (.inr ha)
  driverEventIdx := h.driverEventIdx
  deviceEventIdx := h.deviceEventIdx
  quiet he :=
    { h.quiet he with
      represents := h.represents.put (.inr ha)
      availEvent := by
        have hlay := l.bounds
        rw [← (h.quiet he).availEvent]
        exact (s.mem.sameOn_put (.inl (by omega))).word16_eq }

end Between

theorem between_init {m : SharedMem} {arenaEnd : ℕ} {e : Bool} {d : Driver}
    (hnew : Driver.new l arenaEnd e = some d) (hcov : l.Covered m)
    (havail : m.word16 l.availIdx = 0) (hused : m.word16 l.usedIdx = 0)
    (hevent : m.word16 l.availEvent = 0) : Between l (System.init m d e) e 0 where
  represents := represents_init hnew hcov havail hused
  driverEventIdx := by
    unfold Driver.new at hnew
    split at hnew
    · obtain ⟨arena, -, rfl⟩ := Option.map_eq_some_iff.mp hnew
      rfl
    · cases hnew
  deviceEventIdx := rfl
  quiet := by
    rintro rfl
    exact quiet_init hnew hcov havail hused hevent

/-- Making the two buffers of a configuration. -/
theorem notification_eq {fuel turns : ℕ} {total batch : UInt32} {e : Bool} {arenaEnd : ℕ}
    (h : Between l s e n) (hw : Driver.Within l arenaEnd (s.driver, s.mem))
    (hroom : s.driver.arena + 16 ≤ arenaEnd) :
    ∃ chain s', chain.length = 2 ∧ (Op.addChain chain).Admissible l ∧ Between l s' e n ∧
      System.notification fuel turns total batch s =
        System.bursts fuel chain total batch turns {} s' := by
  have hend : arenaEnd ≤ s.mem.len := hw.arenaEnd_le
  have hlen : s.mem.len < 2 ^ 63 := s.mem.len_lt
  have harena : l.endAddr ≤ s.driver.arena := hw.le_arena
  have halloc := Driver.alloc_eq hw [0x78]
  have hone : ([0x78] : List UInt8).length % 2 ^ 32 = 1 := rfl
  have hfit : s.driver.arena + ([0x78] : List UInt8).length ≤ s.mem.len := by
    rw [List.length_singleton]
    omega
  rw [hone, if_pos (by omega), if_pos hfit] at halloc
  -- the request takes one byte of the arena, rounded up to eight, and the reply the next eight
  have hlt := Driver.arena_reserved_lt (d := s.driver) 1
  have hle := Driver.le_arena_reserved (d := s.driver) 1
  set d₁ := s.driver.reserved 1 with hd₁
  set m₁ := s.mem.put s.driver.arena [0x78] with hm₁
  have h₁ : Between l { s with driver := d₁, mem := m₁ } e n :=
    (h.fill [0x78] harena).reserve (show s.driver.arena ≤ d₁.arena by omega)
  have hw₁ : Driver.Within l arenaEnd (d₁, m₁) := hw.reserved 1 (SharedMem.len_put _ _ _)
  have hreply := Driver.allocUninit_eq hw₁ 8
  have height : (8 : UInt32).toNat = 8 := rfl
  rw [height, if_pos (show d₁.arena + 8 ≤ arenaEnd by omega)] at hreply
  have h₂ : Between l { s with driver := d₁.reserved 8, mem := m₁ } e n :=
    h₁.reserve (show d₁.arena ≤ (d₁.reserved 8).arena from
      (Nat.le_add_right _ _).trans (Driver.le_arena_reserved 8))
  refine ⟨[⟨UInt64.ofNat s.driver.arena, 1, false⟩, ⟨UInt64.ofNat d₁.arena, 8, true⟩],
    { s with driver := d₁.reserved 8, mem := m₁ }, rfl, ⟨nofun, rfl, ?_⟩, h₂, ?_⟩
  · have haddr : ∀ {a : ℕ}, a ≤ arenaEnd → (UInt64.ofNat a).toNat = a := fun ha =>
      UInt64.toNat_ofNat_of_lt' (lt_of_le_of_lt (ha.trans hend) (hlen.trans (by decide)))
    simp only [List.forall_mem_cons, List.not_mem_nil, false_implies, implies_true, and_true]
    exact ⟨.inr (by rw [haddr (by omega)]; exact harena), .inr (by rw [haddr (by omega)]; omega)⟩
  · rw [System.notification, System.bind_some (System.onDriver_ok halloc)]
    show (System.onDriver (Driver.allocUninit 8) >>= _) _ = _
    rw [System.bind_some (System.onDriver_ok hreply)]
    rfl

/-! ### The table -/

section Table

variable {m : SharedMem} {fuel turns : ℕ} {total batch : UInt32}

/-- A configuration returns exactly when its queue holds a burst, and then with
these counts. -/
theorem notification_counts {e : Bool} {d : Driver} (hnew : Driver.new l m.len e = some d)
    (hcov : l.Covered m) (havail : m.word16 l.availIdx = 0) (hused : m.word16 l.usedIdx = 0)
    (hevent : m.word16 l.availEvent = 0) (harena : d.arena + 16 ≤ m.len)
    (hbatch : 0 < batch.toNat) (hfuel : l.qs < fuel) (hturns : total.toNat ≤ turns) :
    (2 * min batch.toNat total.toNat ≤ l.qs →
      ∃ s', System.notification fuel turns total batch (System.init m d e) = some
        ({ kicks := UInt64.ofNat (if e then turnsFor total.toNat batch.toNat else total.toNat)
           interrupts := UInt64.ofNat (turnsFor total.toNat batch.toNat)
           submitted := total }, s')) ∧
    (l.qs < 2 * min batch.toNat total.toNat →
      System.notification fuel turns total batch (System.init m d e) = none) := by
  obtain ⟨chain, s', hlen, hchain, h, heq⟩ := @notification_eq l _ _ fuel turns total batch _ _
    (between_init hnew hcov havail hused hevent) (Driver.within_of_new hnew le_rfl) harena
  rw [heq]
  constructor
  · intro hroom
    obtain ⟨s'', hrun⟩ := h.bursts hchain hbatch hfuel (c := {}) (Nat.zero_add _)
      (by rw [hlen]; omega) hturns
    refine ⟨s'', hrun.trans ?_⟩
    rw [UInt64.zero_add, UInt64.zero_add]
  · intro hroom
    exact h.bursts_eq_none hchain hbatch rfl (by rw [hlen]; omega) turns

theorem notificationCounts_eq {e : Bool} {d : Driver} (hnew : Driver.new l m.len e = some d) :
    notificationCounts l m fuel turns total batch e =
      (System.notification fuel turns total batch (System.init m d e)).map Prod.fst := by
  rw [notificationCounts, hnew, Option.map_eq_bind]
  rfl

/-- Over a region with room behind the rings the driver is made. -/
theorem Driver.exists_new {arenaEnd : ℕ} (hroom : alignUp l.endAddr 16 ≤ arenaEnd)
    (hend : arenaEnd < 2 ^ 63) (e : Bool) :
    ∃ d, Driver.new l arenaEnd e = some d ∧ d.arena = alignUp l.endAddr 16 := by
  have hle : l.endAddr ≤ alignUp l.endAddr 16 := le_alignUp (by decide)
  unfold Driver.new
  rw [if_pos (show l.endAddr < 2 ^ 64 by omega), nextMultipleOf,
    if_pos (show alignUp l.endAddr 16 < 2 ^ 64 by omega)]
  exact ⟨_, rfl, rfl⟩

/-- A zeroed region with room for two buffers: a row of the table exists exactly
if the queue holds a burst.  Then without `EVENT_IDX` every request is kicked
for, and with it every burst; interrupts come once per burst either way; and
neither the kicks saved nor what they are worth can wrap. -/
theorem kicks_saved_by_bursts (havail : m.word16 l.availIdx = 0)
    (hused : m.word16 l.usedIdx = 0) (hevent : m.word16 l.availEvent = 0)
    (hroom : alignUp l.endAddr 16 + 16 ≤ m.len) (hbatch : 0 < batch.toNat) (hfuel : l.qs < fuel)
    (hturns : total.toNat ≤ turns) :
    (2 * min batch.toNat total.toNat ≤ l.qs → ∃ off on,
      notificationRow l m fuel turns total batch = some (off, on) ∧
      off.kicks.toNat = total.toNat ∧
      on.kicks.toNat = (total.toNat + batch.toNat - 1) / batch.toNat ∧
      off.interrupts = on.interrupts ∧ on.interrupts = on.kicks ∧
      on.kicks ≤ off.kicks ∧ (off.kicks - on.kicks).toNat * rung1ExitNs < 2 ^ 64) ∧
    (l.qs < 2 * min batch.toNat total.toNat →
      notificationRow l m fuel turns total batch = none) := by
  have hcov : l.Covered m := by
    have hle : l.endAddr ≤ alignUp l.endAddr 16 := le_alignUp (by decide)
    show l.endAddr ≤ m.len
    omega
  -- the two configurations start alike, and the general count gives both columns
  have hconf : ∀ e, ∃ d, Driver.new l m.len e = some d ∧ _ := fun e => by
    obtain ⟨d, hnew, harena⟩ := @Driver.exists_new l m.len (by omega) m.len_lt e
    exact ⟨d, hnew, notification_counts hnew hcov havail hused hevent (by rw [harena]; exact hroom)
      hbatch hfuel hturns⟩
  obtain ⟨d, hnew, hfits, hnone⟩ := hconf false
  obtain ⟨d', hnew', hfits', -⟩ := hconf true
  constructor
  · intro hroom
    obtain ⟨s, hoff⟩ := hfits hroom
    obtain ⟨s', hon⟩ := hfits' hroom
    have htotal : total.toNat < 2 ^ 32 := total.toNat_lt
    have hle := turnsFor_le total.toNat hbatch
    have hcast : ∀ {k : ℕ}, k < 2 ^ 32 → (UInt64.ofNat k).toNat = k := fun hk =>
      UInt64.toNat_ofNat_of_lt' (hk.trans (by decide))
    -- no more bursts than chains, so the difference does not wrap
    have hkicks : UInt64.ofNat (turnsFor total.toNat batch.toNat) ≤ UInt64.ofNat total.toNat := by
      rw [UInt64.le_iff_toNat_le, hcast (by omega), hcast htotal]
      exact hle
    refine ⟨⟨UInt64.ofNat total.toNat, UInt64.ofNat (turnsFor total.toNat batch.toNat), total⟩,
      ⟨UInt64.ofNat (turnsFor total.toNat batch.toNat),
        UInt64.ofNat (turnsFor total.toNat batch.toNat), total⟩, ?_, hcast htotal,
      hcast (lt_of_le_of_lt hle htotal), rfl, rfl, hkicks, ?_⟩
    · rw [notificationRow, notificationCounts_eq hnew, notificationCounts_eq hnew', hoff, hon]
      rfl
    · show (UInt64.ofNat total.toNat - UInt64.ofNat _).toNat * 1610 < 2 ^ 64
      rw [UInt64.toNat_sub_of_le _ _ hkicks, hcast htotal]
      omega
  · intro hroom
    rw [notificationRow, notificationCounts_eq hnew, hnone hroom]
    rfl

/-- Five requests in bursts of two: two kicks of five are saved. -/
theorem kicks_saved_by_bursts_quadQueue :
    (∃ off on, notificationRow quadQueue (SharedMem.new 144 (by decide)) 5 5 5 2 = some (off, on) ∧
      off.kicks.toNat = 5 ∧ on.kicks.toNat = 3 ∧ off.interrupts = on.interrupts) ∧
    notificationRow quadQueue (SharedMem.new 144 (by decide)) 5 5 5 3 = none := by
  have hrow := fun batch hbatch => @kicks_saved_by_bursts quadQueue
    (SharedMem.new 144 (by decide)) 5 5 5 batch (by decide) (by decide) (by decide)
    (by decide +kernel) hbatch (by decide) (by decide)
  constructor
  · obtain ⟨off, on, hrow, hoff, hon, hints, -⟩ := (hrow 2 (by decide)).1 (by decide)
    exact ⟨off, on, hrow, hoff, hon, hints⟩
  · exact (hrow 3 (by decide)).2 (by decide)

end Table

end SystemsStudy
