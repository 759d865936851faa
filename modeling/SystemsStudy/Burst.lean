/-
SystemsStudy/Burst.lean

One kick and one interrupt for a burst of requests.

A `round` is the loop body of `bench_notification`: the driver arms its
threshold, publishes the chains of a burst and decides after each whether to
kick; the device drains the ring, decides once whether to interrupt, and
re-arms; the driver collects.

Between the rounds both counters stand at one position `n`, and so does the
device's threshold (`Quiet`).  Within a round the two thresholds stay at `n`,
where the batches of both sides began (`InRound`): the first chain crosses
`n + 1` and no later one does, and the batch of completions starts there.
Nothing but positions enters, so the rounds go on past every wrap.
-/
import SystemsStudy.Crossing
import SystemsStudy.Interrupt

namespace SystemsStudy

open Bytes Fallible

variable {ω α β : Type}

/-! ### The model -/

/-- A burst of requests, and the closure the device applies to them. -/
structure Burst (ω : Type) where
  chains : List (List Buffer)
  work : Work ω
  state : ω

/-- What the calls of a round return. -/
structure Round where
  /-- `needs_kick`, after each chain -/
  kicks : List Bool
  /-- `ProcessStats::chains` -/
  served : UInt64
  /-- `needs_notification` -/
  interrupt : Bool
  /-- `enable_notification` -/
  again : Bool
  deriving DecidableEq

/-- A sequence of calls that all have to succeed. -/
abbrev SystemM (α : Type) := StateT System Option α

namespace System

/-- A call of the driver; `none` where it fails. -/
def onDriver {ε : Type} (x : DriverM ε α) : SystemM α := fun s =>
  match x (s.driver, s.mem) with
  | .ok a t => some (a, s.withDriver t)
  | .error _ _ => none

/-- A call of the device; `none` where it fails. -/
def onDevice (x : DeviceM α) : SystemM α := fun s =>
  match x (s.device, s.mem) with
  | .ok a t => some (a, s.withDevice t)
  | .error _ _ => none

/-- `Device::process` with at most `fuel` iterations; `none` where it fails. -/
def process (fuel : ℕ) (work : Work ω) (w : ω) : SystemM ProcessStats := fun s =>
  match s.device.process fuel work w s.mem with
  | .ok stats t => some (stats, s.withDevice (t.1.dev, t.2))
  | .error _ _ => none

/-- Publish the chains of a burst; the decision is made per chain. -/
def submit : List (List Buffer) → SystemM (List Bool)
  | [] => return []
  | bufs :: rest => do
      let _ ← onDriver (Driver.addChain bufs)
      let kick ← onDriver Driver.needsKick
      let kicks ← submit rest
      return kick :: kicks

/-- The loop body of `bench_notification`: arm the threshold, publish the burst, serve it,
decide about the interrupt, enable notifications again, and collect. -/
def round (fuel : ℕ) (b : Burst ω) : SystemM Round := do
  onDriver Driver.armUsedEvent
  let kicks ← submit b.chains
  let stats ← process fuel b.work b.state
  let interrupt ← onDevice Device.needsNotification
  let again ← onDevice Device.enableNotification
  let _ ← onDriver Driver.collectUsed
  return { kicks, served := stats.chains, interrupt, again }

/-- One round for each burst. -/
def rounds (fuel : ℕ) : List (Burst ω) → SystemM (List Round)
  | [] => return []
  | b :: rest => do
      let r ← round fuel b
      let rs ← rounds fuel rest
      return r :: rs

variable {s s' : System}

theorem bind_some {x : SystemM α} {f : α → SystemM β} {a : α} (h : x s = some (a, s')) :
    (x >>= f) s = f a s' := by
  show (x s).bind _ = _
  rw [h]
  rfl

theorem onDriver_ok {ε : Type} {x : DriverM ε α} {a : α} {t : Driver × SharedMem}
    (h : x (s.driver, s.mem) = .ok a t) : onDriver x s = some (a, s.withDriver t) := by
  simp only [onDriver, h]

theorem onDevice_ok {x : DeviceM α} {a : α} {t : Device × SharedMem}
    (h : x (s.device, s.mem) = .ok a t) : onDevice x s = some (a, s.withDevice t) := by
  simp only [onDevice, h]

end System

/-- A burst that fits: it is not empty, its chains are admissible, and together
they need no more descriptors than there are. -/
structure Burst.Fits (b : Burst ω) (l : VirtqLayout) : Prop where
  nonempty : b.chains ≠ []
  admissible : ∀ bufs ∈ b.chains, (Op.addChain bufs).Admissible l
  room : (b.chains.map List.length).sum ≤ l.qs

/-! ### The two thresholds -/

/-- Counting on from the threshold, only the first increment crosses it. -/
theorem needEvent_succ_iff (n : ℕ) {k : ℕ} (hk : k < 2 ^ 16) :
    needEvent (UInt16.ofNat n) (UInt16.ofNat (n + k + 1)) (UInt16.ofNat (n + k)) = true ↔
      k = 0 := by
  have hone : (UInt16.ofNat (n + k + 1) - UInt16.ofNat (n + k)).toNat = 1 := by
    rw [Rolling.toNat_ofNat_sub (Nat.le_succ _) (by omega)]
    omega
  rw [needEvent_iff, UInt16.lt_iff_toNat_lt, hone, Nat.lt_one_iff]
  constructor
  · intro hz
    have hsub : UInt16.ofNat n - UInt16.ofNat (n + k) = 0 := UInt16.toNat_inj.mp hz
    have heq : UInt16.ofNat (n + k) = UInt16.ofNat n := by grind
    have := (Rolling.ofNat_inj (Nat.le_add_right n k) (by omega)).mp heq
    omega
  · rintro rfl
    rw [Nat.add_zero, UInt16.sub_self]
    rfl

/-- Between two rounds: everything published is collected, and the device waits
for the next chain. -/
structure Quiet (l : VirtqLayout) (s : System) (n : ℕ) : Prop where
  represents : Represents l s { collected := n }
  driverEventIdx : s.driver.eventIdx = true
  deviceEventIdx : s.device.eventIdx = true
  lastKick : s.driver.lastKick = UInt16.ofNat n
  availEvent : s.mem.word16 l.availEvent = UInt16.ofNat n
  numAdded : s.device.numAdded = 0

/-- In a round that began at position `n`: both thresholds and the lower end of
the device's batch are there. -/
structure InRound (l : VirtqLayout) (s : System) (q : Relay UInt16 UInt32) (n : ℕ) : Prop where
  represents : Represents l s q
  driverEventIdx : s.driver.eventIdx = true
  deviceEventIdx : s.device.eventIdx = true
  availEvent : s.mem.word16 l.availEvent = UInt16.ofNat n
  usedEvent : s.mem.word16 l.usedEvent = UInt16.ofNat n
  batch : s.device.nextUsed - s.device.numAdded = UInt16.ofNat n

variable {l : VirtqLayout} {s : System} {q : Relay UInt16 UInt32} {n : ℕ}

namespace Quiet

/-- All descriptors are free. -/
theorem freeDescs_perm (h : Quiet l s n) : s.driver.freeDescs.Perm l.indices :=
  h.represents.freeDescs_perm rfl rfl

theorem arm (h : Quiet l s n) :
    ∃ s', System.onDriver Driver.armUsedEvent s = some ((), s') ∧ s'.driver = s.driver ∧
      InRound l s' { collected := n } n := by
  have hrep := h.represents
  have hlay := l.bounds
  refine ⟨_, System.onDriver_ok (Driver.armUsedEvent_ok hrep.driverCovered), rfl, ?_⟩
  rw [hrep.driverLayout]
  exact
    { represents := hrep.armUsedEvent
      driverEventIdx := h.driverEventIdx
      deviceEventIdx := h.deviceEventIdx
      availEvent := by
        rw [← h.availEvent]
        exact (s.mem.sameOn_put (.inr (by rw [length_toLe]; omega))).word16_eq
      usedEvent := by
        show (s.mem.put l.usedEvent (toLe 2 s.driver.lastUsed.toNat)).word16 l.usedEvent = _
        rw [SharedMem.word16_put_self _ _ hrep.covered.usedEvent]
        exact hrep.lastUsed
      batch := by
        show s.device.nextUsed - s.device.numAdded = _
        rw [h.numAdded, UInt16.sub_zero]
        exact hrep.nextUsed }

end Quiet

namespace InRound

/-! ### Submitting -/

/-- Publishing a chain leaves both thresholds. -/
theorem sameOn_publish (h : Represents l s q) {bufs : List Buffer} {head : UInt16}
    {rest free : List UInt16} (hlen : (head :: rest).length = bufs.length)
    (hfree : s.driver.freeDescs = free ++ (head :: rest).reverse) :
    SharedMem.SameOn (Driver.putChain l s.mem s.driver.availIdx head
      (chainEntries (head :: rest) bufs)) s.mem l.usedEvent l.endAddr := by
  have hlay := l.bounds
  have hslot := VirtqLayout.availSlot_add_le (l := l) s.driver.availIdx
  refine Driver.sameOn_putChain (fun e he => ?_) (.inr (by omega)) (.inr (by omega))
  have hlt := h.owned.lt_of_free (mem_of_popped hfree (fst_mem_chainEntries hlen he))
  rw [h.driverLayout] at hlt
  rw [VirtqLayout.descAddr]
  exact .inr (by omega)

theorem publish (h : InRound l s q n) {bufs : List Buffer} (ho : (Op.addChain bufs).Admissible l)
    (hroom : bufs.length ≤ s.driver.freeDescs.length) :
    ∃ head s', System.onDriver (Driver.addChain bufs) s = some (head, s') ∧
      InRound l s' { q with requests := q.requests ++ [head] } n ∧
      s'.driver.lastKick = s.driver.lastKick ∧
      s'.driver.freeDescs.length + bufs.length = s.driver.freeDescs.length := by
  obtain ⟨hne, hord, hclear⟩ := ho
  have hrep := h.represents
  have hlay := l.bounds
  obtain ⟨head, rest, free, hlen, hfree, hadd⟩ := Driver.addChain_ok hrep.driverCovered hne hord
    (fun i hi => hrep.owned.lt_of_free hi) hroom
  have hsame := sameOn_publish hrep hlen hfree
  rw [hrep.driverLayout] at hadd
  refine ⟨head, _, System.onDriver_ok hadd, ?_, rfl, ?_⟩
  · exact
      { h with
        represents := hrep.publish hne hord hclear hlen hfree
        availEvent := (hsame.mono (by omega) (by omega)).word16_eq.trans h.availEvent
        usedEvent := (hsame.mono (by omega) (by omega)).word16_eq.trans h.usedEvent }
  · show free.length + bufs.length = _
    rw [hfree, List.length_append, List.length_reverse, hlen]

/-- After the `k`-th further chain the driver kicks exactly if it is the first. -/
theorem ask (h : InRound l s q n) {k : ℕ} (hk : k < 2 ^ 16) (htotal : q.total = n + k + 1)
    (hlast : s.driver.lastKick = UInt16.ofNat (n + k)) :
    ∃ s', System.onDriver Driver.needsKick s = some (k == 0, s') ∧ InRound l s' q n ∧
      s'.driver.lastKick = UInt16.ofNat q.total ∧
      s'.driver.freeDescs = s.driver.freeDescs := by
  have hrep := h.represents
  have hdecision : (!s.driver.eventIdx || needEvent (s.mem.word16 s.driver.layout.availEvent)
      s.driver.availIdx s.driver.lastKick) = (k == 0) := by
    rw [h.driverEventIdx, Bool.not_true, Bool.false_or, hrep.driverLayout, h.availEvent,
      hrep.availIdx, htotal, hlast, Bool.eq_iff_iff, beq_iff_eq, needEvent_succ_iff n hk]
  have hkick := Driver.needsKick_ok hrep.driverCovered
  rw [hdecision] at hkick
  exact ⟨_, System.onDriver_ok hkick, { h with represents := { hrep with } }, hrep.availIdx, rfl⟩

/-- The run of a burst, from its `k`-th chain on. -/
theorem submit (h : InRound l s q n) {k : ℕ} {chains : List (List Buffer)}
    (hadm : ∀ bufs ∈ chains, (Op.addChain bufs).Admissible l)
    (hroom : (chains.map List.length).sum ≤ s.driver.freeDescs.length)
    (htotal : q.total = n + k) (hlast : s.driver.lastKick = UInt16.ofNat q.total)
    (hk : k + chains.length < 2 ^ 16) :
    ∃ heads s', System.submit chains s =
        some ((List.range' k chains.length).map (· == 0), s') ∧
      heads.length = chains.length ∧
      InRound l s' { q with requests := q.requests ++ heads } n ∧
      s'.driver.lastKick = UInt16.ofNat (n + k + chains.length) := by
  induction chains generalizing s q k with
  | nil =>
      refine ⟨[], s, rfl, rfl, ?_, ?_⟩
      · rw [List.append_nil]
        exact h
      · rw [hlast, htotal]
        rfl
  | cons bufs chains ih =>
      rw [List.map_cons, List.sum_cons] at hroom
      rw [List.length_cons] at hk
      -- the chain takes its descriptors, the decision takes none
      obtain ⟨head, s₁, hadd, h₁, hlast₁, hfree₁⟩ :=
        h.publish (hadm bufs List.mem_cons_self) (by omega)
      have htotal₁ : ({ q with requests := q.requests ++ [head] } : Relay UInt16 UInt32).total =
          n + k + 1 := by
        rw [← htotal, Relay.total, Relay.total, List.length_append, ← Nat.add_assoc]
        rfl
      obtain ⟨s₂, hkick, h₂, hlast₂, hfree₂⟩ :=
        h₁.ask (by omega) htotal₁ (by rw [hlast₁, hlast, htotal])
      -- the rest of the burst goes on at the `k + 1`-st position
      obtain ⟨heads, s₃, hrest, hlen, h₃, hlast₃⟩ :=
        ih (k := k + 1) h₂ (fun b hb => hadm b (List.mem_cons_of_mem _ hb)) (by rw [hfree₂]; omega)
          htotal₁ hlast₂ (by omega)
      refine ⟨head :: heads, s₃, ?_, by rw [List.length_cons, hlen, List.length_cons], ?_, ?_⟩
      · rw [System.submit, System.bind_some hadd, System.bind_some hkick, System.bind_some hrest]
        rfl
      · rwa [List.append_assoc, List.singleton_append] at h₃
      · rw [hlast₃, List.length_cons, ← Nat.add_assoc n, Nat.add_assoc (n + k), Nat.add_comm 1]

/-! ### Serving -/

/-- An iteration of the device moves the upper end of its batch only. -/
theorem step (h : InRound l s q n) {work : Work ω} {p : Process ω} {c : UInt16 × UInt32}
    {t : Process ω × SharedMem} (hdev : p.dev = s.device)
    (hstep : Process.step work (p, s.mem) = .ok (some c) t) :
    ∃ a rs, q.requests = a :: rs ∧ InRound l (s.withDevice (t.1.dev, t.2))
      { q with requests := rs, answers := q.answers ++ [(a, c.2)] } n := by
  have hrep := h.represents
  rcases e : q.requests with - | ⟨a, rs⟩
  · -- the device pops only what is pending
    have hs : Process.Covered (p, s.mem) := by
      rw [Process.Covered, hdev]
      exact hrep.deviceCovered
    have hne := Process.pending_ne_zero_of_step hs hstep
    have hz := hrep.toNat_pending
    rw [e] at hz
    rw [hdev] at hne
    exact absurd (UInt16.toNat_inj.mp hz) hne
  · have hkeep := hrep.keeps_step e hdev hstep
    have hlay := l.bounds
    have hslot := VirtqLayout.usedBase_add_le (l := l) s.device.nextUsed
    have hsame : SharedMem.SameOn t.2 s.mem l.availEvent (l.availEvent + 2) := fun i hlo hhi =>
      hrep.step_frame e hdev hstep (by omega) (by omega) (by omega) (by omega)
    exact ⟨a, rs, rfl,
      { represents := (hrep.step e hdev hstep).2
        driverEventIdx := h.driverEventIdx
        deviceEventIdx := hkeep.eventIdx.trans h.deviceEventIdx
        availEvent := hsame.word16_eq.trans h.availEvent
        usedEvent := hkeep.threshold.trans h.usedEvent
        batch := by
          rw [hkeep.nextUsed, hkeep.numAdded, ← h.batch]
          grind }⟩

theorem iterations (h : InRound l s q n) {work : Work ω} {p : Process ω}
    {cs : List (UInt16 × UInt32)} {t : Process ω × SharedMem} (hdev : p.dev = s.device)
    (hi : Process.Iterations work (p, s.mem) cs t) :
    ∃ rs cs', q.requests.length = cs.length + rs.length ∧ cs'.length = cs.length ∧
      InRound l (s.withDevice (t.1.dev, t.2))
        { q with requests := rs, answers := q.answers ++ cs' } n := by
  induction cs generalizing s q p with
  | nil =>
      cases hi
      refine ⟨q.requests, [], (Nat.zero_add _).symm, rfl, ?_⟩
      rw [List.append_nil, hdev]
      exact h
  | cons c cs ih =>
      rcases hi with - | ⟨hstep, hrest⟩
      obtain ⟨a, rs, hq, h₁⟩ := h.step hdev hstep
      obtain ⟨rs', cs', hlen, hlen', h₂⟩ := ih (p := _) h₁ rfl hrest
      refine ⟨rs', (a, c.2) :: cs', ?_, by rw [List.length_cons, hlen', List.length_cons], ?_⟩
      · rw [hq, List.length_cons, List.length_cons]
        have hlen : rs.length = cs.length + rs'.length := hlen
        omega
      · rwa [List.append_assoc, List.singleton_append] at h₂

/-- `process` drains the ring. -/
theorem process (h : InRound l s q n) {fuel : ℕ} (hfuel : q.requests.length < fuel)
    (work : Work ω) (w : ω) :
    ∃ stats s' cs, System.process fuel work w s = some (stats, s') ∧
      stats.chains = UInt64.ofNat q.requests.length ∧ cs.length = q.requests.length ∧
      s'.driver = s.driver ∧
      InRound l s' { q with requests := [], answers := q.answers ++ cs } n := by
  have hs : Process.Covered (Process.start s.device w s.mem) := h.represents.deviceCovered
  rcases Process.process_spec work fuel w hs with ⟨cs, t, hp, hi, -, hz⟩ | ⟨cs, t, -, hi, hlen⟩
  · obtain ⟨rs, cs', hlen, hlen', h'⟩ := h.iterations rfl hi
    -- nothing is pending any more, so nothing is left of the requests
    have hpending := h'.represents.toNat_pending
    have hz' : (s.withDevice (t.1.dev, t.2)).device.pending
        (s.withDevice (t.1.dev, t.2)).mem = 0 := hz
    rw [hz'] at hpending
    obtain rfl : rs = [] := List.length_eq_zero_iff.mp hpending.symm
    have hchains := (hi.totals hs).chains
    refine ⟨t.1.stats, s.withDevice (t.1.dev, t.2), cs', by simp only [System.process, hp], ?_,
      hlen'.trans hlen.symm, rfl, h'⟩
    rw [hchains, hlen]
    exact UInt64.zero_add _
  · obtain ⟨rs, cs', hlen', -⟩ := h.iterations rfl hi
    omega

/-! ### The end of a round -/

/-- The threshold was armed at the position where the round began, and the batch
of the device spans it. -/
theorem crosses_usedEvent {cs : List (UInt16 × UInt32)}
    (h : InRound l s { answers := cs, collected := n } n) (hcs : cs ≠ []) :
    (!s.device.eventIdx || needEvent (s.mem.word16 s.device.layout.usedEvent)
      s.device.nextUsed (s.device.nextUsed - s.device.numAdded)) = true := by
  have hpos : 0 < cs.length := List.length_pos_iff.mpr hcs
  have hbound := h.represents.length_le
  have hqs := l.qs_le
  simp only [List.length_nil, Nat.add_zero] at hbound
  rw [h.deviceEventIdx, Bool.not_true, Bool.false_or, h.represents.deviceLayout, h.usedEvent,
    h.batch, h.represents.nextUsed, needEvent_iff]
  apply Rolling.ofNat_sub_lt le_rfl
  · show n < n + cs.length
    omega
  · show n + cs.length - n < 2 ^ 16
    omega

/-- The device announces its batch once, finds nothing more, and the driver
takes the completions: the next position is where both stand. -/
theorem finish {cs : List (UInt16 × UInt32)}
    (h : InRound l s { answers := cs, collected := n } n) (hcs : cs ≠ [])
    (hlast : s.driver.lastKick = UInt16.ofNat (n + cs.length)) :
    ∃ s₁ s₂ s₃, System.onDevice Device.needsNotification s = some (true, s₁) ∧
      System.onDevice Device.enableNotification s₁ = some (false, s₂) ∧
      System.onDriver Driver.collectUsed s₂ = some (cs, s₃) ∧
      Quiet l s₃ (n + cs.length) := by
  have hrep := h.represents
  have hnotify := Device.needsNotification_ok hrep.deviceCovered
  rw [h.crosses_usedEvent hcs] at hnotify
  have hrep₁ : Represents l { s with device := { s.device with numAdded := 0 } }
      { answers := cs, collected := n } := { hrep with }
  have henable := Device.enableNotification_ok hrep₁.deviceCovered
  have hrep₂ := hrep₁.notifyOn
  -- the ring was drained, and the store of the threshold does not meet its index
  have hz : Device.pending { s.device with numAdded := 0 }
      (Device.notifyOn { s.device with numAdded := 0 } s.mem) = 0 :=
    UInt16.toNat_inj.mp hrep₂.toNat_pending
  rw [hz] at henable
  obtain ⟨d, hcollect, hrep₃⟩ := hrep₂.collectUsed
  -- collecting leaves the driver's side of the notifications alone
  have hcounts : Driver.Counts l s.driver (n + cs.length) (n + cs.length) :=
    { layout := hrep.driverLayout, eventIdx := h.driverEventIdx, owned := hrep.owned
      availIdx := hrep.availIdx, lastKick := hlast, le := le_rfl }
  have hcounts' := hcounts.collectUsed (m := Device.notifyOn { s.device with numAdded := 0 } s.mem)
  rw [hcollect] at hcounts'
  refine ⟨_, _, _, System.onDevice_ok hnotify, System.onDevice_ok henable,
    System.onDriver_ok hcollect, ?_⟩
  exact
    { represents := hrep₃
      driverEventIdx := hcounts'.eventIdx
      deviceEventIdx := h.deviceEventIdx
      lastKick := hcounts'.lastKick
      availEvent := by
        show (Device.notifyOn { s.device with numAdded := 0 } s.mem).word16 l.availEvent = _
        rw [Device.notifyOn, if_pos h.deviceEventIdx, hrep.deviceLayout,
          SharedMem.word16_put_self _ _ hrep.covered.availEvent]
        exact hrep.nextAvail
      numAdded := rfl }

end InRound

/-! ### Any number of rounds -/

/-- What a round is to return for a burst. -/
def Burst.expected (b : Burst ω) : Round where
  kicks := true :: List.replicate (b.chains.length - 1) false
  served := UInt64.ofNat b.chains.length
  interrupt := true
  again := false

/-- The decisions of a burst: only the first chain is kicked for. -/
theorem map_range'_eq {k : ℕ} (hk : k ≠ 0) :
    (List.range' 0 k).map (· == 0) = true :: List.replicate (k - 1) false := by
  obtain ⟨k, rfl⟩ := Nat.exists_eq_succ_of_ne_zero hk
  rw [List.range'_succ, List.map_cons, Nat.succ_sub_one, List.map_eq_replicate_iff.mpr]
  · rw [List.length_range']
    rfl
  · intro i hi
    have := List.mem_range'_1.mp hi
    exact beq_eq_false_iff_ne.mpr (by omega)

namespace Quiet

/-- The step lemma: a round moves from one position to a later one. -/
theorem round (h : Quiet l s n) {b : Burst ω} (hb : b.Fits l) {fuel : ℕ} (hfuel : l.qs < fuel) :
    ∃ s', System.round fuel b s = some (b.expected, s') ∧ Quiet l s' (n + b.chains.length) := by
  have hqs := l.qs_le
  obtain ⟨s₁, harm, hdriver, h₁⟩ := h.arm
  have hfree : s₁.driver.freeDescs.length = l.qs := by
    rw [hdriver, h.freeDescs_perm.length_eq, VirtqLayout.length_indices]
  -- every chain takes a descriptor
  have hle : b.chains.length ≤ l.qs := by
    refine le_trans ?_ hb.room
    have := List.card_nsmul_le_sum (b.chains.map List.length) 1 fun k hk => ?_
    · simpa using this
    · obtain ⟨bufs, hbufs, rfl⟩ := List.mem_map.mp hk
      exact List.length_pos_iff.mpr (hb.admissible bufs hbufs).1
  obtain ⟨heads, s₂, hsubmit, hheads, h₂, hlast⟩ := h₁.submit (k := 0) hb.admissible
    (hfree ▸ hb.room) rfl (by rw [hdriver]; exact h.lastKick) (by omega)
  have hwaiting : heads.length < fuel := by omega
  obtain ⟨stats, s₃, cs, hprocess, hchains, hcs, hdriver₃, h₃⟩ :=
    h₂.process hwaiting b.work b.state
  have hcs' : cs.length = b.chains.length := hcs.trans hheads
  have hne : b.chains.length ≠ 0 := fun hz => hb.nonempty (List.length_eq_zero_iff.mp hz)
  have h₃' : InRound l s₃ { answers := cs, collected := n } n := h₃
  obtain ⟨s₄, s₅, s₆, hnotify, henable, hcollect, h₆⟩ := h₃'.finish
    (List.length_pos_iff.mp (by omega)) (by rw [hdriver₃, hlast, hcs']; rfl)
  refine ⟨s₆, ?_, hcs' ▸ h₆⟩
  rw [System.round, System.bind_some harm, System.bind_some hsubmit, System.bind_some hprocess,
    System.bind_some hnotify, System.bind_some henable, System.bind_some hcollect,
    map_range'_eq hne, hchains]
  show some (_, s₆) = some (_, s₆)
  rw [Burst.expected, ← hheads]
  rfl

/-- The run lemma. -/
theorem rounds (h : Quiet l s n) {bursts : List (Burst ω)} (hb : ∀ b ∈ bursts, b.Fits l)
    {fuel : ℕ} (hfuel : l.qs < fuel) :
    ∃ s' n', System.rounds fuel bursts s = some (bursts.map Burst.expected, s') ∧
      Quiet l s' n' := by
  induction bursts generalizing s n with
  | nil => exact ⟨s, n, rfl, h⟩
  | cons b bursts ih =>
      obtain ⟨s₁, hround, h₁⟩ := h.round (hb b List.mem_cons_self) hfuel
      obtain ⟨s', n', hrest, h'⟩ := ih h₁ fun b' hb' => hb b' (List.mem_cons_of_mem _ hb')
      refine ⟨s', n', ?_, h'⟩
      rw [System.rounds, System.bind_some hround, System.bind_some hrest]
      rfl

end Quiet

section Runs

variable {m : SharedMem} {arenaEnd : ℕ} {d : Driver}

theorem quiet_init (hnew : Driver.new l arenaEnd true = some d) (hcov : l.Covered m)
    (havail : m.word16 l.availIdx = 0) (hused : m.word16 l.usedIdx = 0)
    (hevent : m.word16 l.availEvent = 0) : Quiet l (System.init m d true) 0 := by
  have hcounts := Driver.Counts.new hnew
  exact
    { represents := represents_init hnew hcov havail hused
      driverEventIdx := hcounts.eventIdx
      deviceEventIdx := rfl
      lastKick := hcounts.lastKick
      availEvent := hevent
      numAdded := rfl }

/-- Fresh halves that negotiated `EVENT_IDX`, over a region whose rings are
zero: in each of any number of rounds the driver kicks for the first chain of
the burst and for no other, the device serves the whole burst, interrupts once
and finds nothing more; afterwards all descriptors are free again. -/
theorem one_kick_and_interrupt_per_burst (hnew : Driver.new l arenaEnd true = some d)
    (hcov : l.Covered m) (havail : m.word16 l.availIdx = 0) (hused : m.word16 l.usedIdx = 0)
    (hevent : m.word16 l.availEvent = 0) {bursts : List (Burst ω)}
    (hb : ∀ b ∈ bursts, b.Fits l) {fuel : ℕ} (hfuel : l.qs < fuel) :
    ∃ rs s, System.rounds fuel bursts (System.init m d true) = some (rs, s) ∧
      rs = bursts.map (fun b =>
        { kicks := true :: List.replicate (b.chains.length - 1) false
          served := UInt64.ofNat b.chains.length
          interrupt := true
          again := false }) ∧
      s.driver.freeDescs.Perm ((List.range l.qs).map UInt16.ofNat) := by
  obtain ⟨s, n, hrounds, h⟩ :=
    (quiet_init hnew hcov havail hused hevent).rounds hb hfuel
  exact ⟨_, s, hrounds, rfl, h.freeDescs_perm⟩

/-- Two requests of one byte each, behind the queue with two descriptors. -/
def twoRequests : Burst UInt8 where
  chains := [[⟨80, 1, true⟩], [⟨81, 1, true⟩]]
  work := fun n _ => ([n], n + 1)
  state := 7

/-- The second kick of each burst is suppressed. -/
theorem one_kick_and_interrupt_per_burst_pairQueue :
    ∃ rs s, System.rounds 3 [twoRequests, twoRequests] (System.init emptyRegion pairDriver true) =
        some (rs, s) ∧
      rs = [⟨[true, false], 2, true, false⟩, ⟨[true, false], 2, true, false⟩] ∧
      s.driver.freeDescs.Perm [0, 1] := by
  have hfits : twoRequests.Fits pairQueue :=
    { nonempty := by decide
      admissible := by
        simp only [twoRequests, List.forall_mem_cons, Op.Admissible, List.not_mem_nil,
          false_implies, implies_true, and_true]
        exact ⟨⟨by decide, by decide, .inr (by decide)⟩, by decide, by decide, .inr (by decide)⟩
      room := by decide }
  exact one_kick_and_interrupt_per_burst new_pairQueue (by decide) (by decide) (by decide)
    (by decide) (by simp [hfits]) (by decide)

end Runs

end SystemsStudy
