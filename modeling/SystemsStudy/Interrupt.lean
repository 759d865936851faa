/-
SystemsStudy/Interrupt.lean

Arming the interrupt threshold.

`armUsedEvent` stores `lastUsed`, "interrupt me when one more completion
arrives", and does not look at `used.idx` afterwards.  The device decides once
for a batch, from `nextUsed - numAdded` to `nextUsed`.  Between the arm and the
decision only the upper end of the batch moves (`Keeps`), so the threshold is in
time exactly if it lies above the lower end: the device has not yet decided
about any completion the driver has not collected.

`armed_interrupts_iff` says so for every reachable state and every
continuation.  `late_arm_gets_no_interrupt` is a run on the wrong side.
-/
import SystemsStudy.Exchange

namespace SystemsStudy

open Bytes Fallible

/-! ### The model -/

/-- What `needsNotification` answers. -/
def System.notifies (s : System) : Bool :=
  match Device.needsNotification (s.device, s.mem) with
  | .ok b _ => b
  | .error _ _ => false

/-- The call neither moves the threshold nor decides about a batch. -/
def Op.LeavesThreshold : Op → Prop
  | .needsNotification => False
  | .armUsedEvent => False
  | _ => True

/-- From `s` to `s'` the device has published `n` completions into the current
batch, and the threshold is the same. -/
structure Keeps (l : VirtqLayout) (s : System) (n : ℕ) (s' : System) : Prop where
  threshold : s'.mem.word16 l.usedEvent = s.mem.word16 l.usedEvent
  eventIdx : s'.device.eventIdx = s.device.eventIdx
  nextUsed : s'.device.nextUsed = s.device.nextUsed + UInt16.ofNat n
  numAdded : s'.device.numAdded = s.device.numAdded + UInt16.ofNat n

namespace Keeps

variable {l : VirtqLayout} {s s' s'' : System} {n n' : ℕ}

theorem trans (h : Keeps l s n s') (h' : Keeps l s' n' s'') : Keeps l s (n + n') s'' where
  threshold := h'.threshold.trans h.threshold
  eventIdx := h'.eventIdx.trans h.eventIdx
  nextUsed := by rw [h'.nextUsed, h.nextUsed, UInt16.ofNat_add, UInt16.add_assoc]
  numAdded := by rw [h'.numAdded, h.numAdded, UInt16.ofNat_add, UInt16.add_assoc]

/-- Only the region changes, and not at the threshold. -/
theorem of_mem {m : SharedMem} (d : Driver)
    (h : SharedMem.SameOn m s.mem l.usedEvent (l.usedEvent + 2)) :
    Keeps l s 0 { s with driver := d, mem := m } where
  threshold := h.word16_eq
  eventIdx := rfl
  nextUsed := (UInt16.add_zero _).symm
  numAdded := (UInt16.add_zero _).symm

/-- A write that does not meet the threshold. -/
theorem put (d : Driver) {a : ℕ} {data : List UInt8}
    (h : a + data.length ≤ l.usedEvent ∨ l.usedEvent + 2 ≤ a) :
    Keeps l s 0 { s with driver := d, mem := s.mem.put a data } :=
  of_mem d (s.mem.sameOn_put (by omega))

/-- Nothing the device sees changes. -/
theorem refl (d : Driver) : Keeps l s 0 { s with driver := d } :=
  of_mem d fun _ _ _ => rfl

end Keeps

/-! ### One call -/

namespace Represents

variable {l : VirtqLayout} {s : System} {q : Relay UInt16 UInt32}

theorem keeps_addChain (h : Represents l s q) {bufs : List Buffer}
    (ho : (Op.addChain bufs).Admissible l) : Keeps l s 0 (s.exec (.addChain bufs)).1 := by
  obtain ⟨hne, hord, -⟩ := ho
  rcases Nat.lt_or_ge s.driver.freeDescs.length bufs.length with hlt | hge
  · rw [System.exec_addChain_error (Driver.addChain_outOfDescriptors (m := s.mem) hne hlt)]
    exact Keeps.refl _
  · obtain ⟨head, rest, free, hlen, hfree, heq⟩ := Driver.addChain_ok h.driverCovered hne hord
      (fun i hi => h.owned.lt_of_free hi) hge
    have hlay := l.bounds
    rw [System.exec_addChain_ok heq, h.driverLayout]
    refine Keeps.of_mem _ (Driver.sameOn_putChain ?_ ?_ ?_)
    · intro e he
      have hlt := h.owned.lt_of_free (mem_of_popped hfree (fst_mem_chainEntries hlen he))
      rw [h.driverLayout] at hlt
      rw [VirtqLayout.descAddr]
      omega
    · have hslot := VirtqLayout.availSlot_add_le (l := l) s.driver.availIdx
      omega
    · omega

/-- Publishing a completion adds one to the batch. -/
theorem keeps_step (h : Represents l s q) {a : UInt16} {rs : List UInt16}
    (hq : q.requests = a :: rs) {ω : Type} {work : Work ω} {p : Process ω}
    {c : UInt16 × UInt32} {t : Process ω × SharedMem} (hdev : p.dev = s.device)
    (hstep : Process.step work (p, s.mem) = .ok (some c) t) :
    Keeps l s 1 (s.withDevice (t.1.dev, t.2)) := by
  have hdev' : t.1.dev = s.device.popped.completed := by
    have hs : Process.Covered (p, s.mem) := by
      rw [Process.Covered, hdev]
      exact h.deviceCovered
    rw [← hdev]
    obtain ⟨p', m'⟩ := t
    cases Process.stepSpec_of_step hs hstep <;> rfl
  have hslot := l.le_usedBase s.device.nextUsed
  have hlay := l.bounds
  -- the threshold lies in the avail ring, where an iteration writes nothing
  have hsame : SharedMem.SameOn t.2 s.mem l.usedEvent (l.usedEvent + 2) := fun i hlo hhi =>
    h.step_frame hq hdev hstep (by omega) (by omega) (by omega) (by omega)
  refine ⟨hsame.word16_eq, ?_, ?_, ?_⟩
  · show t.1.dev.eventIdx = _
    rw [hdev']
    rfl
  · show t.1.dev.nextUsed = _
    rw [hdev']
    rfl
  · show t.1.dev.numAdded = _
    rw [hdev']
    rfl

theorem keeps_serve (h : Represents l s q) (work : List UInt8 → List UInt8) :
    Keeps l s (Relay.Event.answered (s.exec (.serve work)).2).length
      (s.exec (.serve work)).1 := by
  rcases e : q.requests with - | ⟨a, rs⟩
  · rw [h.exec_serve_idle work e]
    exact Keeps.refl _
  · obtain ⟨len, t, hstep, heq, -⟩ := h.exec_serve_serves work e
    rw [heq]
    exact h.keeps_step e rfl hstep

/-- The step lemma: what a call leaves of the batch. -/
theorem keeps_exec (h : Represents l s q) {o : Op} (ho : o.Admissible l)
    (hl : o.LeavesThreshold) :
    Keeps l s (Relay.Event.answered (s.exec o).2).length (s.exec o).1 := by
  have hlay := l.bounds
  cases o with
  -- the two operations that move the threshold are excluded
  | needsNotification => cases hl
  | armUsedEvent => cases hl
  | addChain bufs =>
      have hk := h.keeps_addChain ho
      have hzero : (Relay.Event.answered (s.exec (.addChain bufs)).2).length = 0 := by
        rw [System.exec]
        split <;> rfl
      rwa [hzero]
  | serve work => exact h.keeps_serve work
  | collectUsed =>
      obtain ⟨d, heq, -⟩ := h.collectUsed
      rw [System.exec_collectUsed_ok heq]
      exact Keeps.refl d
  | needsKick =>
      rw [System.exec, Driver.needsKick_ok h.driverCovered]
      exact Keeps.refl _
  -- the arena lies past the rings
  | alloc data =>
      obtain ⟨arena, m, -, hfinal, hm⟩ := Driver.alloc_spec data (s.driver, s.mem)
      rw [System.exec, hfinal]
      have harena : l.endAddr ≤ (s.driver, s.mem).1.arena := h.arena
      rcases hm with rfl | rfl
      · exact Keeps.refl _
      · exact Keeps.put _ (.inr (by omega))
  | allocUninit len =>
      obtain ⟨arena, -, hfinal, -⟩ := Driver.allocUninit_spec len (s.driver, s.mem)
      rw [System.exec, hfinal]
      exact Keeps.refl _
  -- of the rings, only `avail_event` or the flags of the used ring are stored
  | enableNotification =>
      rw [System.exec, Device.enableNotification_ok h.deviceCovered]
      show Keeps l s 0 { s with mem := s.device.notifyOn s.mem }
      rw [Device.notifyOn, h.deviceLayout]
      split
      · exact Keeps.put _ (.inr (by omega))
      · exact Keeps.put _ (.inr (by omega))
  | disableNotification =>
      rw [System.exec, Device.disableNotification_ok h.deviceCovered]
      show Keeps l s 0 { s with mem := s.device.notifyOff s.mem }
      rw [Device.notifyOff, h.deviceLayout]
      split
      · exact Keeps.refl _
      · exact Keeps.put _ (.inr (by omega))
  | writeBuffer addr data =>
      have hclear : l.Clear addr data.length := ho
      rw [System.exec_writeBuffer]
      split
      · apply Keeps.put
        rcases hclear with hclear | hclear
        · exact .inl (by omega)
        · exact .inr (by omega)
      · exact Keeps.refl _

/-- The run lemma: after any calls the batch has grown by what was served. -/
theorem keeps_execAll (h : Represents l s q) {ops : List Op}
    (hops : ∀ o ∈ ops, o.Admissible l ∧ o.LeavesThreshold) :
    Keeps l s (Relay.answered (Relay.execAll System.exec s ops).2).length
      (Relay.execAll System.exec s ops).1 := by
  induction ops generalizing s q with
  | nil => exact Keeps.refl s.driver
  | cons o ops ih =>
      obtain ⟨ho, hl⟩ := hops o List.mem_cons_self
      obtain ⟨q', -, h'⟩ := h.exec ho
      have hrest := ih h' fun o' ho' => hops o' (List.mem_cons_of_mem _ ho')
      have hlen : (Relay.answered (Relay.execAll System.exec s (o :: ops)).2).length =
          (Relay.Event.answered (s.exec o).2).length +
            (Relay.answered (Relay.execAll System.exec (s.exec o).1 ops).2).length := by
        rw [← List.length_append]
        rfl
      rw [hlen]
      exact (h.keeps_exec ho hl).trans hrest

/-! ### The decision -/

/-- After `n` further completions the device interrupts exactly if the
threshold lies in its batch. -/
theorem notifies_iff {s' : System} {n : ℕ} (h : Represents l s' q) (hk : Keeps l s n s')
    (he : s.device.eventIdx = true) :
    s'.notifies = true ↔ s.mem.word16 l.usedEvent - (s.device.nextUsed - s.device.numAdded) <
      s.device.numAdded + UInt16.ofNat n := by
  have hold : s'.device.nextUsed - s'.device.numAdded =
      s.device.nextUsed - s.device.numAdded := by
    rw [hk.nextUsed, hk.numAdded]
    grind
  have hsize : s'.device.nextUsed - (s.device.nextUsed - s.device.numAdded) =
      s.device.numAdded + UInt16.ofNat n := by
    rw [hk.nextUsed]
    grind
  rw [System.notifies, Device.needsNotification_ok h.deviceCovered]
  dsimp only
  rw [hk.eventIdx, he, Bool.not_true, Bool.false_or, needEvent_iff, h.deviceLayout, hold, hsize,
    hk.threshold]

/-- No call changes what was negotiated. -/
theorem eventIdx_exec (h : Represents l s q) {o : Op} (ho : o.Admissible l) :
    (s.exec o).1.device.eventIdx = s.device.eventIdx := by
  by_cases hl : o.LeavesThreshold
  · exact (h.keeps_exec ho hl).eventIdx
  · cases o with
    | needsNotification =>
        rw [System.exec, Device.needsNotification_ok h.deviceCovered]
        rfl
    | armUsedEvent => rfl
    | _ => exact absurd trivial hl

theorem eventIdx_execAll (h : Represents l s q) {ops : List Op}
    (hops : ∀ o ∈ ops, o.Admissible l) :
    (Relay.execAll System.exec s ops).1.device.eventIdx = s.device.eventIdx := by
  induction ops generalizing s q with
  | nil => rfl
  | cons o ops ih =>
      have ho := hops o List.mem_cons_self
      obtain ⟨q', -, h'⟩ := h.exec ho
      exact (ih h' fun o' ho' => hops o' (List.mem_cons_of_mem _ ho')).trans (h.eventIdx_exec ho)

/-- The region right after the arm. -/
theorem exec_armUsedEvent (h : Represents l s q) :
    (s.exec .armUsedEvent).1 =
      { s with mem := s.mem.put l.usedEvent (toLe 2 s.driver.lastUsed.toNat) } := by
  rw [System.exec, Driver.armUsedEvent_ok h.driverCovered, h.driverLayout]
  rfl

/-- From every state one more completion can be published. -/
theorem exists_one_answer (h : Represents l s q) :
    ∃ ops, (∀ o ∈ ops, o.Admissible l ∧ o.LeavesThreshold) ∧
      (Relay.answered (Relay.execAll System.exec s ops).2).length = 1 := by
  rcases e : q.requests with - | ⟨a, rs⟩
  · -- nothing waits: collect what there is, and publish a chain of one empty buffer
    have hadm : (Op.addChain [⟨0, 0, true⟩]).Admissible l := by
      refine ⟨List.cons_ne_nil _ _, rfl, fun b hb => .inl ?_⟩
      rw [List.mem_singleton.mp hb]
      exact Nat.zero_le _
    refine ⟨[.collectUsed, .addChain [⟨0, 0, true⟩], .serve fun _ => []], ?_, ?_⟩
    · simp only [List.forall_mem_cons, List.not_mem_nil, false_implies, implies_true, and_true]
      exact ⟨⟨trivial, trivial⟩, ⟨hadm, trivial⟩, trivial, trivial⟩
    · obtain ⟨d, heq, h₁⟩ := h.collectUsed
      have hcollect : s.exec .collectUsed = ({ s with driver := d }, .collect q.answers) := by
        rw [System.exec_collectUsed_ok heq]
        rfl
      have hfree : d.freeDescs.length = l.qs := by
        rw [(h₁.freeDescs_perm e rfl).length_eq, VirtqLayout.length_indices]
      obtain ⟨head, hpub, h₂⟩ := h₁.exec_addChain_publishes hadm (by
        show 1 ≤ d.freeDescs.length
        have := l.qs_pos
        omega)
      obtain ⟨len, t, -, hserve, -⟩ := h₂.exec_serve_serves (fun _ => [])
        (show q.requests ++ [head] = [head] by rw [e]; rfl)
      simp only [Relay.execAll, hcollect, hpub, hserve]
      rfl
  · refine ⟨[.serve fun _ => []], ?_, ?_⟩
    · simp only [List.forall_mem_cons, List.not_mem_nil, false_implies, implies_true, and_true]
      exact ⟨trivial, trivial⟩
    · obtain ⟨len, t, -, heq, -⟩ := h.exec_serve_serves (fun _ => []) e
      rw [Relay.execAll, heq]
      rfl

end Represents

/-! ### What an armed threshold brings about -/

/-- In every state the halves can reach: that every later batch of completions,
however the calls in between fall, makes the device interrupt once the threshold
is armed, holds exactly if the device has not yet decided about a completion
the driver still has to collect. -/
theorem armed_interrupts_iff {l : VirtqLayout} {arenaEnd : ℕ} {m : SharedMem} {d₀ : Driver}
    (hnew : Driver.new l arenaEnd true = some d₀) (hcov : l.Covered m)
    (havail : m.word16 l.availIdx = 0) (hused : m.word16 l.usedIdx = 0) {ops : List Op}
    (hops : ∀ o ∈ ops, o.Admissible l) :
    let s := (Relay.execAll System.exec (System.init m d₀ true) ops).1
    (∀ after : List Op, (∀ o ∈ after, o.Admissible l ∧ o.LeavesThreshold) →
      let r := Relay.execAll System.exec (s.exec .armUsedEvent).1 after
      1 ≤ (Relay.answered r.2).length →
      (Relay.answered r.2).length ≤ 65535 - s.device.numAdded.toNat →
      r.1.notifies = true) ↔
    s.device.nextUsed - s.driver.lastUsed ≤ s.device.numAdded := by
  obtain ⟨q, -, hrep⟩ := @exists_represented l m arenaEnd true true d₀ hnew hcov havail hused
    ops hops
  have hinit : Represents l (System.init m d₀ true) {} :=
    represents_init hnew hcov havail hused
  have hevent := hinit.eventIdx_execAll hops
  intro s
  have he : s.device.eventIdx = true := hevent
  set a := s.device.numAdded
  set x := s.device.nextUsed - s.driver.lastUsed with hx
  have harm : (s.exec .armUsedEvent).1 =
      { s with mem := s.mem.put l.usedEvent (toLe 2 s.driver.lastUsed.toNat) } :=
    hrep.exec_armUsedEvent
  -- the decision after `n` further completions
  have hdecide : ∀ after : List Op, (∀ o ∈ after, o.Admissible l ∧ o.LeavesThreshold) →
      ((Relay.execAll System.exec (s.exec .armUsedEvent).1 after).1.notifies = true ↔
        a - x < a + UInt16.ofNat (Relay.answered
          (Relay.execAll System.exec (s.exec .armUsedEvent).1 after).2).length) := by
    intro after hafter
    have h₁ := hrep.armUsedEvent
    obtain ⟨q', -, h₂⟩ := Relay.exists_run (fun h ho => h.exec ho) h₁ fun o ho => (hafter o ho).1
    have hword := SharedMem.word16_put_self s.mem s.driver.lastUsed hrep.covered.usedEvent
    have hdist : s.driver.lastUsed - (s.device.nextUsed - a) = a - x := by
      rw [hx]
      grind
    rw [harm, Represents.notifies_iff h₂ (h₁.keeps_execAll hafter) he]
    dsimp only
    rw [hword, hdist]
  constructor
  · intro hall
    -- too late: after one more completion the threshold is still below the batch
    by_contra hlt
    have hlt' : a.toNat < x.toNat := by rwa [← UInt16.lt_iff_toNat_lt, ← UInt16.not_le]
    have hx' := x.toNat_lt
    have h₁ := hrep.armUsedEvent
    obtain ⟨after, hafter, hone⟩ := h₁.exists_one_answer
    rw [← harm] at hone
    have hnotify := hall after hafter (by rw [hone]) (by rw [hone]; omega)
    rw [hdecide after hafter, hone, UInt16.lt_iff_toNat_lt,
      Rolling.toNat_add_ofNat (by omega)] at hnotify
    exact hlt ((Rolling.sub_le_self_iff a x).mp (UInt16.le_iff_toNat_le.mpr (by omega)))
  · intro hle after hafter r hone hmax
    -- in time: the batch starts at or below the threshold, and has passed it
    have hsub := UInt16.le_iff_toNat_le.mp ((Rolling.sub_le_self_iff a x).mpr hle)
    apply (hdecide after hafter).mpr
    show a - x < a + UInt16.ofNat (Relay.answered r.2).length
    rw [UInt16.lt_iff_toNat_lt, Rolling.toNat_add_ofNat (by omega)]
    omega

/-- The chains below are one device-writable byte. -/
def oneByte : Op := .addChain [⟨40, 1, true⟩]

theorem armed_interrupts_iff_fresh :
    let s := (Relay.execAll System.exec
      (System.init emptyRegion unitDriver true) [oneByte]).1
    (∀ after : List Op, (∀ o ∈ after, o.Admissible unitQueue ∧ o.LeavesThreshold) →
      let r := Relay.execAll System.exec (s.exec .armUsedEvent).1 after
      1 ≤ (Relay.answered r.2).length →
      (Relay.answered r.2).length ≤ 65535 - s.device.numAdded.toNat →
      r.1.notifies = true) ↔
    s.device.nextUsed - s.driver.lastUsed ≤ s.device.numAdded := by
  apply armed_interrupts_iff new_unitQueue (by decide) (by decide) (by decide)
  intro o ho
  obtain rfl := List.mem_singleton.mp ho
  exact ⟨List.cons_ne_nil _ _, rfl, fun b hb => .inr (by
    rw [List.mem_singleton.mp hb]
    decide)⟩

/-! ### An arm that comes too late -/

/-- One chain went through; a second one is completed and the device is about
to decide. -/
def secondCompletion : System :=
  (Relay.execAll System.exec (System.init emptyRegion unitDriver true)
    [oneByte, .serve fun _ => [7], .needsNotification, .collectUsed, oneByte,
      .serve fun _ => [7]]).1

/-- The device decides not to interrupt for the second completion.  Then the
driver arms, collects it and publishes a third chain; the device completes it
and again does not interrupt. -/
theorem late_arm_gets_no_interrupt :
    let s := (secondCompletion.exec .needsNotification).1
    let r := Relay.execAll System.exec (s.exec .armUsedEvent).1
      [.collectUsed, oneByte, .serve fun _ => [7]]
    secondCompletion.notifies = false ∧ s.device.numAdded = 0 ∧
      s.device.nextUsed - s.driver.lastUsed = 1 ∧
      (Relay.answered r.2).length = 1 ∧ r.1.notifies = false := by
  decide +kernel

end SystemsStudy
