/-
SystemsStudy/Kick.lean

No kick is lost.

The race between a driver that publishes and then reads the threshold and a
device that stores the threshold and then reads `avail.idx` is the handshake of
`Doorbell`: the threshold is the event, and `needsKick` rings whenever the event
lies in the batch.  `Tracks` relates a race to a doorbell over unbounded
positions, and `Tracks.step` matches every access by a step of the doorbell or
by none.

Two bounds make 16 bits enough.  A batch has at most 65535 chains, so a position
in it is recognised; and a chain owns a descriptor until it is collected, so
`avail.idx` and `nextAvail` are equal only if nothing is left.
-/
import SystemsStudy.Race
import SystemsStudy.Lib.Doorbell

namespace SystemsStudy

open Bytes Fallible

/-! ### The relation -/

/-- Descriptors taken for a chain not yet published. -/
def DriverAt.taken : DriverAt → ℕ
  | .publishing => 1
  | _ => 0

/-- Heads popped and not yet completed. -/
def DeviceAt.popped : DeviceAt → ℕ
  | .serving => 1
  | _ => 0

/-- Where the doorbell stands while the device is at one of its accesses. -/
def DeviceAt.phase : DeviceAt → Doorbell.Phase
  | .asleep => .asleep
  | .checking => .armed
  | _ => .awake

/-- The race stands where the doorbell does, with `served` completions published
and `collected` of them collected. -/
structure Tracks (l : VirtqLayout) (s : Race) (g : Doorbell) (served collected : ℕ) : Prop where
  driverLayout : s.driver.layout = l
  deviceLayout : s.device.layout = l
  covered : l.Covered s.mem
  driverEventIdx : s.driver.eventIdx = true
  deviceEventIdx : s.device.eventIdx = true
  owned : s.driver.Owned
  availIdx : s.driver.availIdx = UInt16.ofNat g.published
  availWord : s.mem.word16 l.availIdx = UInt16.ofNat g.published
  lastKick : s.driver.lastKick = UInt16.ofNat g.asked
  nextAvail : s.device.nextAvail = UInt16.ofNat g.taken
  event : s.mem.word16 l.availEvent = UInt16.ofNat g.event
  nextUsed : s.device.nextUsed = UInt16.ofNat served
  usedWord : s.mem.word16 l.usedIdx = UInt16.ofNat served
  lastUsed : s.driver.lastUsed = UInt16.ofNat collected
  phase : g.phase = s.deviceAt.phase
  rung : g.rung = s.kick
  batch : g.published = g.asked + s.batch
  batch_le : s.batch ≤ 65535
  /-- every chain from publication to collection is outstanding -/
  room : g.published + s.driverAt.taken ≤ collected + s.driver.outstanding.keys.length
  served_le : served + s.deviceAt.popped ≤ g.taken
  collected_le : collected ≤ served
  collecting : ∀ u, s.driverAt = .collecting u →
    ∃ n, u = UInt16.ofNat n ∧ collected ≤ n ∧ n ≤ served

namespace Tracks

variable {l : VirtqLayout} {s s' : Race} {g : Doorbell} {served collected : ℕ}

theorem driverCovered (h : Tracks l s g served collected) : s.driver.layout.Covered s.mem := by
  rw [h.driverLayout]
  exact h.covered

theorem deviceCovered (h : Tracks l s g served collected) : s.device.layout.Covered s.mem := by
  rw [h.deviceLayout]
  exact h.covered

/-- No more chains are untaken than there are descriptors. -/
theorem untaken_le (h : Tracks l s g served collected) : g.published ≤ g.taken + l.qs := by
  have hroom := h.room
  have hserved := h.served_le
  have hcollected := h.collected_le
  have hpool := h.owned.length_keys_le
  rw [VirtqLayout.length_indices, h.driverLayout] at hpool
  have hkeys : s.driver.pool.held.keys.length = s.driver.outstanding.keys.length := rfl
  omega

/-- The device sees nothing available exactly if everything is taken. -/
theorem pending_eq_zero (h : Tracks l s g served collected) (hg : g.Sound) :
    s.device.pending s.mem = 0 ↔ g.taken = g.published := by
  have hqs := l.qs_le
  have hle := h.untaken_le
  have htaken := hg.taken_le
  -- at most a queue size apart, so the difference of the counters is exact
  have hdist := Rolling.toNat_ofNat_sub (a := g.published) (b := g.taken) htaken (by omega)
  rw [Device.pending, h.deviceLayout, h.availWord, h.nextAvail, ← UInt16.toNat_inj, hdist]
  show g.published - g.taken = 0 ↔ _
  omega

/-- A position of the batch is recognised. -/
theorem needEvent_of_awaited (h : Tracks l s g served collected) (hev : g.Awaited) :
    needEvent (s.mem.word16 l.availEvent) s.driver.availIdx s.driver.lastKick = true := by
  have hbatch := h.batch
  have hle := h.batch_le
  rw [h.event, h.availIdx, h.lastKick, needEvent_iff]
  exact Rolling.ofNat_sub_lt hev.1 hev.2 (by omega)

/-- The driver kicks if the doorbell rings. -/
theorem needsKick_of_awaited (h : Tracks l s g served collected) (hev : g.Awaited) :
    ∃ t, Driver.needsKick (s.driver, s.mem) = .ok true t := by
  have hn := h.needEvent_of_awaited hev
  rw [← h.driverLayout] at hn
  have hk := Driver.needsKick_ok h.driverCovered
  rw [hn, Bool.or_true] at hk
  exact ⟨_, hk⟩

/-! ### The driver's accesses -/

theorem other (h : Tracks l s g served collected) {m : SharedMem}
    (hm : s.device.layout.SameIndices s.mem m) :
    Tracks l { s with mem := m } g served collected := by
  rw [h.deviceLayout] at hm
  refine { h with covered := ?_, availWord := ?_, event := ?_, usedWord := ?_ }
  · rw [VirtqLayout.Covered, hm.len]
    exact h.covered
  · exact hm.availIdx.word16_eq.trans h.availWord
  · exact hm.availEvent.word16_eq.trans h.event
  · exact hm.usedIdx.word16_eq.trans h.usedWord

theorem take (h : Tracks l s g served collected) {head : UInt16} {rest free : List UInt16}
    (hat : s.driverAt = .ready) (hfree : s.driver.freeDescs = free ++ (head :: rest).reverse) :
    Tracks l { s with driver := s.driver.took head rest free, driverAt := .publishing } g served
      collected := by
  have hroom := h.room
  rw [hat] at hroom
  refine { h with owned := h.owned.took hfree, room := ?_, collecting := fun u hu => nomatch hu }
  show g.published + 1 ≤ collected + (s.driver.took head rest free).outstanding.keys.length
  rw [h.owned.keys_took hfree, List.length_cons]
  exact Nat.succ_le_succ hroom

/-- A store to one of the three words leaves the other two. -/
theorem word16_put_ne {m : SharedMem} {a b : ℕ} (v : UInt16) (h : b + 2 ≤ a ∨ a + 2 ≤ b) :
    (m.put a (toLe 2 v.toNat)).word16 b = m.word16 b :=
  (m.sameOn_put (by rw [length_toLe]; omega)).word16_eq

theorem publish (h : Tracks l s g served collected) (hat : s.driverAt = .publishing)
    (hlt : s.batch < 65535) :
    Tracks l
      { s with
        driver := s.driver.published
        mem := s.mem.put s.driver.layout.availIdx (toLe 2 (s.driver.availIdx + 1).toNat)
        driverAt := .ready
        batch := s.batch + 1 }
      { g with published := g.published + 1 } served collected := by
  have hlay := l.bounds
  have hnext : s.driver.availIdx + 1 = UInt16.ofNat (g.published + 1) := by
    rw [h.availIdx, Rolling.ofNat_succ]
  have hroom := h.room
  rw [hat] at hroom
  rw [h.driverLayout, hnext]
  -- only the index of the available ring changes, on both sides at once
  refine { h with
    covered := ?_, availIdx := hnext, availWord := ?_, event := ?_, usedWord := ?_, batch := ?_
    batch_le := hlt, room := hroom, collecting := fun u hu => nomatch hu }
  · rw [VirtqLayout.Covered, SharedMem.len_put]
    exact h.covered
  · exact SharedMem.word16_put_self _ _ h.covered.availIdx
  · rw [word16_put_ne _ (by omega)]
    exact h.event
  · rw [word16_put_ne _ (by omega)]
    exact h.usedWord
  · rw [h.batch, Nat.add_assoc]

/-- The decision is one of the doorbell. -/
theorem evaluate (h : Tracks l s g served collected) {b : Bool} {t : Driver × SharedMem}
    (hk : Driver.needsKick (s.driver, s.mem) = .ok b t) :
    (g.Awaited → b = true) ∧
    Tracks l { s with driver := t.1, mem := t.2, batch := 0, kick := s.kick || b }
      { g with asked := g.published, rung := g.rung || b } served collected := by
  constructor
  · intro hev
    obtain ⟨t', ht'⟩ := h.needsKick_of_awaited hev
    rw [hk] at ht'
    cases ht'
    rfl
  · rw [Driver.needsKick_ok h.driverCovered] at hk
    cases hk
    refine { h with
      lastKick := h.availIdx, rung := ?_, batch := rfl, batch_le := Nat.zero_le _ }
    exact congrArg (· || _) h.rung

theorem loadUsed (h : Tracks l s g served collected) (hat : s.driverAt = .ready) :
    Tracks l { s with driverAt := .collecting (s.mem.word16 s.driver.layout.usedIdx) } g served
      collected := by
  have hroom := h.room
  rw [hat] at hroom
  refine { h with room := hroom, collecting := fun u hu => ⟨served, ?_, h.collected_le, le_rfl⟩ }
  rw [← h.usedWord, ← h.driverLayout]
  exact (DriverAt.collecting.inj hu).symm

/-- Whatever id the slot holds, at most one chain is given back. -/
theorem length_keys_collected (d : Driver) (id : UInt16) :
    d.outstanding.keys.length ≤ (d.collected id).outstanding.keys.length + 1 := by
  unfold Driver.collected
  rcases e : d.outstanding.lookup id with - | descs
  · exact Nat.le_succ _
  · show _ ≤ (d.outstanding.erase id).keys.length + 1
    rw [AList.keys_erase, List.length_erase]
    split <;> omega

theorem collect (h : Tracks l s g served collected) {u : UInt16}
    (hat : s.driverAt = .collecting u) (hne : s.driver.lastUsed ≠ u) (id : UInt16) :
    Tracks l { s with driver := s.driver.collected id } g served (collected + 1) := by
  obtain ⟨n, rfl, hlo, hhi⟩ := h.collecting u hat
  -- the slot read is one the device has published
  have hlt : collected < n := by
    apply lt_of_le_of_ne hlo
    intro heq
    apply hne
    rw [h.lastUsed, heq]
  have hroom := h.room
  have hkeys := length_keys_collected s.driver id
  have hsame : (s.driver.collected id).availIdx = s.driver.availIdx ∧
      (s.driver.collected id).lastKick = s.driver.lastKick ∧
      (s.driver.collected id).eventIdx = s.driver.eventIdx := by
    unfold Driver.collected
    split <;> exact ⟨rfl, rfl, rfl⟩
  refine { h with
    driverLayout := (Driver.layout_collected _ _).trans h.driverLayout
    driverEventIdx := hsame.2.2.trans h.driverEventIdx
    owned := h.owned.collected id
    availIdx := hsame.1.trans h.availIdx
    lastKick := hsame.2.1.trans h.lastKick
    lastUsed := ?_, room := ?_, collected_le := hlt.trans_le hhi, collecting := ?_ }
  · show (s.driver.collected id).lastUsed = _
    rw [Driver.lastUsed_collected, h.lastUsed, Rolling.ofNat_succ]
  · show g.published + s.driverAt.taken ≤
      collected + 1 + (s.driver.collected id).outstanding.keys.length
    omega
  · intro v hv
    have hv' : s.driverAt = .collecting v := hv
    rw [hat] at hv'
    exact ⟨n, (DriverAt.collecting.inj hv').symm, hlt, hhi⟩

theorem collectedAll (h : Tracks l s g served collected) {u : UInt16}
    (hat : s.driverAt = .collecting u) :
    Tracks l { s with driverAt := .ready } g served collected := by
  have hroom := h.room
  rw [hat] at hroom
  exact { h with room := hroom, collecting := fun v hv => nomatch hv }

/-! ### The device's accesses -/

/-- The device moves, and nothing else. -/
theorem moveTo (h : Tracks l s g served collected) {at' : DeviceAt}
    (hpopped : at'.popped = s.deviceAt.popped) :
    Tracks l { s with deviceAt := at' } { g with phase := at'.phase } served collected := by
  have hserved := h.served_le
  rw [← hpopped] at hserved
  exact { h with phase := rfl, served_le := hserved }

theorem pop (h : Tracks l s g served collected) (hat : s.deviceAt = .draining) :
    Tracks l { s with device := s.device.popped, deviceAt := .serving }
      { g with taken := g.taken + 1 } served collected := by
  have hserved := h.served_le
  have hphase := h.phase
  rw [hat] at hserved hphase
  refine { h with nextAvail := ?_, phase := hphase, served_le := Nat.succ_le_succ hserved }
  show s.device.nextAvail + 1 = UInt16.ofNat (g.taken + 1)
  rw [h.nextAvail, Rolling.ofNat_succ]

theorem complete (h : Tracks l s g served collected) (hat : s.deviceAt = .serving) :
    Tracks l
      { s with
        device := s.device.completed
        mem := s.mem.put s.device.layout.usedIdx (toLe 2 (s.device.nextUsed + 1).toNat)
        deviceAt := .draining } g (served + 1) collected := by
  have hlay := l.bounds
  have hqs := l.qs_pos
  have hnext : s.device.nextUsed + 1 = UInt16.ofNat (served + 1) := by
    rw [h.nextUsed, Rolling.ofNat_succ]
  have hserved := h.served_le
  have hphase := h.phase
  rw [hat] at hserved hphase
  rw [h.deviceLayout, hnext]
  -- only the index of the used ring changes; the driver may have read an older value of it
  refine { h with
    covered := ?_, availWord := ?_, event := ?_, nextUsed := hnext, usedWord := ?_
    phase := hphase, served_le := hserved, collected_le := h.collected_le.step
    collecting := ?_ }
  · rw [VirtqLayout.Covered, SharedMem.len_put]
    exact h.covered
  · rw [word16_put_ne _ (by omega)]
    exact h.availWord
  · rw [word16_put_ne _ (by omega)]
    exact h.event
  · exact SharedMem.word16_put_self _ _ h.covered.usedIdx
  · intro u hu
    obtain ⟨n, rfl, hlo, hhi⟩ := h.collecting u hu
    exact ⟨n, rfl, hlo, hhi.step⟩

theorem enable (h : Tracks l s g served collected) (hat : s.deviceAt = .enabling) :
    Tracks l { s with mem := s.device.notifyOn s.mem, deviceAt := .checking }
      { g with event := g.taken, phase := .armed } served collected := by
  have hlay := l.bounds
  have hserved := h.served_le
  have hqs := l.qs_pos
  rw [hat] at hserved
  rw [Device.notifyOn, if_pos h.deviceEventIdx, h.deviceLayout, h.nextAvail]
  refine { h with
    covered := ?_, availWord := ?_, event := ?_, usedWord := ?_, phase := rfl
    served_le := hserved }
  · rw [VirtqLayout.Covered, SharedMem.len_put]
    exact h.covered
  · rw [word16_put_ne _ (by omega)]
    exact h.availWord
  · exact SharedMem.word16_put_self _ _ h.covered.availEvent
  · rw [word16_put_ne _ (by omega)]
    exact h.usedWord

theorem notify (h : Tracks l s g served collected) {b : Bool} {t : Device × SharedMem}
    (hn : Device.needsNotification (s.device, s.mem) = .ok b t) :
    Tracks l { s with device := t.1, mem := t.2 } g served collected := by
  rw [Device.needsNotification_ok h.deviceCovered] at hn
  cases hn
  exact { h with }

theorem wake (h : Tracks l s g served collected) (hat : s.deviceAt = .asleep) :
    Tracks l { s with deviceAt := .draining, kick := false }
      { g with phase := .awake, rung := false } served collected := by
  have hserved := h.served_le
  rw [hat] at hserved
  exact { h with phase := rfl, rung := rfl, served_le := hserved }

/-! ### Every access is a step of the doorbell, or none -/

/-- An access other than the evaluation of `needsKick` is silent. -/
theorem silent (h : Tracks l s g served collected) (hg : g.Sound) (hstep : Race.Silent s s') :
    ∃ g' served' collected', (g' = g ∨ Doorbell.Silent g g') ∧
      Tracks l s' g' served' collected' := by
  have hphase := h.phase
  cases hstep with
  | other hm => exact ⟨g, _, _, .inl rfl, h.other hm⟩
  | take hat hfree => exact ⟨g, _, _, .inl rfl, h.take hat hfree⟩
  | publish hat hlt => exact ⟨_, _, _, .inr .publish, h.publish hat hlt⟩
  | loadUsed hat => exact ⟨g, _, _, .inl rfl, h.loadUsed hat⟩
  | collect hat hne => exact ⟨g, _, _, .inl rfl, h.collect hat hne _⟩
  | collected hat => exact ⟨g, _, _, .inl rfl, h.collectedAll hat⟩
  -- the doorbell is rung exactly while the eventfd is nonzero
  | wake hat hkick =>
      rw [hat] at hphase
      exact ⟨_, _, _, .inr (.wake hphase (h.rung.trans hkick)), h.wake hat⟩
  -- the two indices differ, so a published chain is still to be taken
  | pop hat hne =>
      rw [hat] at hphase
      have htaken := hg.taken_le
      have hlt : g.taken ≠ g.published := fun heq => hne ((h.pending_eq_zero hg).mpr heq)
      exact ⟨_, _, _, .inr (.take hphase (by omega)), h.pop hat⟩
  | complete hat => exact ⟨g, _, _, .inl rfl, h.complete hat⟩
  | notify _ hn => exact ⟨g, _, _, .inl rfl, h.notify hn⟩
  | drained hat =>
      rw [hat] at hphase
      have hpopped : DeviceAt.enabling.popped = s.deviceAt.popped := by rw [hat]; rfl
      have hmove := h.moveTo hpopped
      obtain ⟨p, a, t, e, ph, r⟩ := g
      obtain rfl : ph = .awake := hphase
      exact ⟨_, _, _, .inl rfl, hmove⟩
  | enable hat =>
      rw [hat] at hphase
      exact ⟨_, _, _, .inr (.arm hphase), h.enable hat⟩
  | sleep hat hz =>
      rw [hat] at hphase
      exact ⟨_, _, _, .inr (.sleep hphase ((h.pending_eq_zero hg).mp hz)),
        h.moveTo (by rw [hat]; rfl)⟩
  | resume hat =>
      rw [hat] at hphase
      exact ⟨_, _, _, .inr (.resume hphase), h.moveTo (by rw [hat]; rfl)⟩

theorem step (h : Tracks l s g served collected) (hg : g.Sound) (hstep : Race.Step s s') :
    ∃ g' served' collected', g'.Sound ∧ Tracks l s' g' served' collected' := by
  cases hstep with
  | silent hstep =>
      obtain ⟨g', u, c, hg', h'⟩ := h.silent hg hstep
      rcases hg' with rfl | hg'
      · exact ⟨g', u, c, hg, h'⟩
      · exact ⟨g', u, c, hg.silent hg', h'⟩
  | evaluate _ hk =>
      obtain ⟨hring, h'⟩ := h.evaluate hk
      exact ⟨_, _, _, hg.step (.decide hring), h'⟩

end Tracks

/-! ### Every interleaving -/

section Runs

variable {l : VirtqLayout} {m : SharedMem} {arenaEnd : ℕ} {d : Driver} {s s' : Race}
  {g : Doorbell} {served collected : ℕ}

theorem tracks_init (hnew : Driver.new l arenaEnd true = some d) (hcov : l.Covered m)
    (havail : m.word16 l.availIdx = 0) (hused : m.word16 l.usedIdx = 0)
    (hevent : m.word16 l.availEvent = 0) : Tracks l (Race.init m d) {} 0 0 := by
  obtain ⟨howned, hlayout⟩ := Driver.owned_of_new hnew
  unfold Driver.new at hnew
  split at hnew
  · obtain ⟨arena, -, rfl⟩ := Option.map_eq_some_iff.mp hnew
    exact
      { driverLayout := rfl, deviceLayout := rfl, covered := hcov, driverEventIdx := rfl
        deviceEventIdx := rfl, owned := howned, availIdx := rfl, availWord := havail
        lastKick := rfl, nextAvail := rfl, event := hevent, nextUsed := rfl, usedWord := hused
        lastUsed := rfl, phase := rfl, rung := rfl, batch := rfl, batch_le := Nat.zero_le _
        room := le_rfl, served_le := le_rfl, collected_le := le_rfl
        collecting := fun u hu => nomatch hu }
  · cases hnew

/-- Every reachable race stands where a sound doorbell does. -/
theorem exists_tracked (hnew : Driver.new l arenaEnd true = some d) (hcov : l.Covered m)
    (havail : m.word16 l.availIdx = 0) (hused : m.word16 l.usedIdx = 0)
    (hevent : m.word16 l.availEvent = 0)
    (hrun : Relation.ReflTransGen Race.Step (Race.init m d) s) :
    ∃ g served collected, g.Sound ∧ Tracks l s g served collected := by
  induction hrun with
  | refl => exact ⟨{}, 0, 0, Doorbell.sound_init, tracks_init hnew hcov havail hused hevent⟩
  | tail _ hstep ih =>
      obtain ⟨g, served, collected, hg, h⟩ := ih
      exact h.step hg hstep

/-- While the device waits, nothing but the evaluation of `needsKick` changes
that. -/
theorem Tracks.waiting (h : Tracks l s g served collected) (hg : g.Sound) (hw : g.Waiting)
    (hrun : Relation.ReflTransGen Race.Silent s s') :
    ∃ g' served' collected', g'.Sound ∧ g'.Waiting ∧ Tracks l s' g' served' collected' := by
  induction hrun with
  | refl => exact ⟨g, served, collected, hg, hw, h⟩
  | tail _ hstep ih =>
      obtain ⟨g₁, u₁, c₁, hg₁, hw₁, h₁⟩ := ih
      obtain ⟨g₂, u₂, c₂, hstep₂, h₂⟩ := h₁.silent hg₁ hstep
      rcases hstep₂ with rfl | hstep₂
      · exact ⟨g₂, u₂, c₂, hg₁, hw₁, h₂⟩
      · exact ⟨g₂, u₂, c₂, hg₁.silent hstep₂, hw₁.silent hstep₂, h₂⟩

/-- No kick is lost.  If the device sleeps, `avail.idx` has moved past where it
stopped and no kick is pending, then the driver has a batch it has not asked
about; and however many accesses of either side come first, `needsKick` returns
true when it is evaluated. -/
theorem no_lost_kick (hnew : Driver.new l arenaEnd true = some d) (hcov : l.Covered m)
    (havail : m.word16 l.availIdx = 0) (hused : m.word16 l.usedIdx = 0)
    (hevent : m.word16 l.availEvent = 0)
    (hrun : Relation.ReflTransGen Race.Step (Race.init m d) s) (hasleep : s.deviceAt = .asleep)
    (hwork : s.mem.word16 l.availIdx ≠ s.device.nextAvail) (hkick : s.kick = false) :
    0 < s.batch ∧
    ∀ s', Relation.ReflTransGen Race.Silent s s' →
      ∃ t, Driver.needsKick (s'.driver, s'.mem) = .ok true t := by
  obtain ⟨g, served, collected, hg, h⟩ := exists_tracked hnew hcov havail hused hevent hrun
  -- counters that differ stand for positions that differ
  have hne : g.taken ≠ g.published := by
    rintro heq
    rw [h.availWord, h.nextAvail, heq] at hwork
    exact hwork rfl
  have hphase := h.phase
  rw [hasleep] at hphase
  have hw : g.Waiting := ⟨hphase, h.rung.trans hkick, lt_of_le_of_ne hg.taken_le hne⟩
  constructor
  · have hev := hw.awaited hg
    have hlt := hev.1.trans_lt hev.2
    have hbatch := h.batch
    omega
  · intro s' hrun'
    obtain ⟨g', served', collected', hg', hw', h'⟩ := h.waiting hg hw hrun'
    exact h'.needsKick_of_awaited (hw'.awaited hg')

/-- The driver has published its first chain and not asked yet. -/
def firstChain : Race where
  mem := emptyRegion.put unitQueue.availIdx (toLe 2 1)
  driver := (unitDriver.took 0 [] []).published
  device := Device.new unitQueue true
  batch := 1

theorem no_lost_kick_firstChain :
    0 < firstChain.batch ∧
    ∀ s', Relation.ReflTransGen Race.Silent firstChain s' →
      ∃ t, Driver.needsKick (s'.driver, s'.mem) = .ok true t := by
  have hfree : unitDriver.freeDescs = [] ++ [(0 : UInt16)].reverse := rfl
  have h₁ : Race.Step (Race.init emptyRegion unitDriver) _ :=
    .silent (.take rfl hfree)
  have hrun : Relation.ReflTransGen Race.Step _ firstChain :=
    (Relation.ReflTransGen.single h₁).tail (.silent (.publish rfl (by decide)))
  exact no_lost_kick new_unitQueue (by decide) (by decide) (by decide) (by decide) hrun rfl
    (by decide) rfl

end Runs

end SystemsStudy
