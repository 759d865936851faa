/-
SystemsStudy/Crossing.lean

One notification per crossing.

The counters behind `needEvent` never wrap for the one who reads the code: they
count all chains ever published, or all completions.  What it decides about the
16 bits that are kept is whether the unbounded counter crossed `event + 1` in
the batch since the previous decision, so over a run each crossing is announced
by exactly one decision (`count_answers`).

The two callers keep the lower end of the batch in different ways: the device
counts what it added (`numAdded`), the driver remembers where it stood
(`lastKick`).  A `History` is any sequence of calls of one half, each over a
region of its own, next to the unbounded counter and its value at the previous
decision.
-/
import SystemsStudy.Atomic
import SystemsStudy.Process

namespace SystemsStudy

open Bytes Fallible

/-! ### Runs of the predicate -/

/-- What `needEvent` answers batch by batch, for a counter that starts at `c`. -/
def answers (event : UInt16) : ℕ → List ℕ → List Bool
  | _, [] => []
  | c, n :: ns =>
      needEvent event (UInt16.ofNat (c + n)) (UInt16.ofNat c) :: answers event (c + n) ns

/-- The predicate is true exactly if the batch crosses the position after
`event`. -/
theorem needEvent_iff_exists_crossing (event : UInt16) (c : ℕ) {n : ℕ} (hn : n < 2 ^ 16) :
    needEvent event (UInt16.ofNat (c + n)) (UInt16.ofNat c) = true ↔
      ∃ t, c < t ∧ t ≤ c + n ∧ t ≡ event.toNat + 1 [MOD 2 ^ 16] := by
  rw [needEvent_iff, Rolling.sub_lt_iff_exists_crossing event hn]

/-- One answer counts the crossings in its batch. -/
theorem toNat_needEvent (event : UInt16) (c : ℕ) {n : ℕ} (hn : n < 2 ^ 16) :
    (needEvent event (UInt16.ofNat (c + n)) (UInt16.ofNat c)).toNat =
      (Rolling.crossings (event.toNat + 1) c (c + n)).card := by
  have hle := @Rolling.card_crossings_le_one (event.toNat + 1) c n hn
  rcases e : needEvent event (UInt16.ofNat (c + n)) (UInt16.ofNat c) with - | -
  · symm
    refine Finset.card_eq_zero.mpr (Finset.eq_empty_of_forall_notMem fun t ht => ?_)
    obtain ⟨⟨hlo, hhi⟩, ht⟩ := Rolling.mem_crossings.mp ht
    rw [(needEvent_iff_exists_crossing event c hn).mpr ⟨t, hlo, hhi, ht⟩] at e
    cases e
  · obtain ⟨t, hlo, hhi, ht⟩ := (needEvent_iff_exists_crossing event c hn).mp e
    have hpos := Finset.card_pos.mpr ⟨t, Rolling.mem_crossings.mpr ⟨⟨hlo, hhi⟩, ht⟩⟩
    exact le_antisymm hpos hle

/-- The true answers of a run are as many as the crossings in it. -/
theorem count_answers (event : UInt16) (c : ℕ) {ns : List ℕ} (hns : ∀ n ∈ ns, n < 2 ^ 16) :
    (answers event c ns).count true =
      (Rolling.crossings (event.toNat + 1) c (c + ns.sum)).card := by
  induction ns generalizing c with
  | nil => simp [answers, Rolling.crossings]
  | cons n ns ih =>
      have hhead := toNat_needEvent event c (hns n List.mem_cons_self)
      have htail := ih (c + n) fun k hk => hns k (List.mem_cons_of_mem _ hk)
      rw [answers, List.count_cons, htail, List.sum_cons, ← Nat.add_assoc,
        Rolling.card_crossings_add (Nat.le_add_right c n) (Nat.le_add_right _ ns.sum), ← hhead,
        Nat.add_comm]
      rcases needEvent event (UInt16.ofNat (c + n)) (UInt16.ofNat c) <;> rfl

/-- The answer about the `i`-th batch. -/
theorem getElem?_answers (event : UInt16) (c : ℕ) {ns : List ℕ} {i n : ℕ}
    (h : ns[i]? = some n) :
    (answers event c ns)[i]? = some (needEvent event (UInt16.ofNat (c + (ns.take i).sum + n))
      (UInt16.ofNat (c + (ns.take i).sum))) := by
  induction ns generalizing c i with
  | nil => simp at h
  | cons k ns ih =>
      rcases i with - | i
      · obtain rfl : k = n := by simpa using h
        simp [answers]
      · rw [List.getElem?_cons_succ] at h
        rw [answers, List.getElem?_cons_succ, ih (c + k) h, List.take_succ_cons, List.sum_cons]
        simp only [Nat.add_assoc]

/-! ### The device -/

namespace Device

open Half

/-- A device after `count` completions, `decided` of them before the previous
answer of `needsNotification`.  A call that fails is no answer. -/
inductive History (l : VirtqLayout) : Device → ℕ → ℕ → Prop
  | new : History l (Device.new l true) 0 0
  | popChainHead {d : Device} {m : SharedMem} {decided count : ℕ} :
      History l d decided count → History l (final (popChainHead (d, m))).1 decided count
  | addUsed {d : Device} {m : SharedMem} {decided count : ℕ} {head : UInt16} {len : UInt32}
      {s : Device × SharedMem} : History l d decided count →
      addUsed head len (d, m) = .ok () s → History l s.1 decided (count + 1)
  | addUsed_error {d : Device} {m : SharedMem} {decided count : ℕ} {head : UInt16}
      {len : UInt32} {e : Fault MemError} {s : Device × SharedMem} :
      History l d decided count → addUsed head len (d, m) = .error e s →
      History l s.1 decided count
  | needsNotification {d : Device} {m : SharedMem} {decided count : ℕ} {b : Bool}
      {s : Device × SharedMem} : History l d decided count →
      needsNotification (d, m) = .ok b s → History l s.1 count count
  | needsNotification_error {d : Device} {m : SharedMem} {decided count : ℕ}
      {e : Fault MemError} {s : Device × SharedMem} : History l d decided count →
      needsNotification (d, m) = .error e s → History l s.1 decided count
  | enableNotification {d : Device} {m : SharedMem} {decided count : ℕ} :
      History l d decided count → History l (final (enableNotification (d, m))).1 decided count
  | disableNotification {d : Device} {m : SharedMem} {decided count : ℕ} :
      History l d decided count →
      History l (final (disableNotification (d, m))).1 decided count

/-- The fields of a device whose batch lies between these positions. -/
structure Counts (l : VirtqLayout) (d : Device) (decided count : ℕ) : Prop where
  layout : d.layout = l
  eventIdx : d.eventIdx = true
  nextUsed : d.nextUsed = UInt16.ofNat count
  numAdded : d.numAdded = UInt16.ofNat (count - decided)
  le : decided ≤ count

variable {l : VirtqLayout} {d : Device} {m : SharedMem} {decided count : ℕ}

namespace Counts

theorem new (l : VirtqLayout) : Counts l (Device.new l true) 0 0 :=
  ⟨rfl, rfl, rfl, rfl, le_rfl⟩

/-- One more completion. -/
theorem completed (h : Counts l d decided count) : Counts l d.completed decided (count + 1) where
  layout := h.layout
  eventIdx := h.eventIdx
  nextUsed := by
    rw [Device.completed, h.nextUsed, Rolling.ofNat_succ]
  numAdded := by
    have hle := h.le
    rw [Device.completed, h.numAdded, ← Rolling.ofNat_succ, Nat.succ_sub hle]
  le := h.le.step

/-- A decision starts a new batch. -/
theorem decide (h : Counts l d decided count) :
    Counts l { d with numAdded := 0 } count count where
  layout := h.layout
  eventIdx := h.eventIdx
  nextUsed := h.nextUsed
  numAdded := by rw [Nat.sub_self]; rfl
  le := le_rfl

theorem ends_available (h : Counts l d decided count) :
    Ends (fun s => Counts l s.1 decided count) (available (d, m)) := by
  unfold available
  rw [bind_ok (self_run _)]
  exact Ends.bind (ends_load h) fun _ _ hs => hs

theorem popChainHead (h : Counts l d decided count) :
    Counts l (final (Device.popChainHead (d, m))).1 decided count := by
  refine Ends.final (I := fun s : Device × SharedMem => Counts l s.1 decided count) ?_
  unfold Device.popChainHead
  refine Ends.bind h.ends_available fun n s hs => ?_
  split
  · exact hs
  · rw [bind_ok (self_run _)]
    refine Ends.bind (ends_load hs) fun _ t ht => ?_
    exact { ht with }

theorem enableNotification (h : Counts l d decided count) :
    Counts l (final (Device.enableNotification (d, m))).1 decided count := by
  refine Ends.final (I := fun s : Device × SharedMem => Counts l s.1 decided count) ?_
  unfold Device.enableNotification
  rw [bind_ok (self_run _), if_pos h.eventIdx]
  refine Ends.bind (ends_store fun _ => h) fun _ s hs => ?_
  exact Ends.bind hs.ends_available fun _ _ ht => ht

theorem disableNotification (h : Counts l d decided count) :
    Counts l (final (Device.disableNotification (d, m))).1 decided count := by
  unfold Device.disableNotification
  rw [bind_ok (self_run _), if_pos h.eventIdx]
  exact h

/-- What the batch is asked, if the event can be read. -/
theorem needsNotification_eq (h : Counts l d decided count) {event : UInt16}
    (hload : m.loadRelaxed l.usedEvent = .ok event) :
    Device.needsNotification (d, m) =
      .ok (needEvent event (UInt16.ofNat count) (UInt16.ofNat decided))
        ({ d with numAdded := 0 }, m) := by
  have hold : d.nextUsed - d.numAdded = UInt16.ofNat decided := by
    rw [h.nextUsed, h.numAdded, Rolling.ofNat_sub_ofNat (Nat.sub_le _ _), Nat.sub_sub_self h.le]
  unfold Device.needsNotification
  rw [bind_ok (self_run _), if_neg (by rw [h.eventIdx]; decide),
    bind_ok (load_ok (by rw [h.layout]; exact hload)), ← hold, ← h.nextUsed]
  rfl

theorem needsNotification_error (h : Counts l d decided count) {e : MemError}
    (hload : m.loadRelaxed l.usedEvent = .error e) :
    Device.needsNotification (d, m) = .error (.err e) (d, m) := by
  unfold Device.needsNotification
  rw [bind_ok (self_run _), if_neg (by rw [h.eventIdx]; decide),
    bind_error (load_error (by rw [h.layout]; exact hload))]
  rfl

end Counts

/-- The run lemma: the fields follow the counter through any calls. -/
theorem History.counts (h : History l d decided count) : Counts l d decided count := by
  induction h with
  | new => exact Counts.new l
  | popChainHead _ ih => exact ih.popChainHead
  | @addUsed d m decided count head len s _ hok ih =>
      -- a used slot inside the region decides whether the call is a completion
      rcases Nat.lt_or_ge m.len (d.layout.usedBase d.nextUsed + 8) with hlt | hge
      · obtain ⟨e, m', he, -⟩ := addUsed_fails hlt head len
        cases he.symm.trans hok
      · cases (addUsed_ok hge head len).symm.trans hok
        exact ih.completed
  | @addUsed_error d m decided count head len e s _ herr ih =>
      rcases Nat.lt_or_ge m.len (d.layout.usedBase d.nextUsed + 8) with hlt | hge
      · obtain ⟨e, m', he, -⟩ := addUsed_fails hlt head len
        cases he.symm.trans herr
        exact ih
      · cases (addUsed_ok hge head len).symm.trans herr
  | @needsNotification d m decided count b s _ hok ih =>
      -- only an answer ends the batch
      rcases hload : m.loadRelaxed l.usedEvent with e | event
      · cases (ih.needsNotification_error hload).symm.trans hok
      · cases (ih.needsNotification_eq hload).symm.trans hok
        exact ih.decide
  | @needsNotification_error d m decided count e s _ herr ih =>
      rcases hload : m.loadRelaxed l.usedEvent with e | event
      · cases (ih.needsNotification_error hload).symm.trans herr
        exact ih
      · cases (ih.needsNotification_eq hload).symm.trans herr
  | enableNotification _ ih => exact ih.enableNotification
  | disableNotification _ ih => exact ih.disableNotification

/-- From `s` the device has gone on with its history. -/
def Continues (l : VirtqLayout) (decided count : ℕ) {ω : Type} (s : Process ω × SharedMem) : Prop :=
  ∃ n, History l s.1.dev decided (count + n)

namespace Continues

variable {ω : Type} {s : Process ω × SharedMem}

theorem popChainHead (h : Continues l decided count s) :
    Continues l decided count (final (Process.onDevice Device.popChainHead s)) := by
  obtain ⟨n, h⟩ := h
  rw [Process.onDevice, final_zoom]
  exact ⟨n, h.popChainHead⟩

theorem addUsed (h : Continues l decided count s) (head : UInt16) (len : UInt32) :
    Continues l decided count (final (Process.onDevice (Device.addUsed head len) s)) := by
  obtain ⟨n, h⟩ := h
  rw [Process.onDevice, final_zoom]
  rcases e : Device.addUsed head len (s.1.dev, s.2) with ⟨u, t⟩ | ⟨f, t⟩
  · exact ⟨n + 1, h.addUsed e⟩
  · exact ⟨n, h.addUsed_error e⟩

theorem lift {α : Type} (h : Continues l decided count s) (x : Except (Fault MemError) α) :
    Continues l decided count (final (Process.lift x s)) := by
  unfold Process.lift
  split
  · exact h
  · exact h

/-- Serving a chain completes it once, or fails. -/
theorem serve (h : Continues l decided count s) (work : Work ω) (head : UInt16) :
    Continues l decided count (final (Process.serve work head s)) := by
  unfold Process.serve
  refine final_bind h fun p s h => final_bind h fun mem s h => ?_
  refine final_bind (h.lift _) fun r s h => ?_
  obtain ⟨ds, chainError⟩ := r
  refine final_bind h fun _ s h => ?_
  rcases chainError with - | e
  · refine final_bind h fun _ s h => final_bind h fun _ s h => final_bind h fun response s h => ?_
    refine final_bind (h.lift _) fun r s h => ?_
    obtain ⟨mem, written, unwritable⟩ := r
    refine final_bind h fun _ s h => final_bind h fun _ s h => final_bind h fun _ s h => ?_
    exact final_bind (h.addUsed head written) fun _ s h => final_bind h fun _ s h => h
  · refine final_bind h fun _ s h => ?_
    exact final_bind (h.addUsed head 0) fun _ s h => final_bind h fun _ s h => h

theorem loop (h : Continues l decided count s) (work : Work ω) (fuel : ℕ) :
    Continues l decided count (final (Process.loop work fuel s)) := by
  induction fuel generalizing s with
  | zero => exact h
  | succ fuel ih =>
      unfold Process.loop
      refine final_bind ?_ fun r s h => ?_
      · unfold Process.step
        refine final_bind h.popChainHead fun r s h => ?_
        rcases r with - | head
        · exact h
        · exact final_bind (h.serve work head) fun _ s h => h
      · rcases r with - | c
        · exact h
        · exact ih h

end Continues

/-- However `process` ends, what it did to the device are completions. -/
theorem History.process (h : History l d decided count) {ω : Type} (fuel : ℕ) (work : Work ω)
    (w : ω) (m : SharedMem) :
    Continues l decided count (final (Device.process fuel work w d m)) := by
  have h₀ : Continues l decided count (({ dev := d, stats := {}, work := w } : Process ω), m) :=
    ⟨0, h⟩
  exact final_bind (h₀.loop work fuel) fun _ s h => h

end Device

/-! ### The driver -/

namespace Driver

open Half

/-- A driver after `count` publications, `decided` of them before the previous
call of `needsKick`, which moves `lastKick` also when it fails. -/
inductive History (l : VirtqLayout) : Driver → ℕ → ℕ → Prop
  | new {arenaEnd : ℕ} {d : Driver} : Driver.new l arenaEnd true = some d → History l d 0 0
  | addChain {d : Driver} {m : SharedMem} {decided count : ℕ} {bufs : List Buffer}
      {head : UInt16} {s : Driver × SharedMem} : History l d decided count → bufs ≠ [] →
      readableFirst bufs = true → addChain bufs (d, m) = .ok head s →
      History l s.1 decided (count + 1)
  | addChain_error {d : Driver} {m : SharedMem} {decided count : ℕ} {bufs : List Buffer}
      {e : Fault DriverError} {s : Driver × SharedMem} : History l d decided count → bufs ≠ [] →
      readableFirst bufs = true → addChain bufs (d, m) = .error e s →
      History l s.1 decided count
  | needsKick {d : Driver} {m : SharedMem} {decided count : ℕ} :
      History l d decided count → History l (final (needsKick (d, m))).1 count count
  | collectUsed {d : Driver} {m : SharedMem} {decided count : ℕ} :
      History l d decided count → History l (final (collectUsed (d, m))).1 decided count
  | armUsedEvent {d : Driver} {m : SharedMem} {decided count : ℕ} :
      History l d decided count → History l (final (armUsedEvent (d, m))).1 decided count
  | alloc {d : Driver} {m : SharedMem} {decided count : ℕ} {data : List UInt8} :
      History l d decided count → History l (final (alloc data (d, m))).1 decided count
  | allocUninit {d : Driver} {m : SharedMem} {decided count : ℕ} {len : UInt32} :
      History l d decided count → History l (final (allocUninit len (d, m))).1 decided count

/-- The fields of a driver whose batch lies between these positions. -/
structure Counts (l : VirtqLayout) (d : Driver) (decided count : ℕ) : Prop where
  layout : d.layout = l
  eventIdx : d.eventIdx = true
  owned : d.Owned
  availIdx : d.availIdx = UInt16.ofNat count
  lastKick : d.lastKick = UInt16.ofNat decided
  le : decided ≤ count

variable {l : VirtqLayout} {d : Driver} {m : SharedMem} {decided count : ℕ}

namespace Counts

theorem new {arenaEnd : ℕ} (h : Driver.new l arenaEnd true = some d) : Counts l d 0 0 := by
  obtain ⟨howned, hlayout⟩ := owned_of_new h
  unfold Driver.new at h
  split at h
  · obtain ⟨arena, -, rfl⟩ := Option.map_eq_some_iff.mp h
    exact ⟨rfl, rfl, howned, rfl, rfl, le_rfl⟩
  · cases h

theorem took (h : Counts l d decided count) {head : UInt16} {rest free : List UInt16}
    (hfree : d.freeDescs = free ++ (head :: rest).reverse) :
    Counts l (d.took head rest free) decided count :=
  { h with owned := h.owned.took hfree }

theorem published (h : Counts l d decided count) :
    Counts l d.published decided (count + 1) where
  layout := h.layout
  eventIdx := h.eventIdx
  owned := h.owned
  availIdx := by
    rw [Driver.published, h.availIdx, Rolling.ofNat_succ]
  lastKick := h.lastKick
  le := h.le.step

theorem collected (h : Counts l d decided count) (id : UInt16) :
    Counts l (d.collected id) decided count := by
  have howned := h.owned.collected id
  unfold Driver.collected at howned ⊢
  split at howned
  · exact { h with owned := howned }
  · exact { h with owned := howned }

/-- The collecting loop touches neither counter. -/
theorem collectLoop (h : Counts l d decided count) (u : UInt16) (fuel : ℕ) :
    Counts l (final (Driver.collectLoop u fuel (d, m))).1 decided count := by
  induction fuel generalizing d with
  | zero =>
      unfold Driver.collectLoop
      rw [bind_ok (self_run _)]
      split
      · exact h
      · exact h
  | succ fuel ih =>
      by_cases heq : d.lastUsed = u
      · rw [collectLoop_stop heq]
        exact h
      rw [collectLoop_succ heq]
      rcases collectOne_cases d m with ⟨e, he⟩ | ⟨c, hc⟩
      · rw [bind_error he]
        exact h
      · rw [bind_ok hc]
        exact final_bind (I := fun s : Driver × SharedMem => Counts l s.1 decided count)
          (ih (h.collected c.1)) fun _ _ hs => hs

theorem collectUsed (h : Counts l d decided count) :
    Counts l (final (Driver.collectUsed (d, m))).1 decided count := by
  unfold Driver.collectUsed collectWithin
  rw [bind_ok (self_run _)]
  rcases hu : m.loadIdxAcquire d.layout.usedIdx with e | u
  · rw [bind_error (load_error hu)]
    exact h
  · rw [bind_ok (load_ok hu)]
    exact h.collectLoop u _

/-- A decision starts a new batch, also if the event cannot be read. -/
theorem needsKick (h : Counts l d decided count) :
    Counts l (final (Driver.needsKick (d, m))).1 count count := by
  have h' : Counts l { d with lastKick := d.availIdx } count count :=
    { h with lastKick := h.availIdx, le := le_rfl }
  unfold Driver.needsKick
  rw [bind_ok (self_run _), bind_ok (modifySelf_run _ _), if_neg (by rw [h.eventIdx]; decide)]
  rcases hload : m.loadRelaxed d.layout.availEvent with e | event
  · rw [bind_error (load_error hload)]
    exact h'
  · rw [bind_ok (load_ok hload)]
    exact h'

theorem needsKick_eq (h : Counts l d decided count) {event : UInt16}
    (hload : m.loadRelaxed l.availEvent = .ok event) :
    Driver.needsKick (d, m) =
      .ok (needEvent event (UInt16.ofNat count) (UInt16.ofNat decided))
        ({ d with lastKick := d.availIdx }, m) := by
  unfold Driver.needsKick
  rw [bind_ok (self_run _), bind_ok (modifySelf_run _ _), if_neg (by rw [h.eventIdx]; decide),
    bind_ok (load_ok (by rw [h.layout]; exact hload)), ← h.availIdx, ← h.lastKick]
  rfl

end Counts

/-- The run lemma: the fields follow the counter through any calls. -/
theorem History.counts (h : History l d decided count) : Counts l d decided count := by
  induction h with
  | new hnew => exact Counts.new hnew
  | @addChain d m decided count bufs head s _ hne hord hok ih =>
      -- a chain is published if there are descriptors for it and its slot is in the region
      rcases Nat.lt_or_ge d.freeDescs.length bufs.length with hlt | hge
      · cases (addChain_outOfDescriptors hne hlt).symm.trans hok
      rcases Nat.lt_or_ge m.len (d.layout.availSlot d.availIdx + 2) with hout | hslot
      · obtain ⟨_, _, _, e, m', -, -, he, -⟩ := addChain_fails ih.owned hne hord hge hout
        cases he.symm.trans hok
      · obtain ⟨_, _, _, m', hfree, he⟩ := addChain_returns ih.owned hne hord hge hslot
        cases he.symm.trans hok
        exact (ih.took hfree).published
  | @addChain_error d m decided count bufs e s _ hne hord herr ih =>
      rcases Nat.lt_or_ge d.freeDescs.length bufs.length with hlt | hge
      · cases (addChain_outOfDescriptors hne hlt).symm.trans herr
        exact ih
      rcases Nat.lt_or_ge m.len (d.layout.availSlot d.availIdx + 2) with hout | hslot
      · obtain ⟨_, _, _, e', m', -, hfree, he, -⟩ := addChain_fails ih.owned hne hord hge hout
        cases he.symm.trans herr
        -- the chain took descriptors, but was not published
        exact ih.took hfree
      · obtain ⟨_, _, _, m', -, he⟩ := addChain_returns ih.owned hne hord hge hslot
        cases he.symm.trans herr
  | needsKick _ ih => exact ih.needsKick
  | collectUsed _ ih => exact ih.collectUsed
  | armUsedEvent _ ih =>
      refine Ends.final (I := fun s : Driver × SharedMem => Counts l s.1 _ _) ?_
      unfold Driver.armUsedEvent
      rw [bind_ok (self_run _)]
      exact ends_store fun _ => ih
  | @alloc d m _ _ data _ ih =>
      obtain ⟨arena, m', -, hfinal, -⟩ := alloc_spec data (d, m)
      rw [hfinal]
      exact { ih with }
  | @allocUninit d m _ _ len _ ih =>
      obtain ⟨arena, -, hfinal, -⟩ := allocUninit_spec len (d, m)
      rw [hfinal]
      exact { ih with }

end Driver

/-! ### Every decision of every run -/

/-- For every event, every start of the unbounded counter and all batches below
a full turn: an answer is true exactly if its batch crosses the position after
the event, and over the run there is one true answer for each crossing.
`needsNotification` and `needsKick` decide the same about the completions,
respectively publications, since their previous call; a pass of `process` in
between, however it ends, is so many completions. -/
theorem needEvent_once_per_crossing (event : UInt16) (c₀ : ℕ) {ns : List ℕ}
    (hns : ∀ n ∈ ns, n ≤ 65535) :
    (∀ (i : ℕ) n, ns[i]? = some n →
      ((answers event c₀ ns)[i]? = some true ↔
        ∃ t, c₀ + (ns.take i).sum < t ∧ t ≤ c₀ + (ns.take i).sum + n ∧
          t ≡ event.toNat + 1 [MOD 2 ^ 16])) ∧
    (answers event c₀ ns).count true =
      ((Finset.Ioc c₀ (c₀ + ns.sum)).filter fun t => t ≡ event.toNat + 1 [MOD 2 ^ 16]).card ∧
    (∀ l d decided count m, Device.History l d decided count → count - decided ≤ 65535 →
      m.loadRelaxed l.usedEvent = .ok event →
      ∃ b s, Device.needsNotification (d, m) = .ok b s ∧
        (b = true ↔ ∃ t, decided < t ∧ t ≤ count ∧ t ≡ event.toNat + 1 [MOD 2 ^ 16])) ∧
    (∀ l d decided count m, Driver.History l d decided count → count - decided ≤ 65535 →
      m.loadRelaxed l.availEvent = .ok event →
      ∃ b s, Driver.needsKick (d, m) = .ok b s ∧
        (b = true ↔ ∃ t, decided < t ∧ t ≤ count ∧ t ≡ event.toNat + 1 [MOD 2 ^ 16])) ∧
    (∀ l d decided count, Device.History l d decided count →
      ∀ (ω : Type) fuel (work : Work ω) w m, ∃ n,
        Device.History l (final (Device.process fuel work w d m)).1.dev decided (count + n)) := by
  have hlt : ∀ n ∈ ns, n < 2 ^ 16 := fun n hn => Nat.lt_of_le_of_lt (hns n hn) (by norm_num)
  refine ⟨fun i n hi => ?_, count_answers event c₀ hlt, ?_, ?_, ?_⟩
  · rw [getElem?_answers event c₀ hi, Option.some.injEq,
      needEvent_iff_exists_crossing event _ (hlt n (List.mem_of_getElem? hi))]
  · intro l d decided count m h hle hload
    have hc := h.counts
    obtain ⟨n, rfl⟩ := Nat.exists_eq_add_of_le hc.le
    exact ⟨_, _, hc.needsNotification_eq hload,
      needEvent_iff_exists_crossing event decided (by omega)⟩
  · intro l d decided count m h hle hload
    have hc := h.counts
    obtain ⟨n, rfl⟩ := Nat.exists_eq_add_of_le hc.le
    exact ⟨_, _, hc.needsKick_eq hload, needEvent_iff_exists_crossing event decided (by omega)⟩
  · exact fun l d decided count h ω fuel work w m => h.process fuel work w m

/-- Three batches around the wrap: the second steps over the target, and the
third does not meet it again. -/
theorem needEvent_once_per_crossing_wrap :
    (answers 65535 65530 [3, 40, 70]) = [false, true, false] ∧
    (answers 65535 65530 [3, 40, 70]).count true =
      ((Finset.Ioc 65530 65643).filter fun t => t ≡ 65536 [MOD 2 ^ 16]).card :=
  ⟨by decide, (@needEvent_once_per_crossing 65535 65530 [3, 40, 70] (by decide)).2.1⟩

end SystemsStudy
