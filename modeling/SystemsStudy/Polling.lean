/-
SystemsStudy/Polling.lean

What a failed `collectUsed` or `needsKick` leaves behind.

`collectUsed` advances its counter and frees descriptors slot by slot, and an
unreadable slot ends it with the completions before that slot dropped.
`needsKick` moves `lastKick` before it reads `avail_event`, where the device's
`needsNotification` reads first.  So both calls can lose something:
`collectUsed` if the slot it fails at is not the first, `needsKick` if chains
were published since the previous call.

`CollectsAll` and `KickDecides` are the exact conditions under which a call
keeps the driver as it was on error.  Where every call of a run meets its
condition, the counters of the driver are those of the caller's `Ledger`, which
only knows what the successful calls returned.
-/
import SystemsStudy.Ownership

namespace SystemsStudy

open Bytes Fallible

/-- The completion in the used slot of position `pos`. -/
def VirtqLayout.completionAt (l : VirtqLayout) (m : SharedMem) (pos : UInt16) :
    UInt16 × UInt32 :=
  ((m.word32 (l.usedBase pos)).toUInt16, m.word32 (l.usedBase pos + 4))

namespace Driver

open Half

variable {d : Driver} {m : SharedMem}

/-- If the call returns an error, then the driver is as before in the fields
that polling changes. -/
def KeptOnError {α : Type} (call : DriverM MemError α) (d : Driver) (m : SharedMem) : Prop :=
  ∀ e d' m', call (d, m) = .error (.err e) (d', m') →
    d'.lastUsed = d.lastUsed ∧ d'.freeDescs = d.freeDescs ∧ d'.outstanding = d.outstanding ∧
    d'.lastKick = d.lastKick

/-- The used slot of the `i`-th completion from here lies in the region. -/
def SlotInside (d : Driver) (m : SharedMem) (i : ℕ) : Prop :=
  d.layout.usedBase (d.lastUsed + UInt16.ofNat i) + 8 ≤ m.len

/-- How many completions the device has published since the last collected. -/
def waiting (d : Driver) (m : SharedMem) : ℕ :=
  (m.word16 d.layout.usedIdx - d.lastUsed).toNat

/-- If the first slot to read lies in the region, then so do all the slots of
the published completions. -/
def CollectsAll (d : Driver) (m : SharedMem) : Prop :=
  d.SlotInside m 0 → ∀ i < d.waiting m, d.SlotInside m i

/-- The decision does not need `avail_event`, or can read it, or there is
nothing to decide about. -/
def KickDecides (d : Driver) (m : SharedMem) : Prop :=
  d.eventIdx = false ∨ d.layout.availEvent + 2 ≤ m.len ∨ d.lastKick = d.availIdx

/-! ### The collecting loop, slot by slot -/

/-- The driver after collecting `n` completions. -/
def collectedN (m : SharedMem) : ℕ → Driver → Driver
  | 0, d => d
  | n + 1, d => collectedN m n (d.collected (d.nextCompletion m).1)

theorem lastUsed_collectedN (n : ℕ) :
    (collectedN m n d).lastUsed = d.lastUsed + UInt16.ofNat n := by
  induction n generalizing d with
  | zero => exact (UInt16.add_zero _).symm
  | succ n ih =>
      rw [collectedN, ih, lastUsed_collected, Rolling.ofNat_succ]
      grind

theorem lastKick_collectedN (n : ℕ) : (collectedN m n d).lastKick = d.lastKick := by
  induction n generalizing d with
  | zero => rfl
  | succ n ih =>
      rw [collectedN, ih, Driver.collected]
      split <;> rfl

/-- Without room for its slot the completion is not collected. -/
theorem collectOne_outside (hb : m.len < d.layout.usedBase d.lastUsed + 8) :
    ∃ e, collectOne (d, m) = .error (.err e) (d, m) := by
  have h₁ := m.readU32_eq (d.layout.usedBase d.lastUsed)
  have h₂ := m.readU32_eq (d.layout.usedBase d.lastUsed + 4)
  rw [if_neg (by omega)] at h₂
  unfold collectOne
  rw [bind_ok (self_run _)]
  simp only [VirtqLayout.usedSlot_eq]
  by_cases hid : d.layout.usedBase d.lastUsed + 4 ≤ m.len
  · rw [if_pos hid] at h₁
    rw [bind_ok (load_ok h₁), bind_error (load_error h₂)]
    exact ⟨_, rfl⟩
  · rw [if_neg hid] at h₁
    rw [bind_error (load_error h₁)]
    exact ⟨_, rfl⟩

theorem slotInside_collected (id : UInt16) (i : ℕ) :
    (d.collected id).SlotInside m i ↔ d.SlotInside m (i + 1) := by
  have hpos : d.lastUsed + 1 + UInt16.ofNat i = d.lastUsed + UInt16.ofNat (i + 1) := by
    rw [Rolling.ofNat_succ]
    grind
  rw [SlotInside, SlotInside, layout_collected, lastUsed_collected, hpos]

/-- The loop collects everything up to the index, or everything before the
first slot that is not in the region. -/
theorem collectLoop_cases {u : UInt16} {fuel : ℕ} (hfuel : (u - d.lastUsed).toNat ≤ fuel) :
    ((∀ i < (u - d.lastUsed).toNat, d.SlotInside m i) ∧
      collectLoop u fuel (d, m) = .ok
        ((List.range (u - d.lastUsed).toNat).map fun i =>
          d.layout.completionAt m (d.lastUsed + UInt16.ofNat i))
        (collectedN m (u - d.lastUsed).toNat d, m)) ∨
    ∃ k < (u - d.lastUsed).toNat, (∀ i < k, d.SlotInside m i) ∧ ¬ d.SlotInside m k ∧
      ∃ e, collectLoop u fuel (d, m) = .error (.err e) (collectedN m k d, m) := by
  induction fuel generalizing d with
  | zero =>
      have hz : u - d.lastUsed = 0 := UInt16.toNat_inj.mp (Nat.le_zero.mp hfuel)
      rw [hz, collectLoop_stop (by grind)]
      exact .inl ⟨fun i hi => absurd hi (Nat.not_lt_zero i), rfl⟩
  | succ fuel ih =>
      by_cases heq : d.lastUsed = u
      · rw [collectLoop_stop heq, heq, UInt16.sub_self]
        exact .inl ⟨fun i hi => absurd hi (Nat.not_lt_zero i), rfl⟩
      have hdist := Rolling.toNat_sub_one (x := u - d.lastUsed) (by grind)
      rw [collectLoop_succ heq]
      by_cases hslot : d.SlotInside m 0
      · -- the slot is collected, and the rest of the loop runs on the driver after it
        have hb : d.layout.usedBase d.lastUsed + 8 ≤ m.len := by
          simpa [SlotInside] using hslot
        rw [bind_ok (collectOne_of_slot hb)]
        set d₁ := d.collected (d.nextCompletion m).1 with hd₁
        have hsub : u - d₁.lastUsed = u - d.lastUsed - 1 := by
          rw [hd₁, lastUsed_collected]
          grind
        have hinside : ∀ i, d₁.SlotInside m i ↔ d.SlotInside m (i + 1) :=
          slotInside_collected _
        have hn : (u - d.lastUsed).toNat = (u - d₁.lastUsed).toNat + 1 := by
          rw [hsub]
          omega
        rw [hn]
        rcases ih (d := d₁) (by omega) with ⟨hall, hrun⟩ | ⟨k, hk, hbefore, hout, e, hrun⟩
        · refine .inl ⟨?_, ?_⟩
          · rintro (- | i) hi
            · exact hslot
            · exact (hinside i).mp (hall i (by omega))
          · rw [bind_ok hrun, List.range_succ_eq_map, List.map_cons, List.map_map]
            have hhead : d.nextCompletion m =
                d.layout.completionAt m (d.lastUsed + UInt16.ofNat 0) := by
              simp [nextCompletion, VirtqLayout.completionAt]
            have htail : ∀ i, d₁.layout.completionAt m (d₁.lastUsed + UInt16.ofNat i) =
                d.layout.completionAt m (d.lastUsed + UInt16.ofNat (i + 1)) := by
              intro i
              rw [hd₁, layout_collected, lastUsed_collected, Rolling.ofNat_succ]
              congr 1
              grind
            rw [← hhead]
            simp only [Function.comp_def, Nat.succ_eq_add_one, ← htail]
            rfl
        · refine .inr ⟨k + 1, by omega, ?_, fun h => hout ((hinside k).mpr h), e, ?_⟩
          · rintro (- | i) hi
            · exact hslot
            · exact (hinside i).mp (hbefore i (by omega))
          · rw [bind_error hrun]
            rfl
      · obtain ⟨e, he⟩ := collectOne_outside (d := d) (m := m) (by
          simpa [SlotInside] using hslot)
        rw [bind_error he]
        exact .inr ⟨0, by omega, fun i hi => absurd hi (Nat.not_lt_zero i), hslot, e, rfl⟩

/-! ### A single call -/

/-- A region that holds the next used slot holds the used index. -/
theorem usedIdx_inside (h : d.SlotInside m 0) : d.layout.usedIdx + 2 ≤ m.len := by
  have hidx := d.layout.usedIdx_add_le (d.lastUsed + UInt16.ofNat 0)
  rw [SlotInside] at h
  omega

/-- What `collectUsed` does: it cannot read the index, it collects all that
was published, or it stops at the first slot that is not in the region. -/
theorem collectUsed_cases (d : Driver) (m : SharedMem) :
    (¬ d.SlotInside m 0 ∧ ∃ e, collectUsed (d, m) = .error (.err e) (d, m)) ∨
    ((∀ i < d.waiting m, d.SlotInside m i) ∧
      collectUsed (d, m) = .ok
        ((List.range (d.waiting m)).map fun i =>
          d.layout.completionAt m (d.lastUsed + UInt16.ofNat i))
        (collectedN m (d.waiting m) d, m)) ∨
    ∃ k < d.waiting m, (∀ i < k, d.SlotInside m i) ∧ ¬ d.SlotInside m k ∧
      ∃ e, collectUsed (d, m) = .error (.err e) (collectedN m k d, m) := by
  unfold collectUsed collectWithin
  rw [bind_ok (self_run _)]
  have hload := m.readU16_eq d.layout.usedIdx
  by_cases hidx : d.layout.usedIdx + 2 ≤ m.len
  · rw [if_pos hidx] at hload
    rw [bind_ok (load_ok hload)]
    exact .inr (collectLoop_cases (UInt16.toNat_lt _).le)
  · rw [if_neg hidx] at hload
    rw [bind_error (load_error hload)]
    exact .inl ⟨fun h => hidx (usedIdx_inside h), _, rfl⟩

theorem waiting_lt (d : Driver) (m : SharedMem) : d.waiting m < 2 ^ 16 := UInt16.toNat_lt _

theorem collectUsed_kept_iff (d : Driver) (m : SharedMem) :
    KeptOnError collectUsed d m ↔ d.CollectsAll m := by
  constructor
  · intro hkept hfirst
    rcases collectUsed_cases d m with ⟨hno, -⟩ | ⟨hall, -⟩ | ⟨k, hk, -, hout, e, hrun⟩
    · exact absurd hfirst hno
    · exact hall
    · -- the counter has moved past the slots before the unreadable one
      have hmoved : d.lastUsed + UInt16.ofNat k = d.lastUsed :=
        (lastUsed_collectedN k).symm.trans (hkept e _ _ hrun).1
      have hlt := waiting_lt d m
      have hzero : UInt16.ofNat k = UInt16.ofNat 0 := by grind
      obtain rfl : k = 0 := (Rolling.ofNat_inj (Nat.zero_le k) (by omega)).mp hzero
      exact absurd hfirst hout
  · intro hall e d' m' herr
    rcases collectUsed_cases d m with ⟨-, e', hrun⟩ | ⟨-, hrun⟩ | ⟨k, hk, hbefore, hout, e', hrun⟩
    · cases hrun.symm.trans herr
      exact ⟨rfl, rfl, rfl, rfl⟩
    · cases hrun.symm.trans herr
    · rcases k with - | k
      · cases hrun.symm.trans herr
        exact ⟨rfl, rfl, rfl, rfl⟩
      · exact absurd (hall (hbefore 0 (Nat.zero_lt_succ k)) _ hk) hout

/-- What `needsKick` does: in either case `lastKick` has moved. -/
theorem needsKick_cases (d : Driver) (m : SharedMem) :
    ((d.eventIdx = false ∨ d.layout.availEvent + 2 ≤ m.len) ∧
      needsKick (d, m) = .ok
        (!d.eventIdx || needEvent (m.word16 d.layout.availEvent) d.availIdx d.lastKick)
        ({ d with lastKick := d.availIdx }, m)) ∨
    (¬ (d.eventIdx = false ∨ d.layout.availEvent + 2 ≤ m.len) ∧
      ∃ e, needsKick (d, m) = .error (.err e) ({ d with lastKick := d.availIdx }, m)) := by
  have hload := m.readU16_eq d.layout.availEvent
  unfold needsKick
  rw [bind_ok (self_run _), bind_ok (modifySelf_run _ _)]
  rcases he : d.eventIdx with - | -
  · exact .inl ⟨.inl rfl, rfl⟩
  · by_cases hin : d.layout.availEvent + 2 ≤ m.len
    · rw [if_pos hin] at hload
      rw [if_neg (by decide), bind_ok (load_ok hload)]
      exact .inl ⟨.inr hin, rfl⟩
    · rw [if_neg hin] at hload
      rw [if_neg (by decide), bind_error (load_error hload)]
      exact .inr ⟨by simpa using hin, _, rfl⟩

theorem needsKick_kept_iff (d : Driver) (m : SharedMem) :
    KeptOnError needsKick d m ↔ d.KickDecides m := by
  rw [KickDecides, ← or_assoc]
  rcases needsKick_cases d m with ⟨hin, hrun⟩ | ⟨hout, e, hrun⟩
  · refine iff_of_true (fun e d' m' herr => ?_) (.inl hin)
    cases hrun.symm.trans herr
  · rw [or_iff_right hout]
    constructor
    · intro hkept
      exact (hkept e _ _ hrun).2.2.2.symm
    · intro hsame e' d' m' herr
      cases hrun.symm.trans herr
      exact ⟨rfl, rfl, rfl, hsame.symm⟩

end Driver

/-! ### Runs -/

/-- What the caller knows from the results it got. -/
structure Ledger where
  /-- completions reported so far -/
  reported : ℕ := 0
  /-- `availIdx` at the last decision it was told -/
  decided : UInt16 := 0

namespace DriverOp

/-- The ledger after a call. -/
def note (g : Ledger) : DriverOp → Driver × SharedMem → Ledger
  | collectUsed, s =>
      match Driver.collectUsed s with
      | .ok cs _ => { g with reported := g.reported + cs.length }
      | .error _ _ => g
  | needsKick, s =>
      match Driver.needsKick s with
      | .ok _ _ => { g with decided := s.1.availIdx }
      | .error _ _ => g
  | _, _ => g

/-- A call that keeps the driver if it fails. -/
def Keeps : DriverOp → Driver → SharedMem → Prop
  | collectUsed, d, m => d.CollectsAll m
  | needsKick, d, m => d.KickDecides m
  | _, _, _ => True

end DriverOp

namespace Driver

open Half

variable {d : Driver} {m : SharedMem}

/-- The ledger after a script of calls. -/
def ledger (d : Driver) (g : Ledger) : List (DriverOp × SharedMem) → Ledger
  | [] => g
  | o :: script => ledger (o.1.after (d, o.2)).1 (o.1.note g (d, o.2)) script

/-- Every call of the script keeps the driver if it fails. -/
def Keeps (d : Driver) : List (DriverOp × SharedMem) → Prop
  | [] => True
  | o :: script => o.1.Keeps d o.2 ∧ Keeps (o.1.after (d, o.2)).1 script

/-- The counters of the driver stand where the ledger says. -/
structure Follows (d : Driver) (g : Ledger) : Prop where
  owned : d.Owned
  lastUsed : d.lastUsed = UInt16.ofNat g.reported
  lastKick : d.lastKick = g.decided

theorem follows_of_new {l : VirtqLayout} {arenaEnd : ℕ} {eventIdx : Bool}
    (h : Driver.new l arenaEnd eventIdx = some d) : d.Follows {} := by
  have howned := (owned_of_new h).1
  unfold Driver.new at h
  split at h
  · obtain ⟨arena, -, rfl⟩ := Option.map_eq_some_iff.mp h
    exact ⟨howned, rfl, rfl⟩
  · cases h

/-- A call that keeps both counters. -/
theorem Follows.kept {g : Ledger} (h : d.Follows g) {d' : Driver} (howned : d'.Owned)
    (hused : d'.lastUsed = d.lastUsed) (hkick : d'.lastKick = d.lastKick) : d'.Follows g :=
  ⟨howned, hused.trans h.lastUsed, hkick.trans h.lastKick⟩

/-- The step lemma: a call that keeps the driver on error moves its counters as
far as it reports. -/
theorem Follows.after {g : Ledger} (h : d.Follows g) {op : DriverOp} (hop : op.Asserts)
    (hkeeps : op.Keeps d m) : (op.after (d, m)).1.Follows (op.note g (d, m)) := by
  have howned := (h.owned.after hop m).1
  cases op with
  -- the ledger records collections and decisions only
  | addChain bufs =>
      rcases addChain_ends h.owned hop.1 hop.2 m with ⟨-, he⟩ | ⟨head, rest, free, -, -, hends, -⟩
      · exact h.kept howned (by rw [DriverOp.after, he]; rfl) (by rw [DriverOp.after, he]; rfl)
      · rcases hends.final with hd | hd
        · exact h.kept howned (by rw [DriverOp.after, hd]; rfl) (by rw [DriverOp.after, hd]; rfl)
        · exact h.kept howned (by rw [DriverOp.after, hd]; rfl) (by rw [DriverOp.after, hd]; rfl)
  | collectUsed =>
      have hall : d.CollectsAll m := hkeeps
      -- out of region, all collected, or stopped at an unreadable entry
      rcases collectUsed_cases d m with ⟨-, e, hrun⟩ | ⟨-, hrun⟩ | ⟨k, hk, hbefore, hout, e, hrun⟩
      · simp only [DriverOp.after, DriverOp.note, hrun, final_error] at howned ⊢
        exact h
      · simp only [DriverOp.after, DriverOp.note, hrun, final_ok] at howned ⊢
        refine ⟨howned, ?_, (lastKick_collectedN _).trans h.lastKick⟩
        rw [lastUsed_collectedN, h.lastUsed, List.length_map, List.length_range, UInt16.ofNat_add]
      · rcases k with - | k
        · simp only [DriverOp.after, DriverOp.note, hrun, final_error] at howned ⊢
          exact h
        · exact absurd (hall (hbefore 0 (Nat.zero_lt_succ k)) _ hk) hout
  | needsKick =>
      -- an unreadable event is harmless only where the decision was already made at this index
      have hdec : d.KickDecides m := hkeeps
      rcases needsKick_cases d m with ⟨-, hrun⟩ | ⟨hout, e, hrun⟩
      · simp only [DriverOp.after, DriverOp.note, hrun, final_ok] at howned ⊢
        exact ⟨howned, h.lastUsed, rfl⟩
      · rw [KickDecides, ← or_assoc, or_iff_right hout] at hdec
        simp only [DriverOp.after, DriverOp.note, hrun, final_error] at howned ⊢
        exact ⟨howned, h.lastUsed, hdec.symm.trans h.lastKick⟩
  | armUsedEvent =>
      have hends : Ends (fun s : Driver × SharedMem => s.1 = d) (Driver.armUsedEvent (d, m)) := by
        unfold Driver.armUsedEvent
        rw [bind_ok (self_run _)]
        exact ends_store fun _ => rfl
      have hd : (DriverOp.armUsedEvent.after (d, m)).1 = d := hends.final
      rw [hd]
      exact h
  | alloc data =>
      obtain ⟨arena, m', -, hfinal, -⟩ := alloc_spec data (d, m)
      rw [DriverOp.after, hfinal]
      exact ⟨h.owned, h.lastUsed, h.lastKick⟩
  | allocUninit len =>
      obtain ⟨arena, -, hfinal, -⟩ := allocUninit_spec len (d, m)
      rw [DriverOp.after, hfinal]
      exact ⟨h.owned, h.lastUsed, h.lastKick⟩

/-- The run lemma. -/
theorem Follows.runScript {g : Ledger} (h : d.Follows g) {script : List (DriverOp × SharedMem)}
    (hscript : ∀ o ∈ script, o.1.Asserts) (hkeeps : d.Keeps script) :
    (d.runScript script).Follows (d.ledger g script) := by
  induction script generalizing d g with
  | nil => exact h
  | cons o script ih =>
      exact ih (h.after (hscript o List.mem_cons_self) hkeeps.1)
        (fun o' ho' => hscript o' (List.mem_cons_of_mem _ ho')) hkeeps.2

/-- In every state the driver can reach, whatever the region: a failed poll
keeps the driver exactly under its condition.  And in every run in which all
calls meet their conditions, what was reported and decided is never lost: the
next `collectUsed` reports each completion since the last reported one, once
and in order, and the next `needsKick` decides about all chains published since
the last decision that was returned. -/
theorem polls_keep_driver_iff {l : VirtqLayout} {arenaEnd : ℕ} {eventIdx : Bool} {d₀ : Driver}
    (hnew : Driver.new l arenaEnd eventIdx = some d₀) {script : List (DriverOp × SharedMem)}
    (hscript : ∀ o ∈ script, o.1.Asserts) :
    let d := d₀.runScript script
    let g := d₀.ledger {} script
    (∀ m, KeptOnError collectUsed d m ∧ KeptOnError needsKick d m ↔
      d.CollectsAll m ∧ d.KickDecides m) ∧
    (d₀.Keeps script →
      (∀ m cs s, collectUsed (d, m) = .ok cs s →
        cs = (List.range (m.word16 l.usedIdx - UInt16.ofNat g.reported).toNat).map fun i =>
          l.completionAt m (UInt16.ofNat (g.reported + i))) ∧
      ∀ m b s, needsKick (d, m) = .ok b s →
        b = (!d.eventIdx || needEvent (m.word16 l.availEvent) d.availIdx g.decided)) := by
  have hlayout : (d₀.runScript script).layout = l :=
    ((owned_of_new hnew).1.runScript hscript).2.trans (owned_of_new hnew).2
  intro d g
  refine ⟨fun m => and_congr (collectUsed_kept_iff d m) (needsKick_kept_iff d m), fun hkeeps => ?_⟩
  -- the ledger mirrors the cursors along the whole script
  have hf : d.Follows g := (follows_of_new hnew).runScript hscript hkeeps
  constructor
  · intro m cs s hok
    rcases collectUsed_cases d m with ⟨-, e, hrun⟩ | ⟨-, hrun⟩ | ⟨k, -, -, -, e, hrun⟩
    · cases hrun.symm.trans hok
    · cases hrun.symm.trans hok
      rw [waiting, hlayout, hf.lastUsed]
      simp only [UInt16.ofNat_add]
    · cases hrun.symm.trans hok
  · intro m b s hok
    rcases needsKick_cases d m with ⟨-, hrun⟩ | ⟨-, e, hrun⟩
    · cases hrun.symm.trans hok
      rw [hlayout, hf.lastKick]
    · cases hrun.symm.trans hok

/-- A region that ends before the avail event. -/
def beforeAvailEvent : SharedMem := SharedMem.new 36 (by decide)

/-- One chain published, and nothing polled. -/
def publishOne : List (DriverOp × SharedMem) := [(.addChain [⟨48, 1, true⟩], emptyRegion)]

theorem polls_keep_driver_iff_publishOne :
    (∀ o ∈ publishOne, o.1.Asserts) ∧ unitDriver.Keeps publishOne ∧
    (KeptOnError collectUsed (unitDriver.runScript publishOne) emptyRegion ∧
        KeptOnError needsKick (unitDriver.runScript publishOne) emptyRegion ↔
      (unitDriver.runScript publishOne).CollectsAll emptyRegion ∧
        (unitDriver.runScript publishOne).KickDecides emptyRegion) ∧
    ∀ m b s, needsKick (unitDriver.runScript publishOne, m) = .ok b s →
      b = (!(unitDriver.runScript publishOne).eventIdx ||
        needEvent (m.word16 unitQueue.availEvent) (unitDriver.runScript publishOne).availIdx
          (unitDriver.ledger {} publishOne).decided) := by
  have hscript : ∀ o ∈ publishOne, o.1.Asserts := by
    simp [publishOne, DriverOp.Asserts, readableFirst]
  have hkeeps : unitDriver.Keeps publishOne := ⟨trivial, trivial⟩
  exact ⟨hscript, hkeeps, (polls_keep_driver_iff new_unitQueue hscript).1 emptyRegion,
    ((polls_keep_driver_iff new_unitQueue hscript).2 hkeeps).2⟩

/-- Two completions are published, and the region ends inside the second slot. -/
def halfAnswered : SharedMem := (SharedMem.new 60 (by decide)).put 46 [2, 0]

/-- The same completions in a region that holds both slots. -/
def answered : SharedMem := (SharedMem.new 67 (by decide)).put 46 [2, 0]

/-- A kick that is due is lost: the call fails, and the retry finds no chain to
decide about.  A completion is lost: the call fails after the first of two
slots, and the retry reports the second only. -/
theorem failed_poll_loses_progress :
    (∃ d, d = unitDriver.runScript publishOne ∧
      (∃ e, needsKick (d, beforeAvailEvent) =
        .error (.err e) ({ d with lastKick := 1 }, beforeAvailEvent)) ∧
      d.lastKick = 0 ∧ ¬ KeptOnError needsKick d beforeAvailEvent ∧
      (∃ s, needsKick (d, emptyRegion) = .ok true s) ∧
      ∃ s, needsKick ({ d with lastKick := 1 }, emptyRegion) = .ok false s) ∧
    ∃ d, Driver.new pairQueue 100 true = some d ∧
      (∃ e, collectUsed (d, halfAnswered) =
        .error (.err e) ({ d with lastUsed := 1 }, halfAnswered)) ∧
      d.lastUsed = 0 ∧ ¬ KeptOnError collectUsed d halfAnswered ∧
      (∃ s, collectUsed (d, answered) = .ok [(0, 0), (0, 0)] s) ∧
      ∃ s, collectUsed ({ d with lastUsed := 1 }, answered) = .ok [(0, 0)] s := by
  refine ⟨⟨_, rfl, ⟨.outOfBounds 36 2 36, rfl⟩, rfl, fun h => ?_, ⟨_, rfl⟩, ⟨_, rfl⟩⟩, _, rfl,
    ⟨.outOfBounds 60 4 60, rfl⟩, rfl, fun h => ?_, ⟨_, rfl⟩, ⟨_, rfl⟩⟩
  · exact absurd (h (.outOfBounds 36 2 36) _ _ rfl).2.2.2 (by decide)
  · exact absurd (h (.outOfBounds 60 4 60) _ _ rfl).1 (by decide)

end Driver

end SystemsStudy
