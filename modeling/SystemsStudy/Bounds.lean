/-
SystemsStudy/Bounds.lean

The fourth bound.

Every descriptor's buffer has to lie inside the shared region, but the walk does
not test this; it is left to the accesses.  The gather loop reads every readable
buffer in full, so those are tested.  The scatter loop tests the bytes it is
about to write: a buffer the response does not reach is not tested at all, and
the one where the response ends only as far as it goes.

`ReachesOutside` is the condition that the response gets past the end of the
region; apart from a readable buffer nothing else makes the device refuse a
chain that was walked without an error (`outside_refused_iff`).
-/
import SystemsStudy.Transfer

namespace SystemsStudy

open Fallible

variable {ω : Type}

/-- Some buffer of the chain does not lie in the region. -/
def Outside (m : SharedMem) (ds : List Descriptor) : Prop :=
  ∃ e ∈ ds, m.len < e.addr.toNat + e.len.toNat

/-- A response of `total` bytes gets past the end of the region in one of the
buffers: some of it is left after the earlier ones, and what goes into this one
does not fit. -/
def ReachesOutside (m : SharedMem) (total : ℕ) (ws : List BufferRef) : Prop :=
  ∃ ws₁ b ws₂, ws = ws₁ ++ b :: ws₂ ∧ refsLen ws₁ < total ∧
    m.len < b.1.toNat + min b.2.toNat (total - refsLen ws₁)

/-- The pieces of the scatter loop, by the buffer they are for. -/
theorem mem_pieces_iff {total : ℕ} {ws : List BufferRef} {cursor : ℕ} {q : ℕ × ℕ} :
    q ∈ pieces total ws cursor ↔ ∃ ws₁ b ws₂, ws = ws₁ ++ b :: ws₂ ∧
      cursor + refsLen ws₁ < total ∧
      q = (b.1.toNat, min b.2.toNat (total - (cursor + refsLen ws₁))) := by
  induction ws generalizing cursor with
  | nil => simp [pieces]
  | cons b rest ih =>
      obtain ⟨addr, n⟩ := b
      rw [pieces]
      constructor
      · intro hq
        split at hq
        · cases hq
        rcases List.mem_cons.mp hq with rfl | hq
        · exact ⟨[], (addr, n), rest, rfl, by simp only [refsLen_nil]; omega, rfl⟩
        · obtain ⟨ws₁, b, ws₂, rfl, hlt, rfl⟩ := ih.mp hq
          -- some is left after this buffer, so it was filled
          refine ⟨(addr, n) :: ws₁, b, ws₂, rfl, ?_, ?_⟩
          · rw [refsLen_cons]
            dsimp only
            omega
          · rw [refsLen_cons]
            dsimp only
            rw [show cursor + min n.toNat (total - cursor) + refsLen ws₁ =
              cursor + (n.toNat + refsLen ws₁) by omega]
      · rintro ⟨ws₁, b, ws₂, heq, hlt, rfl⟩
        rcases ws₁ with - | ⟨b₁, ws₁⟩
        · obtain ⟨rfl, rfl⟩ := List.cons.inj heq
          rw [refsLen_nil] at hlt ⊢
          rw [if_neg (by omega)]
          exact List.mem_cons_self
        · obtain ⟨rfl, rfl⟩ := List.cons.inj heq
          rw [refsLen_cons] at hlt ⊢
          dsimp only at hlt ⊢
          rw [if_neg (by omega)]
          refine List.mem_cons_of_mem _ (ih.mpr ⟨ws₁, b, ws₂, rfl, by omega, ?_⟩)
          rw [show cursor + min n.toNat (total - cursor) + refsLen ws₁ =
            cursor + (n.toNat + refsLen ws₁) by omega]
          rfl

/-- All pieces fit unless the response reaches outside. -/
theorem forall_fits_iff {m : SharedMem} {total : ℕ} {ws : List BufferRef} :
    (∀ q ∈ pieces total ws 0, fits m.len q = true) ↔ ¬ ReachesOutside m total ws := by
  constructor
  · rintro h ⟨ws₁, b, ws₂, rfl, hlt, hout⟩
    have hfit := h _ (mem_pieces_iff.mpr ⟨ws₁, b, ws₂, rfl, by omega, rfl⟩)
    rw [fits, decide_eq_true_eq, Nat.zero_add] at hfit
    dsimp only at hfit
    omega
  · intro h q hq
    obtain ⟨ws₁, b, ws₂, rfl, hlt, rfl⟩ := mem_pieces_iff.mp hq
    rw [Nat.zero_add] at hlt ⊢
    rw [fits, decide_eq_true_eq]
    by_contra hout
    exact h ⟨ws₁, b, ws₂, rfl, hlt, Nat.lt_of_not_le hout⟩

namespace Process

variable {work : Work ω} {s s' : Process ω × SharedMem}

/-- The iteration from `s` to `s'` recorded a rejection for `head`. -/
def Rejects (s s' : Process ω × SharedMem) (head : UInt16) : Prop :=
  ∃ new reason, s'.1.stats.rejected = s.1.stats.rejected ++ new ∧ (head, reason) ∈ new

/-- A chain that was walked without an error is rejected for an unreadable
buffer, or for a response that reaches outside, and for nothing else. -/
theorem rejects_iff {st : ProcessStats} {head : UInt16} {ds : List Descriptor}
    {response : List UInt8} {m m' : SharedMem} {written : UInt32} {err : Option MemError}
    (hsc : ScatterSpec response (writableOf ds) m 0 0 m' written err) :
    (∃ new reason, (st.served head ds (gather m (readableOf ds)) written err).rejected =
      st.rejected ++ new ∧ (head, reason) ∈ new) ↔
      (∃ b ∈ readableOf ds, m.len < b.1.toNat + b.2.toNat) ∨
        ReachesOutside m response.length (writableOf ds) := by
  have hiff := (@served_rejected_iff st head _ _ _ _ _ _ hsc).not
  rw [forall_fits_iff, not_and_or, not_not] at hiff
  simp only [not_forall, exists_prop, Nat.not_le] at hiff
  rw [← hiff]
  constructor
  · -- an entry for this head is a change of the list
    rintro ⟨new, reason, heq, hmem⟩ hsame
    rw [heq] at hsame
    have hnil : new = [] := List.append_right_eq_self.mp hsame
    rw [hnil] at hmem
    cases hmem
  · intro hne
    -- all entries that a served chain adds carry its head
    rcases he : (gather m (readableOf ds)).2 ++ err.toList with - | ⟨e, es⟩
    · refine absurd ?_ hne
      rw [ProcessStats.served, he]
      exact List.append_nil _
    · refine ⟨((e :: es).map fun e => (head, .buffer e)), .buffer e, ?_, List.mem_cons_self⟩
      rw [ProcessStats.served, he]

/-- Whatever is popped and walked without an error: that a buffer outside the
region makes the device record a rejection holds exactly if there is no such
buffer, or a readable one is outside, or the response reaches outside. -/
theorem outside_refused_iff (work : Work ω) {s : Process ω × SharedMem} (hs : Covered s)
    (hp : s.1.dev.pending s.2 ≠ 0) {ds : List Descriptor}
    (hwalk : (s.1.dev.chain s.2 (s.1.dev.nextHead s.2)).collect (s.1.dev.layout.qs + 1) =
      .ok (ds, none)) :
    let response := (work s.1.work (gather s.2 (readableOf ds)).1).1
    ∃ len s', step work s = .ok (some (s.1.dev.nextHead s.2, len)) s' ∧
      ((Outside s.2 ds → Rejects s s' (s.1.dev.nextHead s.2)) ↔
        ¬ Outside s.2 ds ∨ (∃ b ∈ readableOf ds, s.2.len < b.1.toNat + b.2.toNat) ∨
          ReachesOutside s.2 response.length (writableOf ds)) := by
  obtain ⟨p, m⟩ := s
  have hw := (ChainIter.collect_eq_ok (Nat.lt_succ_self _)).mp hwalk
  intro response
  obtain ⟨r, p', m', hstep, hspec⟩ := step_spec work hs
  cases hspec with
  | idle hz => exact absurd hz hp
  | refused _ hw' => exact absurd (hw.unique hw').2 (by simp)
  | @served ds' response' w m₁ written err _ hw' hwork hsc =>
      obtain ⟨rfl, -⟩ := hw.unique hw'
      obtain rfl : response' = response := (congrArg Prod.fst hwork).symm
      exact ⟨written, _, hstep, imp_iff_not_or.trans (or_congr_right (rejects_iff hsc))⟩

/-- One device-writable buffer, whose second byte is past the end of the region. -/
def overhanging : SharedMem := oneChain.put 8 [2]

theorem outside_refused_iff_overhanging :
    ∃ len s', step (fun w _ => ([7], w)) (start (Device.new unitQueue true) () overhanging) =
        .ok (some (0, len)) s' ∧
      ((Outside overhanging [⟨38, 2, 2, 0⟩] →
        Rejects (start (Device.new unitQueue true) () overhanging) s' 0) ↔
        ¬ Outside overhanging [⟨38, 2, 2, 0⟩] ∨
          (∃ b ∈ readableOf [⟨38, 2, 2, 0⟩], overhanging.len < b.1.toNat + b.2.toNat) ∨
          ReachesOutside overhanging 1 (writableOf [⟨38, 2, 2, 0⟩])) :=
  outside_refused_iff (fun w _ => ([7], w)) (by decide) (by decide +kernel) (by decide +kernel)

/-- The response of one byte fits, so the chain is served and nothing is
recorded. -/
theorem overhanging_buffer_is_served :
    ∃ s', Covered (start (Device.new unitQueue true) () overhanging) ∧
      (Device.chain (Device.new unitQueue true) overhanging 0).collect 2 =
        .ok ([⟨38, 2, 2, 0⟩], none) ∧
      Outside overhanging [⟨38, 2, 2, 0⟩] ∧
      step (fun w _ => ([7], w)) (start (Device.new unitQueue true) () overhanging) =
        .ok (some (0, 1)) s' ∧
      ¬ Rejects (start (Device.new unitQueue true) () overhanging) s' 0 := by
  have hrun : ∃ s', step (fun w _ => ([7], w))
      (start (Device.new unitQueue true) () overhanging) = .ok (some (0, 1)) s' ∧
      s'.1.stats.rejected = [] := ⟨_, rfl, by decide +kernel⟩
  obtain ⟨s', hstep, hnone⟩ := hrun
  refine ⟨s', by decide, by decide +kernel, ?_, hstep, ?_⟩
  · exact ⟨_, List.mem_cons_self, by decide⟩
  · rintro ⟨new, reason, heq, hmem⟩
    rw [hnone] at heq
    rw [(List.append_eq_nil_iff.mp heq.symm).2] at hmem
    cases hmem

end Process

end SystemsStudy
