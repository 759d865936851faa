/-
SystemsStudy/Refusal.lean

What the device does with a chain it reports in `ProcessStats::rejected`.

A chain whose walk failed is completed with length 0 and nothing else happens.
The two other places that report a rejection do not stop the iteration: after
an unreadable request buffer the gather loop goes on, and the response to the
rest of the request is scattered; after an unwritable response buffer the
scatter loop stops, but what it wrote before stays and is counted.  So a
reported chain can be completed with a positive length.

`Blameless` is the exact condition under which this does not happen, read off
the region before the iteration (`refusedProducesNothing_iff`).
-/
import SystemsStudy.Frame

namespace SystemsStudy

open Fallible

variable {ω : Type}

/-- `gather` reports an error exactly when a buffer is not inside the region. -/
theorem gather_snd_eq_nil {m : SharedMem} {bs : List BufferRef} :
    (gather m bs).2 = [] ↔ ∀ b ∈ bs, b.1.toNat + b.2.toNat ≤ m.len := by
  induction bs with
  | nil => simp [gather]
  | cons b bs ih =>
      obtain ⟨addr, len⟩ := b
      simp only [gather, m.readSlice_eq, List.forall_mem_cons, ← ih]
      by_cases h : addr.toNat + len.toNat ≤ m.len <;> simp [h]

namespace Process

variable {work : Work ω} {s s' : Process ω × SharedMem}

/-- If the iteration from `s` to `s'` reported a rejection, then it completed
the chain with length 0 and changed nothing outside the used ring. -/
def RefusedProducesNothing (s s' : Process ω × SharedMem) : Prop :=
  s'.1.stats.rejected ≠ s.1.stats.rejected →
    s'.2.word32 (s.1.dev.layout.usedSlot s.1.dev.nextUsed).2 = 0 ∧
    ∀ i, i < s.1.dev.layout.usedRing ∨ s.1.dev.layout.endAddr ≤ i →
      s'.2.buf[i]? = s.2.buf[i]?

/-- The walk of the next chain fails, or all it is served with lies inside the
region, or the response puts no byte anywhere before the first buffer that
does not fit. -/
def Blameless (work : Work ω) (s : Process ω × SharedMem) : Prop :=
  ∀ ds, (s.1.dev.chain s.2 (s.1.dev.nextHead s.2)).collect (s.1.dev.layout.qs + 1) =
      .ok (ds, none) →
    let response := (work s.1.work (gather s.2 (readableOf ds)).1).1
    ((∀ b ∈ readableOf ds, b.1.toNat + b.2.toNat ≤ s.2.len) ∧
      ∀ q ∈ pieces response.length (writableOf ds) 0, fits s.2.len q = true) ∨
    ∀ q ∈ writtenPieces s.2.len response.length (writableOf ds) 0, q.2 = 0

/-- Nothing is reported for a chain that was served from inside the region. -/
theorem served_rejected_iff {st : ProcessStats} {head : UInt16} {ds : List Descriptor}
    {response : List UInt8} {m m' : SharedMem} {written : UInt32} {err : Option MemError}
    (hsc : ScatterSpec response (writableOf ds) m 0 0 m' written err) :
    (st.served head ds (gather m (readableOf ds)) written err).rejected = st.rejected ↔
      (∀ b ∈ readableOf ds, b.1.toNat + b.2.toNat ≤ m.len) ∧
        ∀ q ∈ pieces response.length (writableOf ds) 0, fits m.len q = true := by
  have herr : err = none ↔ ∀ q ∈ pieces response.length (writableOf ds) 0,
      fits m.len q = true := by
    have h := not_congr hsc.refused
    simpa using h
  rw [← gather_snd_eq_nil, ← herr, ProcessStats.served]
  simp

/-- The completed length is 0 exactly when every piece written is empty. -/
theorem written_eq_zero_iff {response : List UInt8} {ws : List BufferRef} {m m' : SharedMem}
    {written : UInt32} {err : Option MemError}
    (hsc : ScatterSpec response ws m 0 0 m' written err) :
    written = 0 ↔ ∀ q ∈ writtenPieces m.len response.length ws 0, q.2 = 0 := by
  have hcount : written.toNat =
      ((writtenPieces m.len response.length ws 0).map Prod.snd).sum := by
    simpa using hsc.count
  rw [← UInt32.toNat_inj, hcount, UInt32.toNat_zero, List.sum_eq_zero_iff,
    List.forall_mem_map]

/-- The completion of a chain stays inside the used ring. -/
theorem putUsed_outside_usedRing {l : VirtqLayout} (m : SharedMem) (pos head : UInt16)
    (len : UInt32) {i : ℕ} (hi : i < l.usedRing ∨ l.endAddr ≤ i) :
    (l.putUsed m pos head len).buf[i]? = m.buf[i]? := by
  have h₁ := l.le_usedBase pos
  have h₂ := l.usedBase_add_le pos
  have hlay := l.bounds
  exact VirtqLayout.putUsed_getElem? (by omega) (by omega)

/-- A reported chain produces nothing exactly under `Blameless`. -/
theorem refusedProducesNothing_iff {c : UInt16 × UInt32} (hs : Covered s)
    (h : step work s = .ok (some c) s') :
    RefusedProducesNothing s s' ↔ Blameless work s := by
  obtain ⟨p, m⟩ := s
  obtain ⟨p', m'⟩ := s'
  cases stepSpec_of_step hs h with
  -- a failed walk publishes length 0 and stores nothing else
  | @refused ds e hp hw =>
      refine iff_of_true (fun _ => ⟨?_, ?_⟩) ?_
      · exact VirtqLayout.word32_usedLen_putUsed (VirtqLayout.Covered.usedBase hs _) _ _
      · exact fun i hi => putUsed_outside_usedRing _ _ _ _ hi
      · intro ds' hc
        have hw' := (ChainIter.collect_eq_ok (Nat.lt_succ_self _)).mp hc
        exact absurd (hw.unique hw').2 (by simp)
  | @served ds response w m₁ written err hp hw hwork hsc =>
      have hcov : p.dev.layout.Covered m₁ := by
        rw [VirtqLayout.Covered, hsc.len_eq]
        exact hs
      have hlen := VirtqLayout.word32_usedLen_putUsed (hcov.usedBase p.dev.nextUsed)
        (p.dev.nextHead m) written
      constructor
      · -- either nothing was rejected, or the zero length forces an empty scatter
        intro hprop ds' hc
        obtain ⟨rfl, -⟩ := hw.unique ((ChainIter.collect_eq_ok (Nat.lt_succ_self _)).mp hc)
        simp only [hwork]
        by_cases hrej : ((p.stats.served (p.dev.nextHead m) ds (gather m (readableOf ds))
            written err).rejected = p.stats.rejected)
        · exact .inl ((served_rejected_iff hsc).mp hrej)
        · have hzero : written = 0 := hlen.symm.trans (hprop hrej).1
          exact .inr ((written_eq_zero_iff hsc).mp hzero)
      · -- a blameless chain that was rejected has nowhere to put its response
        intro hbl hrej
        have hc := (ChainIter.collect_eq_ok (Nat.lt_succ_self _)).mpr hw
        rcases hbl ds hc with hin | hnone
        · simp only [hwork] at hin
          exact absurd ((served_rejected_iff hsc).mpr hin) hrej
        · simp only [hwork] at hnone
          refine ⟨hlen.trans ((written_eq_zero_iff hsc).mpr hnone), fun i hi => ?_⟩
          refine (putUsed_outside_usedRing m₁ _ _ _ hi).trans (hsc.frame i fun q hq => ?_)
          have hq₀ := hnone q hq
          omega

/-! ### A reported chain that is served -/

/-- A chain of an unreadable buffer and a writable one at address 70. -/
def halfReadable : SharedMem :=
  (((SharedMem.new 80 (by decide)).put 0 (Bytes.toLe 8 1000 ++ Bytes.toLe 4 1 ++
    Bytes.toLe 2 1 ++ Bytes.toLe 2 1)).put 16 (Bytes.toLe 8 70 ++ Bytes.toLe 4 1 ++
    Bytes.toLe 2 2 ++ Bytes.toLe 2 0)).put 34 [1, 0]

theorem refusedProducesNothing_iff_halfReadable :
    ∃ c s', step (fun w _ => ([7], w)) (start (Device.new pairQueue true) () halfReadable) =
        .ok (some c) s' ∧
      (RefusedProducesNothing (start (Device.new pairQueue true) () halfReadable) s' ↔
        Blameless (fun w _ => ([7], w)) (start (Device.new pairQueue true) () halfReadable)) :=
  ⟨_, _, rfl, refusedProducesNothing_iff (by decide) rfl⟩

/-- The chain is reported because its request buffer cannot be read, and yet it
is completed with one byte written. -/
theorem refused_chain_is_served :
    ∃ c s', Covered (start (Device.new pairQueue true) () halfReadable) ∧
      step (fun w _ => ([7], w)) (start (Device.new pairQueue true) () halfReadable) =
        .ok (some c) s' ∧
      s'.1.stats.rejected = [(0, .buffer (.outOfBounds 1000 1 80))] ∧
      s'.2.word32 (pairQueue.usedSlot 0).2 = 1 ∧
      s'.2.bytes 70 1 = [7] ∧
      ¬ RefusedProducesNothing (start (Device.new pairQueue true) () halfReadable) s' := by
  refine ⟨_, _, ?_, rfl, ?_, ?_, ?_, ?_⟩
  · decide
  · decide +kernel
  · decide +kernel
  · decide +kernel
  · intro h
    exact absurd (h (by decide +kernel)).1 (by decide +kernel)

end Process

end SystemsStudy
