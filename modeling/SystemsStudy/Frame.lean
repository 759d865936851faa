/-
SystemsStudy/Frame.lean

Where the device writes.

One iteration of `Device::process` writes the used slot of its position, the
used index, and, if the walk of the chain succeeded, the buffers of that chain
that carry the write flag (`MayWrite`).  Which bytes those are is decided by
the region as it stands when the iteration starts: the chain is collected
first, so what the scatter loop writes cannot change where it writes.

For a run this has to be said with the region each iteration started from,
since an iteration may overwrite the descriptor table
(`Iterations.exists_mayWrite`).
-/
import SystemsStudy.Completion

namespace SystemsStudy

open Fallible

variable {ω : Type}

namespace Process

variable {work : Work ω} {s s' t : Process ω × SharedMem}

/-- The bytes an iteration that starts in `s` is allowed to change. -/
inductive MayWrite (s : Process ω × SharedMem) (i : ℕ) : Prop
  /-- the used element for the current position -/
  | usedSlot : (s.1.dev.layout.usedSlot s.1.dev.nextUsed).1 ≤ i →
      i < (s.1.dev.layout.usedSlot s.1.dev.nextUsed).1 + 8 → MayWrite s i
  /-- the used index -/
  | usedIdx : s.1.dev.layout.usedIdx ≤ i → i < s.1.dev.layout.usedIdx + 2 → MayWrite s i
  /-- a device-writable buffer of a chain that was walked without an error -/
  | buffer {ds : List Descriptor} {d : Descriptor} :
      (s.1.dev.chain s.2 (s.1.dev.nextHead s.2)).collect (s.1.dev.layout.qs + 1) =
        .ok (ds, none) →
      d ∈ ds → d.isWriteOnly = true → d.addr.toNat ≤ i → i < d.addr.toNat + d.len.toNat →
      MayWrite s i

/-- A byte outside the used slot and the used index is not touched by the
completion itself. -/
theorem putUsed_of_not_mayWrite {i : ℕ} (h : ¬ MayWrite s i) (m : SharedMem) (head : UInt16)
    (len : UInt32) :
    (s.1.dev.layout.putUsed m s.1.dev.nextUsed head len).buf[i]? = m.buf[i]? := by
  refine VirtqLayout.putUsed_getElem? ?_ ?_
  · by_contra hc
    exact h (.usedSlot (show s.1.dev.layout.usedBase _ ≤ i by omega)
      (show i < s.1.dev.layout.usedBase _ + 8 by omega))
  · by_contra hc
    exact h (.usedIdx (by omega) (by omega))

/-- One iteration leaves every other byte as it is. -/
theorem StepSpec.frame {p p' : Process ω} {m m' : SharedMem} {r : Option (UInt16 × UInt32)}
    (h : StepSpec work p m r p' m') {i : ℕ} (hi : ¬ MayWrite (p, m) i) :
    m'.buf[i]? = m.buf[i]? := by
  cases h with
  | idle => rfl
  | refused => exact putUsed_of_not_mayWrite hi m _ _
  | @served ds response w m₁ written err hp hw hwork hsc =>
      refine (putUsed_of_not_mayWrite hi m₁ _ _).trans (hsc.frame i fun q hq => ?_)
      obtain ⟨b, hb, haddr, hlen⟩ := exists_of_mem_pieces (mem_pieces_of_mem_writtenPieces hq)
      obtain ⟨d, hd, hwrite, rfl⟩ := mem_writableOf.mp hb
      by_contra hc
      refine hi (.buffer ((ChainIter.collect_eq_ok (Nat.lt_succ_self _)).mpr hw) hd hwrite ?_ ?_)
      · dsimp only at haddr
        omega
      · dsimp only at haddr hlen
        omega

/-- A byte that a run changed was writable for one of its iterations. -/
theorem Iterations.exists_mayWrite {cs : List (UInt16 × UInt32)} (hs : Covered s)
    (h : Iterations work s cs t) {i : ℕ} (hi : t.2.buf[i]? ≠ s.2.buf[i]?) :
    ∃ cs₁ c cs₂ s₁, cs = cs₁ ++ c :: cs₂ ∧ Iterations work s cs₁ s₁ ∧ MayWrite s₁ i := by
  induction h with
  | nil => exact absurd rfl hi
  | @cons s s' t c cs hstep hrest ih =>
      by_cases hmay : MayWrite s i
      · exact ⟨[], c, cs, s, rfl, .nil s, hmay⟩
      · have hsame := (stepSpec_of_step hs hstep).frame (i := i) hmay
        obtain ⟨cs₁, c', cs₂, s₁, rfl, h₁, hw⟩ := ih (hs.step hstep) (by rwa [hsame])
        exact ⟨c :: cs₁, c', cs₂, s₁, rfl, .cons hstep h₁, hw⟩

/-- The device changes a byte only in the used slot of the current position, in
the used index, or in a device-writable buffer of the chain it serves; after a
failed walk only in the first two; and so for whole runs of the loop and of
`Device::process`, with the descriptors each iteration reads. -/
theorem process_writes_only_mayWrite (work : Work ω) (s : Process ω × SharedMem)
    (hs : Covered s) :
    (∀ r s', step work s = .ok r s' →
      (∀ i, s'.2.buf[i]? ≠ s.2.buf[i]? → MayWrite s i) ∧
      (∀ ds e, (s.1.dev.chain s.2 (s.1.dev.nextHead s.2)).collect (s.1.dev.layout.qs + 1) =
          .ok (ds, some e) →
        ∀ i, s'.2.buf[i]? ≠ s.2.buf[i]? →
          ((s.1.dev.layout.usedSlot s.1.dev.nextUsed).1 ≤ i ∧
            i < (s.1.dev.layout.usedSlot s.1.dev.nextUsed).1 + 8) ∨
          (s.1.dev.layout.usedIdx ≤ i ∧ i < s.1.dev.layout.usedIdx + 2))) ∧
    (∀ cs t, Iterations work s cs t → ∀ i, t.2.buf[i]? ≠ s.2.buf[i]? →
      ∃ cs₁ c cs₂ s₁, cs = cs₁ ++ c :: cs₂ ∧ Iterations work s cs₁ s₁ ∧ MayWrite s₁ i) ∧
    (∀ fuel i, (final (s.1.dev.process fuel work s.1.work s.2)).2.buf[i]? ≠ s.2.buf[i]? →
      ∃ cs₁ s₁ c s₂, Iterations work (start s.1.dev s.1.work s.2) cs₁ s₁ ∧
        step work s₁ = .ok (some c) s₂ ∧ MayWrite s₁ i) := by
  have hstep : ∀ r s', step work s = .ok r s' →
      ∀ i, s'.2.buf[i]? ≠ s.2.buf[i]? → MayWrite s i := by
    intro r s' h i hi
    by_contra hmay
    exact hi ((stepSpec_of_step hs h).frame hmay)
  refine ⟨fun r s' h => ⟨hstep r s' h, ?_⟩, fun cs t h i hi => h.exists_mayWrite hs hi, ?_⟩
  · -- a chain cut short by an error has no response, so nothing is scattered
    intro ds e hc i hi
    cases hstep r s' h i hi with
    | usedSlot h₁ h₂ => exact .inl ⟨h₁, h₂⟩
    | usedIdx h₁ h₂ => exact .inr ⟨h₁, h₂⟩
    | buffer hc' =>
        rw [hc] at hc'
        simp at hc'
  · -- `process` is a run of whole iterations, cut off where the fuel runs out
    intro fuel i hi
    have hstart : Covered (start s.1.dev s.1.work s.2) := hs
    obtain ⟨cs, t, hrun, hmem⟩ : ∃ cs t, Iterations work (start s.1.dev s.1.work s.2) cs t ∧
        (final (s.1.dev.process fuel work s.1.work s.2)).2 = t.2 := by
      rcases process_spec work fuel s.1.work hstart with
        ⟨cs, t, hp, h, -⟩ | ⟨cs, t, hp, h, -⟩
      · exact ⟨cs, t, h, by rw [hp, final_ok]⟩
      · exact ⟨cs, t, h, by rw [hp, final_error]⟩
    rw [hmem] at hi
    obtain ⟨cs₁, c, cs₂, s₁, rfl, h₁, hw⟩ := hrun.exists_mayWrite hstart hi
    obtain ⟨s₁', h₁', h₂'⟩ := hrun.split
    obtain ⟨-, rfl⟩ := h₁.unique h₁' rfl
    rcases h₂' with - | ⟨hc, -⟩
    exact ⟨cs₁, s₁, c, _, h₁, hc, hw⟩

theorem process_writes_only_mayWrite_oneChain :
    ∃ c s', step (fun w _ => ([7], w)) (start (Device.new unitQueue true) () oneChain) =
        .ok (some c) s' ∧
      s'.2.bytes 38 1 = [7] ∧ MayWrite (start (Device.new unitQueue true) () oneChain) 38 := by
  refine ⟨_, _, rfl, by decide +kernel, ?_⟩
  exact ((process_writes_only_mayWrite (fun w _ => ([7], w))
    (start (Device.new unitQueue true) () oneChain) (by decide)).1 _ _ rfl).1 38
    (by decide +kernel)

end Process

end SystemsStudy
