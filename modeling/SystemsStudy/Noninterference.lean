/-
SystemsStudy/Noninterference.lean

Two runs over regions that differ where the device does not look.

An iteration reads the table and the rings, and the device-readable buffers of
the chain it serves.  If two regions agree there, it does the same over both:
the same completion, the same request to the work closure, and the same stores
(`step_agree`).  The same stores over two regions keep every agreement there
was, so the set of bytes on which the two regions agree never shrinks, whatever
the writable buffers overlap, and it is enough to know it for the regions the
runs start from.

`Observed` is what an iteration shows of itself, and `Traced` is a run with
what its iterations showed.
-/
import SystemsStudy.Completion
import SystemsStudy.Path
import SystemsStudy.Stores

namespace SystemsStudy

open Bytes Fallible

variable {ω : Type}

/-! ### What an iteration shows -/

namespace VirtqLayout

/-- The stores of a completion. -/
def usedStores (l : VirtqLayout) (pos head : UInt16) (len : UInt32) : List (ℕ × List UInt8) :=
  [(l.usedBase pos, toLe 4 head.toUInt32.toNat), (l.usedBase pos + 4, toLe 4 len.toNat),
    (l.usedIdx, toLe 2 (pos + 1).toNat)]

end VirtqLayout

namespace Process

/-- An iteration, seen from outside. -/
structure Observed where
  head : UInt16
  /-- what was passed to the work closure, if it was called -/
  request : Option (List UInt8)
  len : UInt32
  /-- the addresses written to and the bytes written there, in order -/
  stores : List (ℕ × List UInt8)
  deriving DecidableEq

/-- What the iteration that starts in `s` will show. -/
def observe (work : Work ω) (s : Process ω × SharedMem) : Observed :=
  let head := s.1.dev.nextHead s.2
  let completion := s.1.dev.layout.usedStores s.1.dev.nextUsed head
  match (s.1.dev.chain s.2 head).collect (s.1.dev.layout.qs + 1) with
  | .ok (ds, none) =>
      let request := (gather s.2 (readableOf ds)).1
      let st := scattered s.2.len (work s.1.work request).1 (writableOf ds) 0
      let len := UInt32.ofNat (storedLen st)
      { head, request := some request, len, stores := st ++ completion len }
  | _ => { head, request := none, len := 0, stores := completion 0 }

variable {work : Work ω} {p p₁ : Process ω} {m m' m₁ : SharedMem} {s s' t : Process ω × SharedMem}

/-- The collecting loop and the relation say the same of the chain of a device. -/
theorem collect_iff {d : Device} {head : UInt16} {ds : List Descriptor} {e : Option ChainError} :
    (d.chain m head).collect (d.layout.qs + 1) = .ok (ds, e) ↔ (d.chain m head).Walks ds e :=
  ChainIter.collect_eq_ok (Nat.lt_succ_self _)

/-- The walk of a chain is the same in a region with the same table. -/
theorem walks_chain {d : Device} {head : UInt16} {ds : List Descriptor} {e : Option ChainError}
    (hw : (d.chain m head).Walks ds e) (h : ChainIter.SameTable d.layout m m') :
    (d.chain m' head).Walks ds e :=
  ChainIter.Walks.withMem hw h

theorem observe_refused {ds : List Descriptor} {e : ChainError}
    (hw : (p.dev.chain m (p.dev.nextHead m)).Walks ds (some e)) :
    observe work (p, m) =
      { head := p.dev.nextHead m, request := none, len := 0
        stores := p.dev.layout.usedStores p.dev.nextUsed (p.dev.nextHead m) 0 } := by
  simp only [observe, collect_iff.mpr hw]

theorem observe_served {ds : List Descriptor} {response : List UInt8} {w : ω} {written : UInt32}
    {err : Option MemError} (hw : (p.dev.chain m (p.dev.nextHead m)).Walks ds none)
    (hwork : work p.work (gather m (readableOf ds)).1 = (response, w))
    (hsc : ScatterSpec response (writableOf ds) m 0 0 m₁ written err) :
    observe work (p, m) =
      { head := p.dev.nextHead m, request := some (gather m (readableOf ds)).1, len := written
        stores := scattered m.len response (writableOf ds) 0 ++
          p.dev.layout.usedStores p.dev.nextUsed (p.dev.nextHead m) written } := by
  have hlen : UInt32.ofNat (storedLen (scattered m.len response (writableOf ds) 0)) = written := by
    rw [← hsc.toNat_written, UInt32.ofNat_toNat]
  simp only [observe, collect_iff.mpr hw, hwork, hlen]

/-- What the iteration shows is what it does: it completes that head with that
length, passes that request on, and performs those stores. -/
structure Shows (work : Work ω) (s : Process ω × SharedMem) (c : UInt16 × UInt32)
    (s' : Process ω × SharedMem) : Prop where
  completion : c = ((observe work s).head, (observe work s).len)
  called : s'.1.work = match (observe work s).request with
    | some request => (work s.1.work request).2
    | none => s.1.work
  region : s'.2 = s.2.putAll (observe work s).stores

theorem shows_of_step {c : UInt16 × UInt32} (hs : Covered s)
    (h : step work s = .ok (some c) s') : Shows work s c s' := by
  obtain ⟨p, m⟩ := s
  obtain ⟨p', m'⟩ := s'
  cases stepSpec_of_step hs h with
  | refused hp hw =>
      have ho : observe work (p, m) = _ := observe_refused hw
      refine ⟨?_, ?_, ?_⟩
      · rw [ho]
      · rw [ho]
      · rw [ho]
        rfl
  | @served ds response w m₁ written err hp hw hwork hsc =>
      have ho := observe_served hw hwork hsc
      refine ⟨?_, ?_, ?_⟩
      · rw [ho]
      · rw [ho]
        simp only [hwork]
      · rw [ho, SharedMem.putAll_append, ← (scatter_replay hsc.run).1]
        rfl

/-- The first bytes of the writable buffers, as many as the completion says, are
among those stored to. -/
theorem exists_store_of_mem_take {c : UInt16 × UInt32} (hs : Covered (p, m))
    (h : step work (p, m) = .ok (some c) s') {ds : List Descriptor}
    (hw : (p.dev.chain m (p.dev.nextHead m)).Walks ds none) {a : ℕ}
    (ha : a ∈ (addresses (writableOf ds)).take (observe work (p, m)).len.toNat) :
    ∃ q ∈ (observe work (p, m)).stores, q.1 ≤ a ∧ a < q.1 + q.2.length := by
  obtain ⟨p', m'⟩ := s'
  cases stepSpec_of_step hs h with
  | refused _ hw' => exact absurd (hw.unique hw').2 (by simp)
  | served _ hw' hwork hsc =>
      obtain ⟨rfl, -⟩ := hw.unique hw'
      rw [observe_served hw hwork hsc] at ha ⊢
      dsimp only at ha ⊢
      rw [hsc.toNat_written] at ha
      obtain ⟨q, hq, hlo, hhi⟩ := mem_scattered_of_mem_take ha
      exact ⟨q, List.mem_append_left _ hq, hlo, hhi⟩

/-! ### What an iteration reads -/

/-- A byte of a device-readable buffer of the chain that is served from `s`. -/
def ReadsBuffer (s : Process ω × SharedMem) (i : ℕ) : Prop :=
  ∃ ds b, (s.1.dev.chain s.2 (s.1.dev.nextHead s.2)).collect (s.1.dev.layout.qs + 1) =
    .ok (ds, none) ∧ b ∈ readableOf ds ∧ b.1.toNat ≤ i ∧ i < b.1.toNat + b.2.toNat

/-- The two regions agree where the device looks before it serves a chain. -/
def SameQueue (d : Device) (m m' : SharedMem) : Prop :=
  SharedMem.SameOn m m' d.layout.descTable d.layout.endAddr

theorem SameQueue.pending {d : Device} (h : SameQueue d m m') : d.pending m' = d.pending m := by
  have hlay := d.layout.bounds
  rw [Device.pending, Device.pending, (h.mono (by omega) (by omega)).word16_eq]

theorem SameQueue.nextHead {d : Device} (h : SameQueue d m m') :
    d.nextHead m' = d.nextHead m := by
  have hlay := d.layout.bounds
  have hlo := d.layout.le_availSlot d.nextAvail
  have hhi := VirtqLayout.availSlot_add_le (l := d.layout) d.nextAvail
  rw [Device.nextHead, Device.nextHead, (h.mono (by omega) (by omega)).word16_eq]

theorem SameQueue.sameTable {d : Device} (h : SameQueue d m m') (hcov : d.layout.Covered m)
    (hlen : m.len = m'.len) : ChainIter.SameTable d.layout m m' := by
  have hlay := d.layout.bounds
  have hle := hcov.le (a := d.layout.descTable + 16 * d.layout.qs) (by omega)
  exact ⟨hle, hlen ▸ hle, (h.mono le_rfl (by omega)).symm⟩

/-- The request depends only on the bytes of the readable buffers. -/
theorem gather_congr {bs : List BufferRef} (hlen : m.len = m'.len)
    (h : ∀ b ∈ bs, SharedMem.SameOn m m' b.1.toNat (b.1.toNat + b.2.toNat)) :
    gather m bs = gather m' bs := by
  induction bs with
  | nil => rfl
  | cons b bs ih =>
      obtain ⟨addr, len⟩ := b
      rw [gather, gather, ih fun b hb => h b (List.mem_cons_of_mem _ hb), m.readSlice_eq,
        m'.readSlice_eq, (h (addr, len) List.mem_cons_self).bytes_eq, hlen]

/-- The outcome of an iteration over another region: the same stores. -/
structure SameStep (work : Work ω) (p : Process ω) (m m' : SharedMem)
    (c : UInt16 × UInt32) (p₁ : Process ω) : Prop where
  observe : observe work (p, m') = Process.observe work (p, m)
  step : step work (p, m') = .ok (some c) (p₁, m'.putAll (Process.observe work (p, m)).stores)

theorem step_agree {c : UInt16 × UInt32} (hs : Covered (p, m)) (hlen : m.len = m'.len)
    (hqueue : SameQueue p.dev m m') (hread : ∀ i, ReadsBuffer (p, m) i → m.buf[i]? = m'.buf[i]?)
    (h : step work (p, m) = .ok (some c) (p₁, m₁)) : SameStep work p m m' c p₁ := by
  have hcov : p.dev.layout.Covered m' := by
    show p.dev.layout.endAddr ≤ m'.len
    rw [← hlen]
    exact hs
  have htable := hqueue.sameTable hs hlen
  have hhead := hqueue.nextHead
  cases stepSpec_of_step hs h with
  | @refused ds e hp hw =>
      -- the walk reads the table alone, so it ends in the same error
      have hw' : (p.dev.chain m' (p.dev.nextHead m)).Walks ds (some e) :=
        walks_chain hw htable
      have hserve := serve_refused (p := { p with dev := p.dev.popped }) work (p.dev.nextHead m)
        (hcov.usedBase _) (collect_iff.mpr hw')
      have hstep := step_of_serve hcov (by rwa [hqueue.pending]) (hhead ▸ hserve)
      rw [hhead] at hstep
      refine ⟨?_, ?_⟩
      · rw [observe_refused hw, observe_refused (by rwa [hhead]), hhead]
      · rw [observe_refused hw]
        exact hstep
  | @served ds response w m₁ written err hp hw hwork hsc =>
      have hw' : (p.dev.chain m' (p.dev.nextHead m)).Walks ds none :=
        walks_chain hw htable
      -- the request is read from the buffers the chain names, where the regions agree
      have hgather : gather m (readableOf ds) = gather m' (readableOf ds) :=
        gather_congr hlen fun b hb i hlo hhi =>
          hread i ⟨ds, b, collect_iff.mpr hw, hb, hlo, hhi⟩
      -- what a scatter stores depends on the length of the region only, so it replays
      obtain ⟨hm₁, hreplay⟩ := scatter_replay hsc.run
      obtain ⟨m₁', written', err', hsc'⟩ := scatter_spec response (writableOf ds) m' 0 0 (by
        have h₁ := refsLen_writableOf_le ds
        have h₂ := hw.totalLen_lt
        rw [UInt32.toNat_zero]
        omega)
      obtain ⟨rfl, rfl, rfl⟩ : m₁' = _ ∧ written' = written ∧ err' = err := by
        have := hsc'.run.symm.trans (hreplay m' hlen.symm)
        simpa using this
      have hwork' : work p.work (gather m' (readableOf ds)).1 = (response, w) := hgather ▸ hwork
      have hserve := serve_served (p := { p with dev := p.dev.popped }) work (p.dev.nextHead m)
        (hcov.usedBase _) (collect_iff.mpr hw') hwork' hsc'
      have hstep := step_of_serve hcov (by rwa [hqueue.pending]) (hhead ▸ hserve)
      rw [hhead, ← hgather] at hstep
      refine ⟨?_, ?_⟩
      · rw [observe_served hw hwork hsc, observe_served (by rwa [hhead]) hwork' hsc', hhead,
          ← hgather, hlen]
      · rw [observe_served hw hwork hsc, SharedMem.putAll_append]
        exact hstep

/-! ### Two runs -/

/-- `Traced work s os t`: from `s` the loop performs `os.length` iterations, which
show `os`, and stands at `t`. -/
inductive Traced (work : Work ω) :
    Process ω × SharedMem → List Observed → Process ω × SharedMem → Prop
  | nil (s : Process ω × SharedMem) : Traced work s [] s
  | cons {s s' t : Process ω × SharedMem} {c os} : step work s = .ok (some c) s' →
      Traced work s' os t → Traced work s (observe work s :: os) t

/-- A byte of a device-readable buffer of a chain that one of the iterations
shown in `os` serves. -/
def RunReadsBuffer (work : Work ω) (s : Process ω × SharedMem) (os : List Observed) (i : ℕ) :
    Prop :=
  ∃ os₁ o os₂ s₁, os = os₁ ++ o :: os₂ ∧ Traced work s os₁ s₁ ∧ ReadsBuffer s₁ i

theorem RunReadsBuffer.cons {c : UInt16 × UInt32} {os : List Observed} {i : ℕ}
    (hstep : step work s = .ok (some c) s') (h : RunReadsBuffer work s' os i) :
    RunReadsBuffer work s (observe work s :: os) i := by
  obtain ⟨os₁, o, os₂, s₁, rfl, h₁, hread⟩ := h
  exact ⟨observe work s :: os₁, o, os₂, s₁, rfl, .cons hstep h₁, hread⟩

theorem RunReadsBuffer.append {os os' : List Observed} {i : ℕ}
    (h : RunReadsBuffer work s os i) : RunReadsBuffer work s (os ++ os') i := by
  obtain ⟨os₁, o, os₂, s₁, rfl, h₁, hread⟩ := h
  exact ⟨os₁, o, os₂ ++ os', s₁, List.append_assoc _ _ _, h₁, hread⟩

/-- The second of two runs that look the same: the same process, and agreement
on all bytes of `A`. -/
structure Twin (A : ℕ → Prop) (s s' : Process ω × SharedMem) : Prop where
  process : s'.1 = s.1
  len : s.2.len = s'.2.len
  agree : ∀ i, A i → s.2.buf[i]? = s'.2.buf[i]?

variable {A : ℕ → Prop}

/-- The step lemma: an iteration of the one is an iteration of the other. -/
theorem Twin.step {c : UInt16 × UInt32} (h : Twin A s s') (hs : Covered s)
    (hqueue : ∀ i, s.1.dev.layout.descTable ≤ i → i < s.1.dev.layout.endAddr → A i)
    (hread : ∀ i, ReadsBuffer s i → A i) (hstep : step work s = .ok (some c) t) :
    ∃ t', Process.step work s' = .ok (some c) t' ∧ Twin A t t' ∧
      observe work s' = observe work s ∧ t'.2 = s'.2.putAll (observe work s).stores := by
  obtain ⟨p, m⟩ := s
  obtain ⟨p', m'⟩ := s'
  obtain ⟨p₁, m₁⟩ := t
  obtain rfl : p' = p := h.process
  have hsame := step_agree hs h.len (fun i hlo hhi => h.agree i (hqueue i hlo hhi))
    (fun i hi => h.agree i (hread i hi)) hstep
  obtain rfl : m₁ = m.putAll _ := (shows_of_step hs hstep).region
  refine ⟨_, hsame.step, ⟨rfl, ?_, fun i hi => ?_⟩, hsame.observe, rfl⟩
  · rw [SharedMem.len_putAll, SharedMem.len_putAll]
    exact h.len
  · exact SharedMem.putAll_agree h.len _ (h.agree i hi)

/-- Both find nothing available, or neither does. -/
theorem Twin.pending (h : Twin A s s')
    (hqueue : ∀ i, s.1.dev.layout.descTable ≤ i → i < s.1.dev.layout.endAddr → A i) :
    s'.1.dev.pending s'.2 = s.1.dev.pending s.2 := by
  rw [h.process]
  exact SameQueue.pending fun i hlo hhi => h.agree i (hqueue i hlo hhi)

/-- The layout stays. -/
theorem layout_of_step {c : UInt16 × UInt32} (hs : Covered s)
    (h : Process.step work s = .ok (some c) t) : t.1.dev.layout = s.1.dev.layout :=
  (stepSpec_of_step hs h).layout_len.1

/-- The run lemma. -/
theorem Twin.traced {os : List Observed} (h : Traced work s os t) (htwin : Twin A s s')
    (hs : Covered s)
    (hqueue : ∀ i, s.1.dev.layout.descTable ≤ i → i < s.1.dev.layout.endAddr → A i)
    (hread : ∀ i, RunReadsBuffer work s os i → A i) :
    ∃ t', Traced work s' os t' ∧ Twin A t t' := by
  induction h generalizing s' with
  | nil => exact ⟨s', .nil s', htwin⟩
  | @cons s s₁ t c os hstep _ ih =>
      obtain ⟨s₁', hstep', htwin₁, hobs, -⟩ := htwin.step hs hqueue
        (fun i hi => hread i ⟨[], _, os, s, rfl, .nil s, hi⟩) hstep
      obtain ⟨t', ht', htwin'⟩ := ih htwin₁ (hs.step hstep)
        (by rwa [layout_of_step hs hstep]) fun i hi => hread i (hi.cons hstep)
      refine ⟨t', ?_, htwin'⟩
      rw [← hobs]
      exact .cons hstep' ht'

theorem Traced.split {os₁ os₂ : List Observed} (h : Traced work s (os₁ ++ os₂) t) :
    ∃ s₁, Traced work s os₁ s₁ ∧ Traced work s₁ os₂ t := by
  induction os₁ generalizing s with
  | nil => exact ⟨s, .nil s, h⟩
  | cons o os₁ ih =>
      rcases h with - | ⟨hstep, hrest⟩
      obtain ⟨s₁, h₁, h₂⟩ := ih hrest
      exact ⟨s₁, .cons hstep h₁, h₂⟩

theorem Traced.covered {os : List Observed} (h : Traced work s os t) (hs : Covered s) :
    Covered t ∧ t.1.dev.layout = s.1.dev.layout := by
  induction h with
  | nil => exact ⟨hs, rfl⟩
  | cons hstep _ ih =>
      obtain ⟨h₁, h₂⟩ := ih (hs.step hstep)
      exact ⟨h₁, h₂.trans (layout_of_step hs hstep)⟩

/-- A run that ends with nothing available is one of the function. -/
theorem Traced.loop {os : List Observed} (h : Traced work s os t) (hs : Covered s)
    (hend : t.1.dev.pending t.2 = 0) {fuel : ℕ} (hfuel : os.length < fuel) :
    loop work fuel s = .ok () t := by
  induction h generalizing fuel with
  | nil s =>
      obtain ⟨fuel, rfl⟩ := Nat.exists_eq_succ_of_ne_zero (Nat.ne_zero_of_lt hfuel)
      obtain ⟨r, s', hr⟩ := step_returns work hs
      rcases r with - | c
      · obtain ⟨rfl, -⟩ := eq_of_step_none hs hr
        rw [Process.loop, bind_ok hr]
        rfl
      · exact absurd hend (pending_ne_zero_of_step hs hr)
  | cons hstep _ ih =>
      obtain ⟨fuel, rfl⟩ := Nat.exists_eq_succ_of_ne_zero (Nat.ne_zero_of_lt hfuel)
      rw [Process.loop, bind_ok hstep]
      exact ih (hs.step hstep) hend (Nat.lt_of_succ_lt_succ hfuel)

/-- Two regions of one length that agree on the queue and on every byte of every
device-readable buffer the first run serves: the second run pops the same
heads, passes the same requests on, publishes the same completions, performs
the same stores and counts the same, for any number of iterations, and returns
if the first one does.  So the bytes it reports as written do not depend on the
others. -/
theorem process_noninterference (work : Work ω) (d : Device) (w : ω) {m m' : SharedMem}
    (hcov : d.layout.Covered m) (hlen : m.len = m'.len)
    (hqueue : SharedMem.SameOn m m' d.layout.descTable d.layout.endAddr) {os : List Observed}
    {t : Process ω × SharedMem} (hrun : Traced work (start d w m) os t)
    (hread : ∀ i, RunReadsBuffer work (start d w m) os i → m.buf[i]? = m'.buf[i]?) :
    ∃ t' : Process ω × SharedMem, Traced work (start d w m') os t' ∧ t'.1 = t.1 ∧
      -- no further byte comes to differ
      (∀ i : ℕ, m.buf[i]? = m'.buf[i]? → t.2.buf[i]? = t'.2.buf[i]?) ∧
      -- each iteration is the same in both, down to its stores
      (∀ os₁ o os₂, os = os₁ ++ o :: os₂ → ∃ s₁ s₂ s₁' s₂' : Process ω × SharedMem,
        Traced work (start d w m) os₁ s₁ ∧ step work s₁ = .ok (some (o.head, o.len)) s₂ ∧
        Traced work (start d w m') os₁ s₁' ∧ step work s₁' = .ok (some (o.head, o.len)) s₂' ∧
        s₁'.1 = s₁.1 ∧ s₂'.1 = s₂.1 ∧
        (∀ request, o.request = some request → s₂.1.work = (work s₁.1.work request).2) ∧
        s₂.2 = s₁.2.putAll o.stores ∧ s₂'.2 = s₁'.2.putAll o.stores ∧
        ∀ ds, (d.chain s₁.2 o.head).collect (d.layout.qs + 1) = .ok (ds, none) →
          ∀ a ∈ (addresses (writableOf ds)).take o.len.toNat, s₂.2.buf[a]? = s₂'.2.buf[a]?) ∧
      -- the function returns the same
      (t.1.dev.pending t.2 = 0 → ∀ fuel, os.length < fuel →
        d.process fuel work w m = .ok t.1.stats t ∧
        d.process fuel work w m' = .ok t.1.stats t') := by
  have hs : Covered (start d w m) := hcov
  have htwin : Twin (fun i : ℕ => m.buf[i]? = m'.buf[i]?) (start d w m) (start d w m') :=
    ⟨rfl, hlen, fun _ hi => hi⟩
  obtain ⟨t', hrun', htwin'⟩ := htwin.traced hrun hs hqueue hread
  refine ⟨t', hrun', htwin'.process, htwin'.agree, ?_, ?_⟩
  · rintro os₁ o os₂ rfl
    obtain ⟨s₁, h₁, h₂⟩ := hrun.split
    rcases h₂ with - | ⟨hstep, hrest⟩
    obtain ⟨hs₁, hl₁⟩ := h₁.covered hs
    obtain ⟨s₁', h₁', htwin₁⟩ := htwin.traced h₁ hs hqueue fun i hi => hread i hi.append
    obtain ⟨s₂', hstep', htwin₂, hobs, hstores⟩ := htwin₁.step hs₁
      (by rw [hl₁]; exact hqueue)
      (fun i hi => hread i ⟨os₁, _, os₂, s₁, rfl, h₁, hi⟩) hstep
    have hshows := shows_of_step hs₁ hstep
    obtain rfl := hshows.completion
    refine ⟨s₁, _, s₁', s₂', h₁, hstep, h₁', hstep', htwin₁.process, htwin₂.process,
      fun request hr => by rw [hshows.called, hr], hshows.region, hstores, fun ds hc a ha => ?_⟩
    have hw : (s₁.1.dev.chain s₁.2 (s₁.1.dev.nextHead s₁.2)).Walks ds none := by
      have hhead : (observe work s₁).head = s₁.1.dev.nextHead s₁.2 :=
        (completes_of_step hs₁ hstep).head
      have hc' := collect_iff.mp hc
      rwa [hhead, Device.chain, show d.layout = s₁.1.dev.layout from hl₁.symm] at hc'
    obtain ⟨q, hq, hlo, hhi⟩ := exists_store_of_mem_take hs₁ hstep hw ha
    rw [hshows.region, hstores]
    exact SharedMem.putAll_agree_of_mem htwin₁.len hq hlo hhi
  · intro hend fuel hfuel
    have hs' : Covered (start d w m') := by
      show d.layout.endAddr ≤ m'.len
      rw [← hlen]
      exact hcov
    have hend' : t'.1.dev.pending t'.2 = 0 := by
      have hl := (hrun.covered hs).2
      rw [htwin'.pending (by rw [hl]; exact hqueue)]
      exact hend
    refine ⟨bind_ok (hrun.loop hs hend hfuel), ?_⟩
    rw [← htwin'.process]
    exact bind_ok (hrun'.loop hs' hend' hfuel)

/-- The same queue and the same request; where the reply goes, and behind it,
the bytes are others. -/
def pairTwin : SharedMem := (pairChain.put 81 [3, 4]).put 85 [1]

theorem runReadsBuffer_pairChain {os : List Observed} (hos : os.length = 1) {i : ℕ}
    (h : RunReadsBuffer (fun n r => (r ++ [n, 7], n + 1))
      (start (Device.new pairQueue true) (5 : UInt8) pairChain) os i) : i = 80 := by
  obtain ⟨os₁, o, os₂, s₁, rfl, h₁, ds, b, hc, hb, hi⟩ := h
  rcases os₁ with - | ⟨o₁, os₁⟩
  · cases h₁
    cases collect_pairChain.symm.trans hc
    have hreadable : readableOf [⟨80, 1, 1, 1⟩, ⟨81, 2, 2, 0⟩] = [(80, 1)] := by decide
    rw [hreadable, List.mem_singleton] at hb
    subst hb
    obtain ⟨hle, hlt⟩ := hi
    exact Nat.le_antisymm (Nat.lt_succ_iff.mp hlt) hle
  · simp at hos

theorem process_noninterference_pairChain :
    ∃ t t', (Device.new pairQueue true).process 2 (fun n r => (r ++ [n, 7], n + 1)) 5 pairChain =
        .ok t.1.stats t ∧
      (Device.new pairQueue true).process 2 (fun n r => (r ++ [n, 7], n + 1)) 5 pairTwin =
        .ok t.1.stats t' ∧
      t.1.stats.bytesWritten = 2 ∧ t'.1.work = 6 ∧
      t'.2.buf[81]? = some 9 ∧ t'.2.buf[82]? = some 5 := by
  obtain ⟨t, hstep, hpending, hstats, hwork, h81, h82⟩ : ∃ t, step (fun n r => (r ++ [n, 7], n + 1))
        (start (Device.new pairQueue true) (5 : UInt8) pairChain) = .ok (some (0, 2)) t ∧
      t.1.dev.pending t.2 = 0 ∧ t.1.stats.bytesWritten = 2 ∧ t.1.work = 6 ∧
      t.2.buf[81]? = some 9 ∧ t.2.buf[82]? = some 5 :=
    ⟨_, rfl, by decide +kernel, by decide +kernel, by decide +kernel, by decide +kernel,
      by decide +kernel⟩
  -- the twin differs past the rings only, where the chain does not read
  have hsame : SharedMem.SameOn pairTwin pairChain pairQueue.descTable pairQueue.endAddr :=
    (SharedMem.sameOn_put _ (.inl (by decide))).trans (pairChain.sameOn_put (.inl (by decide)))
  obtain ⟨t', hrun', hprocess, -, heach, hreturns⟩ := process_noninterference
    (fun n r => (r ++ [n, 7], n + 1)) (Device.new pairQueue true) (5 : UInt8) (by decide)
    (by decide) hsame.symm (.cons hstep (.nil t)) fun i hi => by
      rw [runReadsBuffer_pairChain rfl hi]
      decide +kernel
  obtain ⟨hret, hret'⟩ := hreturns hpending 2 (by decide)
  obtain ⟨s₁, s₂, s₁', s₂', h₁, hs₂, h₁', hs₂', -, -, -, -, -, hwritten⟩ := heach [] _ [] rfl
  cases h₁
  cases h₁'
  cases hstep.symm.trans hs₂
  rcases hrun' with - | ⟨hstep', ⟨⟩⟩
  obtain ⟨-, rfl⟩ : _ ∧ s₂' = t' := by simpa using hs₂'.symm.trans hstep'
  have hsame₂ := hwritten _ collect_pairChain
  refine ⟨t, _, hret, hret', hstats, by rw [hprocess, hwork], ?_, ?_⟩
  · rw [← hsame₂ 81 (by decide +kernel), h81]
  · rw [← hsame₂ 82 (by decide +kernel), h82]
end Process

end SystemsStudy
