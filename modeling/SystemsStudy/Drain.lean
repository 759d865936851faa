/-
SystemsStudy/Drain.lean

Does `Device::process` return?

The loop runs as long as `avail.idx` differs from `nextAvail`.  An iteration
advances `nextAvail` by one, so with `avail.idx` at rest the loop ends after as
many iterations as were pending.  But `avail.idx` is read again before every
iteration, and an iteration writes the buffers of a chain the guest made.  A
buffer that covers `avail.idx` lets the response move the index along.

* `process_returns_iff`: the function returns exactly if, from some iteration
  on, no chain with such a buffer is served.
* `echo_never_returns`: two descriptors suffice for the opposite.  The request
  is `used.idx`, the response goes to `avail.idx`, and a device that returns
  the request unchanged publishes its own work forever.
-/
import SystemsStudy.Frame

namespace SystemsStudy

open Bytes Fallible

variable {ω : Type}

namespace Process

variable {work : Work ω} {s s' t : Process ω × SharedMem}

/-! ### The measure of the loop -/

/-- There is a next chain, it is well formed, and one of its device-writable
buffers meets the two bytes of `avail.idx`. -/
def ServesAvailIdx (s : Process ω × SharedMem) : Prop :=
  s.1.dev.pending s.2 ≠ 0 ∧
  ∃ ds, (s.1.dev.chain s.2 (s.1.dev.nextHead s.2)).collect (s.1.dev.layout.qs + 1) =
      .ok (ds, none) ∧
    ∃ d ∈ ds, d.isWriteOnly = true ∧ d.addr.toNat < s.1.dev.layout.availIdx + 2 ∧
      s.1.dev.layout.availIdx < d.addr.toNat + d.len.toNat

/-- The device's own writes do not reach `avail.idx`; only a buffer can. -/
theorem word16_availIdx_of_step {c : UInt16 × UInt32} (hs : Covered s)
    (h : step work s = .ok (some c) s') (hno : ¬ ServesAvailIdx s) :
    s'.2.word16 s.1.dev.layout.availIdx = s.2.word16 s.1.dev.layout.availIdx := by
  have hlay := s.1.dev.layout.bounds
  apply SharedMem.SameOn.word16_eq
  intro i h₁ h₂
  apply (stepSpec_of_step hs h).frame
  intro (hmay : MayWrite s i)
  cases hmay with
  | usedSlot hlo _ =>
      have := s.1.dev.layout.le_usedBase s.1.dev.nextUsed
      rw [VirtqLayout.usedBase] at this
      omega
  | usedIdx hlo _ =>
      have : s.1.dev.layout.usedIdx = s.1.dev.layout.usedRing + 2 := rfl
      omega
  | buffer hc hd hw hlo hhi =>
      exact hno ⟨pending_ne_zero_of_step hs h, _, hc, _, hd, hw, lt_of_le_of_lt hlo h₂,
        lt_of_le_of_lt h₁ hhi⟩

/-- An iteration that leaves `avail.idx` alone has one chain less to go. -/
theorem pending_of_step {c : UInt16 × UInt32} (hs : Covered s)
    (h : step work s = .ok (some c) s') (hno : ¬ ServesAvailIdx s) :
    (s'.1.dev.pending s'.2).toNat + 1 = (s.1.dev.pending s.2).toNat := by
  have hl : s'.1.dev.layout = s.1.dev.layout := (stepSpec_of_step hs h).layout_len.1
  have hidx := word16_availIdx_of_step hs h hno
  have hnext := (completes_of_step hs h).nextAvail
  have hp : s'.1.dev.pending s'.2 = s.1.dev.pending s.2 - 1 := by
    rw [Device.pending, hl, hidx, hnext, Device.pending]
    grind
  rw [hp, Rolling.toNat_sub_one (pending_ne_zero_of_step hs h)]

/-- A run none of whose iterations can move `avail.idx` counts down to what is
left to do. -/
theorem Iterations.pending {cs : List (UInt16 × UInt32)} (hs : Covered s)
    (h : Iterations work s cs t)
    (hno : ∀ cs₁ cs₂ s₁, cs = cs₁ ++ cs₂ → cs₂ ≠ [] → Iterations work s cs₁ s₁ →
      ¬ ServesAvailIdx s₁) :
    cs.length + (t.1.dev.pending t.2).toNat = (s.1.dev.pending s.2).toNat := by
  induction h with
  | nil => simp
  | @cons s s' t c cs hstep hrest ih =>
      have hfirst : ¬ ServesAvailIdx s := hno [] (c :: cs) s rfl (by simp) (.nil s)
      have hrec := ih (hs.step hstep) fun cs₁ cs₂ s₁ he hne h₁ =>
        hno (c :: cs₁) cs₂ s₁ (by rw [he]; rfl) hne (.cons hstep h₁)
      have hone := pending_of_step hs hstep hfirst
      rw [List.length_cons]
      omega

/-! ### When the function returns -/

/-- No run is longer than one that ends with nothing available. -/
theorem Iterations.length_le {cs cs' : List (UInt16 × UInt32)} (hs : Covered s)
    (h : Iterations work s cs t) (hz : t.1.dev.pending t.2 = 0)
    (h' : Iterations work s cs' s') : cs'.length ≤ cs.length := by
  by_contra hlt
  have hsplit : cs' = cs'.take cs.length ++ cs'.drop cs.length := (List.take_append_drop _ _).symm
  rw [hsplit] at h'
  -- the longer run passes through the end of the shorter one, and goes on
  obtain ⟨t', h₁, h₂⟩ := h'.split
  obtain ⟨-, rfl⟩ := h.unique h₁ (by simp; omega)
  rcases hd : cs'.drop cs.length with - | ⟨c, rest⟩
  · have := congrArg List.length hd
    simp at this
    omega
  · rw [hd] at h₂
    rcases h₂ with - | ⟨hstep, -⟩
    exact pending_ne_zero_of_step (hs.iterations h) hstep hz

/-- `Device::process` returns exactly if from some iteration on no chain is
served whose device-writable buffers meet `avail.idx`; and if that holds from
the first iteration on, it returns after the iterations that were pending. -/
theorem process_returns_iff (work : Work ω) (d : Device) (w : ω) (m : SharedMem)
    (h : d.layout.Covered m) :
    ((∃ fuel stats t, d.process fuel work w m = .ok stats t) ↔
      ∃ n, ∀ cs t, Iterations work (start d w m) cs t → n ≤ cs.length →
        ¬ ServesAvailIdx t) ∧
    ((∀ cs t, Iterations work (start d w m) cs t → ¬ ServesAvailIdx t) →
      ∃ cs t, d.process ((d.pending m).toNat + 1) work w m = .ok t.1.stats t ∧
        Iterations work (start d w m) cs t ∧ cs.length = (d.pending m).toNat) := by
  have hs : Covered (start d w m) := h
  refine ⟨⟨?_, ?_⟩, ?_⟩
  · rintro ⟨fuel, stats, t, hp⟩
    -- no run is longer than the one that returned
    rcases process_spec work fuel w hs with ⟨cs, t', -, hi, -, hz⟩ | ⟨cs, t', hp', -⟩
    · refine ⟨cs.length, fun cs' t₁ hi' hle hserve => ?_⟩
      have hlen : cs.length = cs'.length := hle.antisymm (hi.length_le hs hz hi')
      obtain ⟨-, rfl⟩ := hi.unique hi' hlen
      exact hserve.1 hz
    · rw [hp] at hp'
      cases hp'
  · rintro ⟨n, hn⟩
    -- after `n` iterations what is pending, less than 2^16, counts down
    refine ⟨n + 2 ^ 16, ?_⟩
    rcases process_spec work (n + 2 ^ 16) w hs with ⟨cs, t, hp, -⟩ | ⟨cs, t, -, hi, hlen⟩
    · exact ⟨_, _, hp⟩
    · exfalso
      rw [← List.take_append_drop n cs] at hi
      obtain ⟨s₁, h₁, h₂⟩ := hi.split
      have hcount := h₂.pending (hs.iterations h₁) fun cs₁ _ s₂ _ _ h₃ =>
        hn _ s₂ (h₁.append h₃) (by simp; omega)
      have hlt := UInt16.toNat_lt (s₁.1.dev.pending s₁.2)
      simp only [List.length_drop] at hcount
      omega
  · intro hno
    rcases process_spec work ((d.pending m).toNat + 1) w hs with
      ⟨cs, t, hp, hi, -, hz⟩ | ⟨cs, t, -, hi, hlen⟩
    · refine ⟨cs, t, hp, hi, ?_⟩
      have hcount := hi.pending hs fun cs₁ _ s₁ _ _ h₁ => hno cs₁ s₁ h₁
      rw [hz] at hcount
      exact hcount
    · exfalso
      have hcount := hi.pending hs fun cs₁ _ s₁ _ _ h₁ => hno cs₁ s₁ h₁
      have : (start d w m).1.dev.pending (start d w m).2 = d.pending m := rfl
      rw [this] at hcount
      omega

/-! ### A region that keeps the device busy -/

/-- The buffer of `used.idx`, for the device to read. -/
def usedIdxReader : Descriptor := ⟨46, 2, virtqDescFNext, 1⟩

/-- The buffer of `avail.idx`, for the device to write. -/
def availIdxWriter : Descriptor := ⟨34, 2, virtqDescFWrite, 0⟩

/-- One published chain, of these two buffers. -/
def selfFeeding : SharedMem :=
  (((SharedMem.new 66 (by decide)).put 0 (toLe 8 46 ++ toLe 4 2 ++ toLe 2 1 ++ toLe 2 1)).put 16
    (toLe 8 34 ++ toLe 4 2 ++ toLe 2 2 ++ toLe 2 0)).put 34 [1, 0]

/-- A device that returns the request as its response. -/
def echo : Work Unit := fun w request => (request, w)

/-- The invariant of the run: the table and the avail slots are as they were,
both counters stand at the same position, and something is available. -/
structure Busy (s : Process Unit × SharedMem) : Prop where
  layout : s.1.dev.layout = pairQueue
  len : s.2.len = 66
  table : SharedMem.SameOn s.2 selfFeeding 0 32
  slots : SharedMem.SameOn s.2 selfFeeding 36 40
  position : s.1.dev.nextAvail = s.1.dev.nextUsed
  usedIdx : s.2.word16 46 = s.1.dev.nextUsed
  pending : s.1.dev.pending s.2 ≠ 0

theorem busy_start : Busy (start (Device.new pairQueue true) () selfFeeding) :=
  ⟨rfl, rfl, fun _ _ _ => rfl, fun _ _ _ => rfl, rfl, by decide, by decide⟩

variable {b b' : Process Unit × SharedMem}

theorem Busy.covered (hb : Busy b) : Covered b := by
  show b.1.dev.layout.endAddr ≤ b.2.len
  rw [hb.layout, hb.len]
  decide

/-- Both avail slots hold head 0. -/
theorem Busy.nextHead (hb : Busy b) : b.1.dev.nextHead b.2 = 0 := by
  have hslot : ∀ i : UInt16, pairQueue.availSlot i = 36 ∨ pairQueue.availSlot i = 38 := by
    intro i
    have h := pairQueue.slot_lt i
    have : pairQueue.availSlot i = 36 + (i % 2).toNat * 2 := rfl
    have : pairQueue.qs = 2 := rfl
    have : (i % pairQueue.queueSize).toNat = (i % 2).toNat := rfl
    omega
  rw [Device.nextHead, hb.layout]
  rcases hslot b.1.dev.nextAvail with h | h
  · rw [h, (hb.slots.mono (by omega) (by omega)).word16_eq]
    decide
  · rw [h, (hb.slots.mono (by omega) (by omega)).word16_eq]
    decide

/-- The walk yields the two buffers and no error. -/
theorem Busy.walks (hb : Busy b) :
    (b.1.dev.chain b.2 0).Walks [usedIdxReader, availIdxWriter] none := by
  have hread : ∀ a, a + 16 ≤ 32 → readDescriptor b.2 a = .ok (selfFeeding.descAt a) := by
    intro a ha
    rw [readDescriptor_ok (by rw [hb.len]; omega), (hb.table.mono (by omega) ha).descAt_eq]
  rw [Device.chain, hb.layout]
  refine .yield rfl ⟨show (2 : UInt16) ≠ 0 by decide, show (0 : UInt16).toNat < 2 by decide,
    ?_, rfl, show (0 : UInt32).toNat + (2 : UInt32).toNat < _ by decide, .inr rfl⟩
    (.yield rfl ⟨show (2 - 1 : UInt16) ≠ 0 by decide, show (1 : UInt16).toNat < 2 by decide,
      ?_, rfl, show (2 : UInt32).toNat + (2 : UInt32).toNat < _ by decide, .inl rfl⟩
      (.stop rfl))
  · exact (hread 0 (by omega)).trans (by decide)
  · exact (hread 16 (by omega)).trans (by decide)

/-- The request is the used index. -/
theorem Busy.gather (hb : Busy b) :
    gather b.2 (readableOf [usedIdxReader, availIdxWriter]) = (b.2.bytes 46 2, []) := by
  have hlen := hb.len
  have hread : b.2.readSlice 46 2 = .ok (b.2.bytes 46 2) := by
    rw [b.2.readSlice_eq, if_pos (by omega)]
  have hrefs : readableOf [usedIdxReader, availIdxWriter] = [(46, 2)] := by decide
  have haddr : (46 : UInt64).toNat = 46 := rfl
  have hn : (2 : UInt32).toNat = 2 := rfl
  rw [hrefs]
  simp only [SystemsStudy.gather, haddr, hn, hread, List.append_nil]

/-- The response goes to the avail index. -/
theorem Busy.scatter (hb : Busy b) :
    scatter (b.2.bytes 46 2) (writableOf [usedIdxReader, availIdxWriter]) b.2 0 0 =
      .ok (b.2.put 34 (b.2.bytes 46 2), 2, none) := by
  have hlen := hb.len
  have hbytes : (b.2.bytes 46 2).length = 2 := length_slice (by rw [SharedMem.len] at hlen; omega)
  have hall : slice (b.2.bytes 46 2) 0 2 = b.2.bytes 46 2 := by
    rw [slice, List.drop_zero, List.take_of_length_le hbytes.le]
  have hwrite : b.2.writeSlice 34 (b.2.bytes 46 2) = .ok (b.2.put 34 (b.2.bytes 46 2)) := by
    rw [b.2.writeSlice_eq, if_pos (by omega)]
  have hws : writableOf [usedIdxReader, availIdxWriter] = [(34, 2)] := by decide
  have haddr : (34 : UInt64).toNat = 34 := rfl
  have hmin : min (2 : UInt32).toNat 2 = 2 := by decide
  have hadd : checkedAddU32 0 (UInt32.ofNat 2) = some 2 := by decide
  rw [hws, SystemsStudy.scatter, if_neg (by omega)]
  simp only [hbytes, Nat.sub_zero, hmin, Nat.zero_add, gt_iff_lt, lt_irrefl, if_false, hall,
    haddr, hwrite, hadd, SystemsStudy.scatter]

/-- One iteration copies `used.idx` to `avail.idx` and then publishes its
completion. -/
theorem Busy.step (hb : Busy b) : ∃ c b', step echo b = .ok (some c) b' ∧ Busy b' := by
  have hcov := hb.covered
  obtain ⟨r, b', hstep⟩ := step_returns echo hcov
  obtain ⟨p, m⟩ := b
  obtain ⟨p', m'⟩ := b'
  have hhead := hb.nextHead
  dsimp only at hhead
  cases stepSpec_of_step hcov hstep with
  | idle hp => exact absurd hp hb.pending
  | refused _ hw =>
      rw [hhead] at hw
      exact absurd (hw.unique hb.walks).2 (by simp)
  | served hp hw hwork hsc =>
      -- the walk, the request and the response are determined
      rw [hhead] at hw
      obtain ⟨rfl, -⟩ := hw.unique hb.walks
      obtain ⟨rfl, rfl⟩ : _ ∧ _ := Prod.mk.injEq .. ▸ hwork
      rw [hb.gather] at hsc
      obtain ⟨rfl, rfl, rfl⟩ : _ ∧ _ ∧ _ := by simpa using hb.scatter.symm.trans hsc.run
      have hl : p.dev.layout = pairQueue := hb.layout
      have hlen : m.len = 66 := hb.len
      have hbytes : (m.bytes 46 2).length = 2 :=
        length_slice (by rw [SharedMem.len] at hlen; omega)
      have hidx : p.dev.layout.usedIdx = 46 := by rw [hl]; rfl
      have havail : p.dev.layout.availIdx = 34 := by rw [hl]; rfl
      have hbase : 48 ≤ p.dev.layout.usedBase p.dev.nextUsed := by
        rw [hl]
        exact pairQueue.le_usedBase _
      -- outside the two indices and the used slot everything stays
      have hkeep : ∀ lo hi, hi ≤ 34 ∨ 36 ≤ lo → hi ≤ 46 → SharedMem.SameOn
          (p.dev.layout.putUsed (m.put 34 (m.bytes 46 2)) p.dev.nextUsed (p.dev.nextHead m) 2)
          m lo hi := fun lo hi h₁ h₂ =>
        (VirtqLayout.sameOn_putUsed (by omega) (by omega)).trans
          (SharedMem.sameOn_put _ (by rw [hbytes]; omega))
      refine ⟨_, _, hstep, ⟨hl, ?_, ?_, ?_, ?_, ?_, ?_⟩⟩
      · show (p.dev.layout.putUsed _ _ _ _).len = 66
        rw [VirtqLayout.len_putUsed, SharedMem.len_put, hlen]
      · exact (hkeep 0 32 (by omega) (by omega)).trans hb.table
      · exact (hkeep 36 40 (by omega) (by omega)).trans hb.slots
      · exact congrArg (· + 1) hb.position
      · show (p.dev.layout.putUsed _ _ _ _).word16 46 = p.dev.nextUsed + 1
        rw [← hidx]
        refine VirtqLayout.word16_usedIdx_putUsed ?_ _ _
        rw [SharedMem.len_put]
        exact hcov.usedBase _
      · -- avail.idx is now the old position, one behind the new one
        show (p.dev.layout.putUsed (m.put 34 (m.bytes 46 2)) _ _ _).word16
          p.dev.layout.availIdx - (p.dev.nextAvail + 1) ≠ 0
        have hback := m.bytes_put_self (a := 34) (d := m.bytes 46 2) (by omega)
        rw [hbytes] at hback
        have hword : (m.put 34 (m.bytes 46 2)).word16 34 = p.dev.nextUsed := by
          rw [SharedMem.word16, hback]
          exact hb.usedIdx
        have hpos : p.dev.nextAvail = p.dev.nextUsed := hb.position
        have hsame : SharedMem.SameOn (p.dev.layout.putUsed (m.put 34 (m.bytes 46 2))
            p.dev.nextUsed (p.dev.nextHead m) 2) (m.put 34 (m.bytes 46 2)) 34 (34 + 2) :=
          VirtqLayout.sameOn_putUsed (by omega) (by omega)
        rw [havail, hsame.word16_eq, hword, hpos]
        grind

theorem Busy.loop (hb : Busy b) (fuel : ℕ) : ∃ b', loop echo fuel b = .error .fuel b' := by
  induction fuel generalizing b with
  | zero => exact ⟨b, rfl⟩
  | succ fuel ih =>
      obtain ⟨c, b', hstep, hb'⟩ := hb.step
      obtain ⟨b'', h⟩ := ih hb'
      exact ⟨b'', by rw [Process.loop, bind_ok hstep]; exact h⟩

theorem busy_process (fuel : ℕ) :
    ∃ t, (Device.new pairQueue true).process fuel echo () selfFeeding = .error .fuel t := by
  obtain ⟨t, h⟩ := busy_start.loop fuel
  exact ⟨t, bind_error h⟩

/-- The region covers the layout, the work function is total, and the function
never returns. -/
theorem echo_never_returns :
    pairQueue.Covered selfFeeding ∧
    ¬ ∃ fuel stats t, (Device.new pairQueue true).process fuel echo () selfFeeding =
      .ok stats t := by
  refine ⟨by decide, ?_⟩
  rintro ⟨fuel, stats, t, h⟩
  obtain ⟨t', h'⟩ := busy_process fuel
  cases h.symm.trans h'

theorem process_returns_iff_selfFeeding :
    ¬ ∃ n, ∀ cs t, Iterations echo (start (Device.new pairQueue true) () selfFeeding) cs t →
      n ≤ cs.length → ¬ ServesAvailIdx t := by
  intro h
  obtain ⟨fuel, stats, t, hp⟩ :=
    (process_returns_iff echo (Device.new pairQueue true) () selfFeeding (by decide)).1.mpr h
  obtain ⟨t', hp'⟩ := busy_process fuel
  cases hp.symm.trans hp'

end Process

end SystemsStudy
