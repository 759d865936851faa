/-
SystemsStudy/Transfer.lean

What goes in and what comes out when a chain is served.

The request is the concatenation of the device-readable buffers, and the
response is laid over the concatenation of the device-writable ones: as much of
it as fits, from the front, and behind it what was there before
(`contents_scattered`).  The completion reports exactly how much that is, so
none of the bytes it reports is left over from the buffer's last use.

The writable buffers may not overlap each other, or a later one would overwrite
what an earlier one received.
-/
import SystemsStudy.Refusal
import SystemsStudy.Stores

namespace SystemsStudy

open Bytes Fallible

variable {ω : Type}

/-! ### Buffers -/

/-- The byte at `i` belongs to the buffer. -/
def BufferRef.Holds (b : BufferRef) (i : ℕ) : Prop :=
  b.1.toNat ≤ i ∧ i < b.1.toNat + b.2.toNat

/-- Two buffers with no byte in common. -/
def BufferRef.Apart (b c : BufferRef) : Prop := ∀ i, BufferRef.Holds b i → ¬ BufferRef.Holds c i

/-- The concatenation of what the buffers hold. -/
def contents (m : SharedMem) (bs : List BufferRef) : List UInt8 :=
  bs.flatMap fun b => m.bytes b.1.toNat b.2.toNat

variable {m m' : SharedMem} {response : List UInt8} {bs ws : List BufferRef} {cursor : ℕ}

@[simp] theorem contents_nil : contents m [] = [] := rfl

@[simp] theorem contents_cons (b : BufferRef) (bs : List BufferRef) :
    contents m (b :: bs) = m.bytes b.1.toNat b.2.toNat ++ contents m bs := rfl

@[simp] theorem refsLen_nil : refsLen [] = 0 := rfl

@[simp] theorem refsLen_cons (b : BufferRef) (bs : List BufferRef) :
    refsLen (b :: bs) = b.2.toNat + refsLen bs := rfl

theorem contents_congr (h : ∀ b ∈ bs, ∀ i, BufferRef.Holds b i → m.buf[i]? = m'.buf[i]?) :
    contents m bs = contents m' bs := by
  induction bs with
  | nil => rfl
  | cons b bs ih =>
      have hb : SharedMem.SameOn m m' b.1.toNat (b.1.toNat + b.2.toNat) := fun i hlo hhi =>
        h b List.mem_cons_self i ⟨hlo, hhi⟩
      rw [contents_cons, contents_cons, hb.bytes_eq,
        ih fun c hc => h c (List.mem_cons_of_mem _ hc)]

theorem length_contents (h : ∀ b ∈ bs, b.1.toNat + b.2.toNat ≤ m.len) :
    (contents m bs).length = refsLen bs := by
  induction bs with
  | nil => rfl
  | cons b bs ih =>
      have hb : (m.bytes b.1.toNat b.2.toNat).length = b.2.toNat :=
        length_slice (h b List.mem_cons_self)
      rw [contents_cons, List.length_append, hb, ih fun c hc => h c (List.mem_cons_of_mem _ hc),
        refsLen_cons]

/-- Buffers inside the region are gathered without an error. -/
theorem gather_eq_contents (h : ∀ b ∈ bs, b.1.toNat + b.2.toNat ≤ m.len) :
    gather m bs = (contents m bs, []) := by
  induction bs with
  | nil => rfl
  | cons b bs ih =>
      obtain ⟨addr, len⟩ := b
      rw [gather, ih fun c hc => h c (List.mem_cons_of_mem _ hc), m.readSlice_eq,
        if_pos (h (addr, len) List.mem_cons_self)]
      rfl

/-! ### The response -/

/-- Inside the region the loop stores the response or fills the buffers,
whichever is shorter. -/
theorem storedLen_scattered {len : ℕ} (h : ∀ b ∈ ws, b.1.toNat + b.2.toNat ≤ len) :
    storedLen (scattered len response ws cursor) =
      min (response.length - cursor) (refsLen ws) := by
  induction ws generalizing cursor with
  | nil => simp [scattered, storedLen]
  | cons b rest ih =>
      obtain ⟨addr, n⟩ := b
      have hb := h (addr, n) List.mem_cons_self
      dsimp only at hb
      rcases Nat.lt_or_ge cursor response.length with hcur | hfull
      · rw [scattered_cons hcur (by omega), refsLen_cons]
        have hrest := @ih (cursor + min n.toNat (response.length - cursor))
          fun c hc => h c (List.mem_cons_of_mem _ hc)
        rw [storedLen, List.map_cons, List.sum_cons, length_slice (by omega)]
        rw [storedLen] at hrest
        rw [hrest]
        dsimp only
        omega
      · rw [scattered_full hfull, Nat.sub_eq_zero_of_le hfull, Nat.zero_min]
        rfl

/-- A store of the loop lies in one of the buffers. -/
theorem holds_of_mem_scattered {len : ℕ} {q : ℕ × List UInt8}
    (h : q ∈ scattered len response ws cursor) :
    ∃ b ∈ ws, ∀ i, q.1 ≤ i → i < q.1 + q.2.length → BufferRef.Holds b i := by
  have hq : (q.1, q.2.length) ∈ writtenPieces len response.length ws cursor := by
    rw [← map_scattered]
    exact List.mem_map_of_mem h
  obtain ⟨b, hb, haddr, hlen⟩ := exists_of_mem_pieces (mem_pieces_of_mem_writtenPieces hq)
  dsimp only at haddr hlen
  exact ⟨b, hb, fun i hlo hhi => ⟨by omega, by omega⟩⟩

/-- The loop lays the rest of the response over the buffers, from the front. -/
theorem contents_scattered (hin : ∀ b ∈ ws, b.1.toNat + b.2.toNat ≤ m.len)
    (hapart : ws.Pairwise BufferRef.Apart) :
    contents (m.putAll (scattered m.len response ws cursor)) ws =
      (response.drop cursor).take (refsLen ws) ++
        (contents m ws).drop (response.length - cursor) := by
  induction ws generalizing m cursor with
  | nil => simp
  | cons b rest ih =>
      obtain ⟨addr, n⟩ := b
      have hb : addr.toNat + n.toNat ≤ m.len := hin (addr, n) List.mem_cons_self
      obtain ⟨hfirst, hrest⟩ := List.pairwise_cons.mp hapart
      rcases Nat.lt_or_ge cursor response.length with hcur | hfull
      · set k := min n.toNat (response.length - cursor) with hk
        have hslice : (slice response cursor k).length = k := length_slice (by omega)
        rw [scattered_cons hcur (by omega), SharedMem.putAll_cons, ← hk]
        set m₁ := m.put addr.toNat (slice response cursor k) with hm₁
        have hl₁ : m₁.len = m.len := SharedMem.len_put _ _ _
        -- the store into this buffer does not meet the others, nor theirs this one
        have hothers : contents m₁ rest = contents m rest := by
          refine contents_congr fun c hc i hi => m.put_getElem? ?_
          by_contra hno
          exact hfirst c hc i ⟨by dsimp only; omega, by dsimp only; omega⟩ hi
        have hthis : (m₁.putAll (scattered m.len response rest (cursor + k))).bytes addr.toNat
            n.toNat = m₁.bytes addr.toNat n.toNat := by
          refine SharedMem.SameOn.bytes_eq fun i hlo hhi => SharedMem.putAll_getElem? ?_
          intro q hq
          obtain ⟨c, hc, hholds⟩ := holds_of_mem_scattered hq
          by_contra hno
          exact hfirst c hc i ⟨hlo, hhi⟩ (hholds i (by omega) (by omega))
        have hfront : m₁.bytes addr.toNat n.toNat =
            slice response cursor k ++ (m.bytes addr.toNat n.toNat).drop k := by
          have h := @slice_overwrite_front _ m.buf addr.toNat n.toNat (slice response cursor k)
            (by omega) hb
          rwa [hslice] at h
        have hrec := @ih m₁ (cursor + k)
          (fun c hc => by rw [hl₁]; exact hin c (List.mem_cons_of_mem _ hc)) hrest
        rw [hl₁, hothers] at hrec
        have hbytes : (m.bytes addr.toNat n.toNat).length = n.toNat := length_slice hb
        have hlay := lay_append (response.drop cursor) (m.bytes addr.toNat n.toNat)
          (contents m rest) (refsLen rest)
        rw [hbytes, List.length_drop, ← hk, List.drop_drop, Nat.sub_sub] at hlay
        rw [contents_cons, hthis, hfront, hrec, contents_cons, refsLen_cons]
        exact hlay
      · rw [scattered_full hfull, Nat.sub_eq_zero_of_le hfull, List.drop_eq_nil_of_le hfull]
        simp

/-! ### Serving a chain -/

namespace Process

variable {p : Process ω}

/-- After the scatter loop as much of the response as fits is in the buffers. -/
theorem contents_of_scatter {ds : List Descriptor} {response : List UInt8} {m m₁ : SharedMem}
    {written : UInt32} {err : Option MemError}
    (hsc : ScatterSpec response (writableOf ds) m 0 0 m₁ written err)
    (hwritable : ∀ b ∈ writableOf ds, b.1.toNat + b.2.toNat ≤ m.len)
    (hapart : (writableOf ds).Pairwise BufferRef.Apart) :
    contents m₁ (writableOf ds) =
      response.take (min response.length (refsLen (writableOf ds))) ++
        (contents m (writableOf ds)).drop (min response.length (refsLen (writableOf ds))) := by
  obtain ⟨hm₁, -⟩ := scatter_replay hsc.run
  have hlay := @contents_scattered m response _ 0 hwritable hapart
  have hlen := length_contents hwritable
  rw [← hm₁, Nat.sub_zero, List.drop_zero] at hlay
  rw [hlay]
  rcases le_total response.length (refsLen (writableOf ds)) with hle | hle
  · rw [min_eq_left hle, List.take_of_length_le hle, List.take_length]
  · rw [min_eq_right hle, List.drop_eq_nil_of_le (by omega), List.drop_eq_nil_of_le (by omega)]

/-- Buffers lie in the region if the descriptors do. -/
theorem inside_buffers {ds : List Descriptor} {len : ℕ}
    (h : ∀ e ∈ ds, e.addr.toNat + e.len.toNat ≤ len) :
    (∀ b ∈ readableOf ds, b.1.toNat + b.2.toNat ≤ len) ∧
      ∀ b ∈ writableOf ds, b.1.toNat + b.2.toNat ≤ len := by
  constructor
  · intro b hb
    obtain ⟨e, he, -, rfl⟩ := mem_readableOf.mp hb
    exact h e he
  · intro b hb
    obtain ⟨e, he, -, rfl⟩ := mem_writableOf.mp hb
    exact h e he

/-- A chain whose buffers lie in the region, the writable ones apart from each
other and from the used ring: the work closure is called once, with the contents
of the readable buffers; so many bytes of the writable buffers as the response
and they have in common are those of the response, while the others are as they
were; and that is the length published.  Where the region ends before the used
slot there is nothing to publish to, and the iteration fails. -/
theorem gather_scatter_exact (work : Work ω) {head : UInt16} {d : Device} {ds : List Descriptor}
    (hpop : Device.popChainHead (p.dev, m) = .ok (some head) (d, m))
    (hwalk : (d.chain m head).collect (d.layout.qs + 1) = .ok (ds, none))
    (hin : ∀ e ∈ ds, e.addr.toNat + e.len.toNat ≤ m.len)
    (hapart : (writableOf ds).Pairwise BufferRef.Apart)
    (hring : ∀ b ∈ writableOf ds, ∀ i, BufferRef.Holds b i →
      i < d.layout.usedRing ∨ d.layout.endAddr ≤ i) :
    let called := work p.work (contents m (readableOf ds))
    let n := min called.1.length (refsLen (writableOf ds))
    (UInt32.ofNat n).toNat = n ∧ ∃ s' : Process ω × SharedMem,
      s'.1.work = called.2 ∧
      contents s'.2 (writableOf ds) =
        called.1.take n ++ (contents m (writableOf ds)).drop n ∧
      (d.layout.usedBase d.nextUsed + 8 ≤ m.len →
        step work (p, m) = .ok (some (head, UInt32.ofNat n)) s' ∧
        s'.2.word32 (d.layout.usedSlot d.nextUsed).1 = head.toUInt32 ∧
        s'.2.word32 (d.layout.usedSlot d.nextUsed).2 = UInt32.ofNat n ∧
        s'.2.word16 d.layout.usedIdx = d.nextUsed + 1) ∧
      (m.len < d.layout.usedBase d.nextUsed + 8 →
        ∃ e, step work (p, m) = .error (.err e) s') := by
  obtain ⟨rfl, -, rfl⟩ := Device.popChainHead_eq_some hpop
  have hw := (ChainIter.collect_eq_ok (Nat.lt_succ_self _)).mp hwalk
  obtain ⟨hreadable, hwritable⟩ := inside_buffers hin
  intro called n
  have hwork : work p.work (gather m (readableOf ds)).1 = (called.1, called.2) := by
    rw [gather_eq_contents hreadable]
  have hsum : refsLen (writableOf ds) < 2 ^ 32 :=
    ((refsLen_writableOf_le ds).trans (Nat.le_add_left _ _)).trans_lt hw.totalLen_lt
  obtain ⟨m₁, written, err, hsc⟩ := scatter_spec called.1 (writableOf ds) m 0 0 (by
    rw [UInt32.toNat_zero]
    omega)
  have hscattered := contents_of_scatter hsc hwritable hapart
  have hn : written.toNat = n := by
    rw [hsc.toNat_written, storedLen_scattered hwritable, Nat.sub_zero]
  have hwritten : UInt32.ofNat n = written := by rw [← hn, UInt32.ofNat_toNat]
  -- nothing in the used ring is in a buffer
  have hkept : ∀ m' : SharedMem, (∀ i, i < p.dev.layout.usedRing ∨ p.dev.layout.endAddr ≤ i →
      m'.buf[i]? = m₁.buf[i]?) → contents m' (writableOf ds) =
        called.1.take n ++ (contents m (writableOf ds)).drop n := by
    intro m' hm'
    rw [contents_congr fun b hb i hi => hm' i (hring b hb i hi)]
    exact hscattered
  have hn32 : (UInt32.ofNat n).toNat = n := by rw [hwritten, hn]
  rw [hwritten] at hn32 ⊢
  refine ⟨hn32, ?_⟩
  rcases Nat.lt_or_ge m.len (p.dev.layout.usedBase p.dev.nextUsed + 8) with hout | hslot
  · obtain ⟨e, s', hserve, hcalled, hframe⟩ := @serve_unpublished _
      { p with dev := p.dev.popped } m work (p.dev.nextHead m) ds _ _ _ _ _ hout hwalk hwork hsc
    have h₁ := p.dev.layout.le_usedBase p.dev.nextUsed
    have h₂ := p.dev.layout.usedBase_add_le p.dev.nextUsed
    have hlay := p.dev.layout.bounds
    refine ⟨s', hcalled, hkept s'.2 fun i hi => hframe i ?_, fun hin => ?_,
      fun _ => ⟨e, step_of_pop_error hpop hserve⟩⟩
    · show i < p.dev.layout.usedBase p.dev.nextUsed ∨
        p.dev.layout.usedBase p.dev.nextUsed + 8 ≤ i
      omega
    · exact absurd hin (Nat.not_le.mpr hout)
  · have hserve := @serve_served _ { p with dev := p.dev.popped } m work (p.dev.nextHead m)
      ds _ _ _ _ _ hslot hwalk hwork hsc
    have hslot₁ : p.dev.layout.usedBase p.dev.nextUsed + 8 ≤ m₁.len := by
      rw [hsc.len_eq]
      exact hslot
    refine ⟨_, rfl, hkept _ fun i hi => putUsed_outside_usedRing m₁ _ _ _ hi, fun _ =>
      ⟨step_of_pop hpop hserve, ?_, ?_, ?_⟩, fun hout => absurd hslot (Nat.not_le.mpr hout)⟩
    · exact VirtqLayout.word32_usedBase_putUsed hslot₁ _ _
    · exact VirtqLayout.word32_usedLen_putUsed hslot₁ _ _
    · exact VirtqLayout.word16_usedIdx_putUsed hslot₁ _ _

/-- Of the three bytes of the response two fit. -/
theorem gather_scatter_exact_pairChain :
    ∃ s', step (fun n r => (r ++ [n, 7], n + 1)) (start (Device.new pairQueue true) 5 pairChain) =
        .ok (some (0, 2)) s' ∧ s'.1.work = 6 ∧ contents s'.2 [(81, 2)] = [9, 5] ∧
      s'.2.word16 pairQueue.usedIdx = 1 := by
  have hpop : Device.popChainHead (Device.new pairQueue true, pairChain) =
      .ok (some 0) ((Device.new pairQueue true).popped, pairChain) := rfl
  -- the chain and its contents, evaluated
  have hreadable : readableOf [⟨80, 1, 1, 1⟩, ⟨81, 2, 2, 0⟩] = [(80, 1)] := by decide
  have hwritable : writableOf [⟨80, 1, 1, 1⟩, ⟨81, 2, 2, 0⟩] = [(81, 2)] := by decide
  have hrequest : contents pairChain [(80, 1)] = [9] := by decide +kernel
  have hold : contents pairChain [(81, 2)] = [0, 0] := by decide +kernel
  obtain ⟨-, s', hwork, hcontents, hpublished, -⟩ := gather_scatter_exact
    (p := (start (Device.new pairQueue true) (5 : UInt8) pairChain).1) (m := pairChain)
    (fun n r => (r ++ [n, 7], n + 1)) hpop collect_pairChain (by simp; decide)
    (by rw [hwritable]; exact List.pairwise_singleton _ _)
    (by
      rw [hwritable]
      intro b hb i hi
      rw [List.mem_singleton.mp hb] at hi
      exact .inr (le_trans (by decide) hi.1))
  rw [hreadable, hrequest, hwritable] at hcontents hpublished
  rw [hold] at hcontents
  obtain ⟨hstep, -, -, hidx⟩ := hpublished (by decide)
  exact ⟨s', hstep, hwork, hcontents, hidx⟩

end Process

end SystemsStudy
