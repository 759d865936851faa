/-
SystemsStudy/Exchange.lean

The virtqueue is an exactly-once queue.

Every call is a step of the two queues the system represents
(`Represents.exec`), so every interleaving of calls, of any length, is a run of
them.  One fact carries the proof past the wrap of the 16-bit counters: a
request or an answer under way owns a descriptor, so there are at most
`queueSize` of them and no two share a slot.
-/
import SystemsStudy.System

namespace SystemsStudy

open Bytes Fallible

namespace Represents

variable {l : VirtqLayout} {s : System} {q : Relay UInt16 UInt32}

/-- Positions less than a queue size apart have disjoint avail slots. -/
theorem availSlot_disjoint {i j : ℕ} (h : i < j) (hj : j < i + l.qs) :
    l.availSlot (UInt16.ofNat i) + 2 ≤ l.availSlot (UInt16.ofNat j) ∨
      l.availSlot (UInt16.ofNat j) + 2 ≤ l.availSlot (UInt16.ofNat i) := by
  have hne := Rolling.mod_ne_mod h hj
  rw [l.availSlot_ofNat, l.availSlot_ofNat]
  omega

/-- Positions less than a queue size apart have disjoint used slots. -/
theorem usedBase_disjoint {i j : ℕ} (h : i < j) (hj : j < i + l.qs) :
    l.usedBase (UInt16.ofNat i) + 8 ≤ l.usedBase (UInt16.ofNat j) ∨
      l.usedBase (UInt16.ofNat j) + 8 ≤ l.usedBase (UInt16.ofNat i) := by
  have hne := Rolling.mod_ne_mod h hj
  rw [VirtqLayout.usedBase, VirtqLayout.usedBase, l.usedSlot_ofNat, l.usedSlot_ofNat]
  omega

/-! ### Publishing -/

/-- Publishing a chain appends its head to the requests. -/
theorem publish (h : Represents l s q) {bufs : List Buffer} {head : UInt16}
    {rest free : List UInt16} (hne : bufs ≠ []) (hord : readableFirst bufs = true)
    (hclear : ∀ b ∈ bufs, l.Clear b.addr.toNat b.len.toNat)
    (hlen : (head :: rest).length = bufs.length)
    (hfree : s.driver.freeDescs = free ++ (head :: rest).reverse) :
    Represents l
      { s with
        driver := (s.driver.took head rest free).published
        mem := Driver.putChain l s.mem s.driver.availIdx head (chainEntries (head :: rest) bufs) }
      { q with requests := q.requests ++ [head] } := by
  have htook : (s.driver.took head rest free).Owned := h.owned.took hfree
  have hmem : ∀ i ∈ head :: rest, i ∈ s.driver.freeDescs := fun i hi => mem_of_popped hfree hi
  have htab : ∀ i ∈ head :: rest, i.toNat < l.qs := by
    intro i hi
    have := h.owned.lt_of_free (hmem i hi)
    rwa [h.driverLayout] at this
  have hnd : (head :: rest).Nodup := h.owned.nodup_popped hfree
  have hbound := h.length_add_free_le
  have hshort : (head :: rest).length ≤ s.driver.freeDescs.length := by
    rw [hfree, List.length_append, List.length_reverse]
    omega
  have hone : 1 ≤ (head :: rest).length := Nat.succ_pos _
  have htotal : q.total = q.served + q.requests.length := rfl
  have hlay := l.bounds
  have hslot := l.le_availSlot s.driver.availIdx
  have hslot' := VirtqLayout.availSlot_add_le (l := l) s.driver.availIdx
  have hentEnd : ∀ e ∈ chainEntries (head :: rest) bufs, l.descAddr e.1 + 16 ≤ l.availRing := by
    intro e he
    have := htab e.1 (fst_mem_chainEntries hlen he)
    rw [VirtqLayout.descAddr]
    omega
  -- from the used ring on nothing changes
  have hring : SharedMem.SameOn (Driver.putChain l s.mem s.driver.availIdx head
      (chainEntries (head :: rest) bufs)) s.mem l.usedRing l.endAddr :=
    Driver.sameOn_putChain (fun e he => .inr (by have := hentEnd e he; omega)) (by omega) (by omega)
  refine
    { h with
      covered := ?_, owned := htook, keys := ?_, availIdx := ?_, availWord := ?_, usedWord := ?_
      requests := ?_, answers := ?_, chains := ?_ }
  · rw [VirtqLayout.Covered, Driver.len_putChain]
    exact h.covered
  · show (q.answers.map Prod.fst ++ (q.requests ++ [head])).Perm
      (s.driver.took head rest free).outstanding.keys
    rw [h.owned.keys_took hfree, ← List.append_assoc]
    exact (List.perm_append_singleton _ _).trans (h.keys.cons head)
  · show s.driver.availIdx + 1 = UInt16.ofNat (q.served + (q.requests ++ [head]).length)
    rw [h.availIdx, htotal, List.length_append, ← Nat.add_assoc]
    exact (Rolling.ofNat_succ _).symm
  · show (Driver.putChain _ _ _ _ _).word16 l.availIdx =
      UInt16.ofNat (q.served + (q.requests ++ [head]).length)
    rw [Driver.word16_availIdx_putChain h.covered, h.availIdx, htotal, List.length_append,
      ← Nat.add_assoc]
    exact (Rolling.ofNat_succ _).symm
  · rw [(hring.mono (by omega) (by omega)).word16_eq]
    exact h.usedWord
  · refine Relay.forall_getElem?_snoc (fun j a ha => ?_) ?_
    · -- an older request: another slot
      have hj : j < q.requests.length := (List.getElem?_eq_some_iff.mp ha).1
      have hdisj := availSlot_disjoint (l := l) (i := q.served + j) (j := q.total) (by omega)
        (by omega)
      rw [← h.availIdx] at hdisj
      have hlo := l.le_availSlot (UInt16.ofNat (q.served + j))
      exact h.request_kept ha (Driver.sameOn_putChain
        (fun e he => .inr (by have := hentEnd e he; omega)) (by omega) (by omega))
    · -- the new one
      show (Driver.putChain _ _ _ _ _).word16 (l.availSlot (UInt16.ofNat q.total)) = head
      rw [← h.availIdx]
      exact Driver.word16_availSlot_putChain h.covered
  · intro j a ha
    have hlo := l.le_usedBase (UInt16.ofNat (q.collected + j))
    have hhi := VirtqLayout.usedBase_add_le (l := l) (UInt16.ofNat (q.collected + j))
    exact h.answer_kept ha (hring.mono (by omega) (by omega))
  · intro k indices hk
    by_cases hkh : k = head
    · subst hkh
      have hlook : (s.driver.outstanding.insert k (k :: rest)).lookup k = some indices := hk
      rw [AList.lookup_insert] at hlook
      obtain rfl := Option.some.inj hlook
      exact ⟨bufs, Driver.encoded_putChain h.covered hlen hne hord htab hnd (by omega), hclear⟩
    · have hlook : (s.driver.outstanding.insert head (head :: rest)).lookup k = some indices := hk
      rw [AList.lookup_insert_ne hkh] at hlook
      obtain ⟨bufs', henc, hclear'⟩ := h.chains k indices hlook
      refine ⟨bufs', Driver.encoded_putChain_of_disjoint henc hlen ?_, hclear'⟩
      intro i hi hi'
      exact h.owned.not_mem_of_free VirtqLayout.nodup_indices (hmem i hi) hlook hi'

/-! ### Serving -/

/-- The buffers of an intact chain, as the walk yields them, are clear of the
queue. -/
theorem clear_of_collect {m : SharedMem} {a : UInt16} {rest : List UInt16}
    (hcov : l.Covered m) (hint : Intact l m (a :: rest)) {ds : List Descriptor}
    {e : Option ChainError} (hc : (ChainIter.new m l a).collect (l.qs + 1) = .ok (ds, e))
    {d : Descriptor} (hd : d ∈ ds) : l.Clear d.addr.toNat d.len.toNat := by
  obtain ⟨bufs, henc, hclear⟩ := hint
  rw [henc.collect hcov] at hc
  have hds : ds = (decoded 0 (chainDescriptors (a :: rest) bufs)).1 := by
    rw [Except.ok.inj hc]
  rw [hds] at hd
  have hprefix := decoded_prefix 0 (chainDescriptors (a :: rest) bufs)
  have hmem : d ∈ chainDescriptors (a :: rest) bufs := hprefix.subset hd
  have hview : (d.addr, d.len, d.isWriteOnly) ∈
      bufs.map fun b => (b.addr, b.len, b.deviceWritable) := by
    rw [← chainDescriptors_view henc.len_eq]
    exact List.mem_map_of_mem hmem
  obtain ⟨b, hb, heq⟩ := List.mem_map.mp hview
  obtain ⟨haddr, hlen, -⟩ : b.addr = d.addr ∧ b.len = d.len ∧ _ := by simpa using heq
  rw [← haddr, ← hlen]
  exact hclear b hb

/-- The device pops the oldest waiting request. -/
theorem nextHead_eq (h : Represents l s q) {a : UInt16} {rs : List UInt16}
    (hq : q.requests = a :: rs) : s.device.nextHead s.mem = a := by
  have ha := h.requests 0 a (by rw [hq]; rfl)
  rw [Device.nextHead, h.deviceLayout, h.nextAvail]
  exact ha

/-- What an iteration changes within the queue: the used slot and the used
index. -/
theorem step_frame (h : Represents l s q) {a : UInt16} {rs : List UInt16}
    (hq : q.requests = a :: rs) {ω : Type} {work : Work ω} {p : Process ω}
    {c : UInt16 × UInt32} {t : Process ω × SharedMem} (hdev : p.dev = s.device)
    (hstep : Process.step work (p, s.mem) = .ok (some c) t) {i : ℕ}
    (hlo : l.descTable ≤ i) (hhi : i < l.endAddr)
    (hslot : i < l.usedBase s.device.nextUsed ∨ l.usedBase s.device.nextUsed + 8 ≤ i)
    (hidx : i < l.usedIdx ∨ l.usedIdx + 2 ≤ i) : t.2.buf[i]? = s.mem.buf[i]? := by
  obtain ⟨_, stats, w⟩ := p
  obtain rfl : _ = s.device := hdev
  have hs : Process.Covered (({ dev := s.device, stats, work := w } : Process ω), s.mem) :=
    h.deviceCovered
  -- a byte that changed is one the iteration may write
  by_contra hne
  have hmay : Process.MayWrite ((⟨s.device, stats, w⟩ : Process ω), s.mem) i := by
    by_contra hmay
    exact hne ((Process.stepSpec_of_step hs hstep).frame hmay)
  cases hmay with
  | usedSlot h₁ h₂ =>
      have h₁' : l.usedBase s.device.nextUsed ≤ i := by rw [← h.deviceLayout]; exact h₁
      have h₂' : i < l.usedBase s.device.nextUsed + 8 := by rw [← h.deviceLayout]; exact h₂
      omega
  | usedIdx h₁ h₂ =>
      have h₁' : l.usedIdx ≤ i := by rw [← h.deviceLayout]; exact h₁
      have h₂' : i < l.usedIdx + 2 := by rw [← h.deviceLayout]; exact h₂
      omega
  | @buffer ds d hc hd _ h₁ h₂ =>
      -- a buffer of an outstanding chain, which is clear of the queue
      have hc' : (ChainIter.new s.mem l a).collect (l.qs + 1) = .ok (ds, none) := by
        rw [← h.deviceLayout, ← h.nextHead_eq hq]
        exact hc
      obtain ⟨rest, hrest⟩ := h.exists_indices (a := a) (by rw [hq]; simp)
      have hclear := clear_of_collect h.covered (h.chains a _ hrest) hc' hd
      rcases hclear with hclear | hclear
      · omega
      · omega

/-- An iteration serves the oldest waiting request. -/
theorem step (h : Represents l s q) {a : UInt16} {rs : List UInt16}
    (hq : q.requests = a :: rs) {ω : Type} {work : Work ω} {p : Process ω}
    {c : UInt16 × UInt32} {t : Process ω × SharedMem} (hdev : p.dev = s.device)
    (hstep : Process.step work (p, s.mem) = .ok (some c) t) :
    c.1 = a ∧ Represents l (s.withDevice (t.1.dev, t.2))
      { q with requests := rs, answers := q.answers ++ [(a, c.2)] } := by
  obtain ⟨_, stats, w⟩ := p
  obtain rfl : _ = s.device := hdev
  have hs : Process.Covered (({ dev := s.device, stats, work := w } : Process ω), s.mem) :=
    h.deviceCovered
  obtain ⟨hlayout, hlen⟩ := (Process.stepSpec_of_step hs hstep).layout_len
  have hcomp := Process.completes_of_step hs hstep
  have hhead : c.1 = a := hcomp.head.trans (h.nextHead_eq hq)
  refine ⟨hhead, ?_⟩
  have hlayout' : t.1.dev.layout = l := hlayout.trans h.deviceLayout
  have hbound := h.length_le
  rw [hq, List.length_cons] at hbound
  have hserved : q.served = q.collected + q.answers.length := rfl
  have htotal : q.total = q.served + (rs.length + 1) := by
    rw [Relay.total, hq, List.length_cons]
  have hserved' : q.collected + (q.answers ++ [(a, c.2)]).length = q.served + 1 := by
    rw [List.length_append, List.length_singleton, hserved, Nat.add_assoc]
  have hlay := l.bounds
  have hslot := l.le_usedBase s.device.nextUsed
  -- the table and the avail ring stay
  have hkeep : SharedMem.SameOn t.2 s.mem l.descTable l.usedRing := fun i hlo hhi =>
    h.step_frame hq rfl hstep hlo (by omega) (by omega) (by omega)
  refine
    { h with
      deviceLayout := hlayout', covered := ?_, keys := ?_, availIdx := ?_, availWord := ?_
      nextAvail := ?_, nextUsed := ?_, usedWord := ?_, requests := ?_, answers := ?_
      chains := ?_ }
  · show l.endAddr ≤ t.2.len
    rw [show t.2.len = s.mem.len from hlen]
    exact h.covered
  · show ((q.answers ++ [(a, c.2)]).map Prod.fst ++ rs).Perm s.driver.outstanding.keys
    have hk := h.keys
    rw [hq] at hk
    simpa using hk
  · show s.driver.availIdx =
      UInt16.ofNat (q.collected + (q.answers ++ [(a, c.2)]).length + rs.length)
    rw [h.availIdx, hserved', htotal, Nat.add_assoc, Nat.add_comm 1]
  · show t.2.word16 l.availIdx =
      UInt16.ofNat (q.collected + (q.answers ++ [(a, c.2)]).length + rs.length)
    rw [(hkeep.mono (by omega) (by omega)).word16_eq, h.availWord, hserved', htotal,
      Nat.add_assoc, Nat.add_comm 1]
  · show t.1.dev.nextAvail = UInt16.ofNat (q.collected + (q.answers ++ [(a, c.2)]).length)
    rw [hserved', Rolling.ofNat_succ, ← h.nextAvail]
    exact hcomp.nextAvail
  · show t.1.dev.nextUsed = UInt16.ofNat (q.collected + (q.answers ++ [(a, c.2)]).length)
    rw [hserved', Rolling.ofNat_succ, ← h.nextUsed]
    exact hcomp.nextUsed
  · show t.2.word16 l.usedIdx = UInt16.ofNat (q.collected + (q.answers ++ [(a, c.2)]).length)
    rw [hserved', Rolling.ofNat_succ, ← h.nextUsed, ← hlayout']
    exact hcomp.idx.trans hcomp.nextUsed
  · intro j b hb
    show t.2.word16 (l.availSlot (UInt16.ofNat (q.collected +
      (q.answers ++ [(a, c.2)]).length + j))) = b
    have hlo := l.le_availSlot (UInt16.ofNat (q.served + (j + 1)))
    have hhi := VirtqLayout.availSlot_add_le (l := l) (UInt16.ofNat (q.served + (j + 1)))
    rw [hserved', Nat.add_assoc, Nat.add_comm 1]
    exact h.request_kept (by rw [hq]; exact hb) (hkeep.mono (by omega) (by omega))
  · refine Relay.forall_getElem?_snoc (fun j b hb => ?_) ?_
    · -- an older answer: another slot
      have hj : j < q.answers.length := (List.getElem?_eq_some_iff.mp hb).1
      have hdisj := usedBase_disjoint (l := l) (i := q.collected + j) (j := q.served)
        (by omega) (by omega)
      rw [← h.nextUsed] at hdisj
      have hlo := l.le_usedBase (UInt16.ofNat (q.collected + j))
      have hhi := VirtqLayout.usedBase_add_le (l := l) (UInt16.ofNat (q.collected + j))
      have hsame : SharedMem.SameOn t.2 s.mem (l.usedBase (UInt16.ofNat (q.collected + j)))
          (l.usedBase (UInt16.ofNat (q.collected + j)) + 8) := fun i hlo' hhi' =>
        h.step_frame hq rfl hstep (by omega) (by omega) (by omega) (by omega)
      exact h.answer_kept hb hsame
    · -- the new one
      show t.2.word32 (l.usedBase (UInt16.ofNat q.served)) = _ ∧
        t.2.word32 (l.usedBase (UInt16.ofNat q.served) + 4) = _
      rw [← h.nextUsed, ← h.deviceLayout, ← hhead]
      exact ⟨hcomp.id, hcomp.len⟩
  · intro k indices hk
    exact h.chain_kept hk (hkeep.mono le_rfl (by omega))

/-! ### Collecting -/

/-- One iteration of the collecting loop takes the oldest waiting answer. -/
theorem collectOne (h : Represents l s q) {a : UInt16 × UInt32} {cs : List (UInt16 × UInt32)}
    (hq : q.answers = a :: cs) :
    Driver.collectOne (s.driver, s.mem) = .ok a (s.driver.collected a.1, s.mem) ∧
      Represents l { s with driver := s.driver.collected a.1 }
        { q with answers := cs, collected := q.collected + 1 } := by
  -- the used slot at the position holds the oldest answer
  have hnext : s.driver.nextCompletion s.mem = a := by
    obtain ⟨hid, hlen⟩ := h.answers 0 a (by rw [hq]; rfl)
    simp only [Nat.add_zero, ← h.lastUsed] at hid hlen
    rw [Driver.nextCompletion, h.driverLayout, hid, hlen, UInt16.toUInt16_toUInt32]
  refine ⟨by rw [Driver.collectOne_ok h.driverCovered, hnext], ?_⟩
  obtain ⟨rest, hlook⟩ := h.exists_indices (a := a.1) (by rw [hq]; simp)
  -- whose chain is outstanding, so its descriptors come back
  have hcoll : s.driver.collected a.1 =
      { s.driver with
        outstanding := s.driver.outstanding.erase a.1
        freeDescs := s.driver.freeDescs ++ a.1 :: rest
        lastUsed := s.driver.lastUsed + 1 } := by
    rw [Driver.collected, hlook]
  have howned := h.owned.collected a.1
  rw [hcoll] at howned ⊢
  have hserved : q.collected + 1 + cs.length = q.served := by
    rw [Relay.served, hq, List.length_cons]
    omega
  refine
    { h with
      owned := howned, keys := ?_, availIdx := ?_, availWord := ?_, nextAvail := ?_
      nextUsed := ?_, usedWord := ?_, lastUsed := ?_, requests := ?_, answers := ?_
      chains := ?_ }
  · -- the head is no longer a key
    have hk := h.keys
    rw [hq] at hk
    show (cs.map Prod.fst ++ q.requests).Perm (s.driver.outstanding.erase a.1).keys
    rw [AList.keys_erase]
    simpa using hk.erase a.1
  · show s.driver.availIdx = UInt16.ofNat (q.collected + 1 + cs.length + q.requests.length)
    rw [hserved]
    exact h.availIdx
  · show s.mem.word16 l.availIdx = UInt16.ofNat (q.collected + 1 + cs.length + q.requests.length)
    rw [hserved]
    exact h.availWord
  · show s.device.nextAvail = UInt16.ofNat (q.collected + 1 + cs.length)
    rw [hserved]
    exact h.nextAvail
  · show s.device.nextUsed = UInt16.ofNat (q.collected + 1 + cs.length)
    rw [hserved]
    exact h.nextUsed
  · show s.mem.word16 l.usedIdx = UInt16.ofNat (q.collected + 1 + cs.length)
    rw [hserved]
    exact h.usedWord
  · show s.driver.lastUsed + 1 = UInt16.ofNat (q.collected + 1)
    rw [h.lastUsed, Rolling.ofNat_succ]
  · intro j b hb
    show s.mem.word16 (l.availSlot (UInt16.ofNat (q.collected + 1 + cs.length + j))) = b
    rw [hserved]
    exact h.requests j b hb
  · -- the answers that are left move up by one position
    intro j b hb
    show s.mem.word32 (l.usedBase (UInt16.ofNat (q.collected + 1 + j))) = _ ∧
      s.mem.word32 (l.usedBase (UInt16.ofNat (q.collected + 1 + j)) + 4) = _
    rw [Nat.add_assoc, Nat.add_comm 1]
    exact h.answers (j + 1) b (by rw [hq]; exact hb)
  · intro k indices hk
    have hk' : (s.driver.outstanding.erase a.1).lookup k = some indices := hk
    by_cases hka : k = a.1
    · rw [hka, AList.lookup_erase] at hk'
      cases hk'
    · rw [AList.lookup_erase_ne hka] at hk'
      exact h.chains k indices hk'

/-- The collecting loop returns the waiting answers, in order. -/
theorem collectLoop (h : Represents l s q) {fuel : ℕ} (hfuel : q.answers.length ≤ fuel) :
    ∃ d, Driver.collectLoop (UInt16.ofNat q.served) fuel (s.driver, s.mem) =
        .ok q.answers (d, s.mem) ∧
      Represents l { s with driver := d } { q with answers := [], collected := q.served } := by
  induction fuel generalizing s q with
  | zero =>
      have hnil : q.answers = [] := List.length_eq_zero_iff.mp (by omega)
      have hserved : q.served = q.collected := by rw [Relay.served, hnil]; rfl
      refine ⟨s.driver, ?_, ?_⟩
      · rw [Driver.collectLoop_stop (by rw [h.lastUsed, hserved]), hnil]
      · rw [hserved, ← hnil]
        exact h
  | succ fuel ih =>
      rcases e : q.answers with - | ⟨a, cs⟩
      · have hserved : q.served = q.collected := by rw [Relay.served, e]; rfl
        refine ⟨s.driver, ?_, ?_⟩
        · rw [Driver.collectLoop_stop (by rw [h.lastUsed, hserved])]
        · rw [hserved, ← e]
          exact h
      · have hserved : q.collected + 1 + cs.length = q.served := by
          rw [Relay.served, e, List.length_cons]
          omega
        have hqs := l.qs_le
        have hle := h.length_le
        rw [e, List.length_cons] at hle hfuel
        -- an answer is waiting, and fewer than 2^16 are: the counters differ
        have hne : s.driver.lastUsed ≠ UInt16.ofNat q.served := by
          rw [h.lastUsed]
          intro heq
          have := (Rolling.ofNat_inj (a := q.served) (b := q.collected) (by omega)
            (by omega)).mp heq.symm
          omega
        obtain ⟨hone, hrep⟩ := h.collectOne e
        obtain ⟨d, hloop, hrep'⟩ := ih hrep (show cs.length ≤ fuel by omega)
        have hserved' : ({ q with answers := cs, collected := q.collected + 1 } :
            Relay UInt16 UInt32).served = q.served := hserved
        rw [hserved'] at hloop hrep'
        refine ⟨d, ?_, hrep'⟩
        rw [Driver.collectLoop_succ hne, bind_ok hone, bind_ok hloop]
        rfl

/-- `collectUsed` returns the waiting answers. -/
theorem collectUsed (h : Represents l s q) :
    ∃ d, Driver.collectUsed (s.driver, s.mem) = .ok q.answers (d, s.mem) ∧
      Represents l { s with driver := d } { q with answers := [], collected := q.served } := by
  have hqs := l.qs_le
  have hle := h.length_le
  have hfuel : q.answers.length ≤ 2 ^ 16 := by omega
  obtain ⟨d, hloop, hrep⟩ := h.collectLoop hfuel
  have hl : s.mem.loadIdxAcquire s.driver.layout.usedIdx = .ok (UInt16.ofNat q.served) := by
    rw [SharedMem.loadIdxAcquire, s.mem.readU16_eq, if_pos h.driverCovered.usedIdx,
      h.driverLayout, h.usedWord]
  refine ⟨d, ?_, hrep⟩
  rw [Driver.collectUsed, Driver.collectWithin, bind_ok (Half.self_run _),
    bind_ok (Half.load_ok hl)]
  exact hloop

/-! ### The other calls -/

theorem notifyOn (h : Represents l s q) :
    Represents l { s with mem := s.device.notifyOn s.mem } q := by
  have hlay := l.bounds
  apply h.frame Device.len_notifyOn
  unfold Device.notifyOn
  rw [h.deviceLayout]
  split
  · exact VirtqLayout.sameRings_put _ (.inr (.inr le_rfl))
  · exact VirtqLayout.sameRings_put _ (.inr (.inl ⟨by omega, by rw [length_toLe]; omega⟩))

theorem notifyOff (h : Represents l s q) :
    Represents l { s with mem := s.device.notifyOff s.mem } q := by
  have hlay := l.bounds
  unfold Device.notifyOff
  rw [h.deviceLayout]
  split
  · exact h
  · exact h.frame (SharedMem.len_put _ _ _)
      (VirtqLayout.sameRings_put _ (.inr (.inl ⟨by omega, by rw [length_toLe]; omega⟩)))

theorem armUsedEvent (h : Represents l s q) :
    Represents l { s with mem := s.mem.put l.usedEvent (toLe 2 s.driver.lastUsed.toNat) } q := by
  have hlay := l.bounds
  exact h.frame (SharedMem.len_put _ _ _)
    (VirtqLayout.sameRings_put _ (.inr (.inl ⟨le_rfl, by rw [length_toLe]; omega⟩)))

/-- Writing what is clear of the queue. -/
theorem put (h : Represents l s q) {a : ℕ} {data : List UInt8} (hclear : l.Clear a data.length) :
    Represents l { s with mem := s.mem.put a data } q := by
  have hlay := l.bounds
  apply h.frame (SharedMem.len_put _ _ _)
  apply VirtqLayout.sameRings_put
  rcases hclear with hclear | hclear
  · exact .inl hclear
  · exact .inr (.inr (by omega))

/-- With no chain under way all descriptors are free. -/
theorem freeDescs_perm (h : Represents l s q) (hreq : q.requests = []) (hans : q.answers = []) :
    s.driver.freeDescs.Perm l.indices := by
  have hkeys := h.keys
  rw [hreq, hans] at hkeys
  have hempty : s.driver.outstanding.entries = [] :=
    List.map_eq_nil_iff.mp (List.nil_perm.mp hkeys)
  have hnone : s.driver.pool.owned = [] := by
    show s.driver.outstanding.entries.flatMap _ = []
    rw [hempty]
    rfl
  have hperm := h.owned.perm
  rw [hnone, List.append_nil, h.driverLayout] at hperm
  exact hperm

/-! ### Every call is a step of the queues -/

/-- With enough free descriptors `addChain` publishes. -/
theorem exec_addChain_publishes (h : Represents l s q) {bufs : List Buffer}
    (ho : (Op.addChain bufs).Admissible l) (hlen : bufs.length ≤ s.driver.freeDescs.length) :
    ∃ head, (s.exec (.addChain bufs)).2 = .publish head ∧
      Represents l (s.exec (.addChain bufs)).1 { q with requests := q.requests ++ [head] } := by
  obtain ⟨hne, hord, hclear⟩ := ho
  obtain ⟨head, rest, free, hlen, hfree, heq⟩ := Driver.addChain_ok h.driverCovered hne hord
    (fun i hi => h.owned.lt_of_free hi) hlen
  rw [System.exec_addChain_ok heq, h.driverLayout]
  exact ⟨head, rfl, h.publish hne hord hclear hlen hfree⟩

theorem exec_addChain (h : Represents l s q) {bufs : List Buffer}
    (ho : (Op.addChain bufs).Admissible l) :
    ∃ q', Relay.Step q (s.exec (.addChain bufs)).2 q' ∧
      Represents l (s.exec (.addChain bufs)).1 q' := by
  rcases Nat.lt_or_ge s.driver.freeDescs.length bufs.length with hlt | hge
  · have heq := Driver.addChain_outOfDescriptors (m := s.mem) ho.1 hlt
    rw [System.exec_addChain_error heq]
    exact ⟨q, .idle, h⟩
  · obtain ⟨head, hev, hrep⟩ := h.exec_addChain_publishes ho hge
    rw [hev]
    exact ⟨_, .publish, hrep⟩

/-- With no request waiting an iteration does nothing. -/
theorem exec_serve_idle (h : Represents l s q) (work : List UInt8 → List UInt8)
    (hq : q.requests = []) : s.exec (.serve work) = (s, .idle) := by
  have hs : Process.Covered (Process.start s.device () s.mem) := h.deviceCovered
  have hz := h.toNat_pending
  rw [hq] at hz
  obtain ⟨r, t, hstep⟩ := Process.step_returns (fun w r => (work r, w)) hs
  rcases r with - | c
  · obtain ⟨rfl, -⟩ := Process.eq_of_step_none hs hstep
    rw [System.exec_serve_none hstep]
    rfl
  · exact absurd (UInt16.toNat_inj.mp hz) (Process.pending_ne_zero_of_step hs hstep)

/-- Otherwise it serves the oldest. -/
theorem exec_serve_serves (h : Represents l s q) (work : List UInt8 → List UInt8) {a : UInt16}
    {rs : List UInt16} (hq : q.requests = a :: rs) :
    ∃ len t, Process.step (fun w r => (work r, w)) (Process.start s.device () s.mem) =
        .ok (some (a, len)) t ∧
      s.exec (.serve work) = (s.withDevice (t.1.dev, t.2), .serve a len) ∧
      Represents l (s.withDevice (t.1.dev, t.2))
        { q with requests := rs, answers := q.answers ++ [(a, len)] } := by
  have hs : Process.Covered (Process.start s.device () s.mem) := h.deviceCovered
  obtain ⟨r, t, hstep⟩ := Process.step_returns (fun w r => (work r, w)) hs
  rcases r with - | ⟨head, len⟩
  · have hz := h.toNat_pending
    obtain ⟨-, hpending⟩ := Process.eq_of_step_none hs hstep
    have hpending' : s.device.pending s.mem = 0 := hpending
    rw [hpending', hq] at hz
    cases hz
  · obtain ⟨hhead, hrep⟩ := h.step hq rfl hstep
    obtain rfl : head = a := hhead
    exact ⟨len, t, hstep, System.exec_serve_some hstep, hrep⟩

theorem exec_serve (h : Represents l s q) (work : List UInt8 → List UInt8) :
    ∃ q', Relay.Step q (s.exec (.serve work)).2 q' ∧
      Represents l (s.exec (.serve work)).1 q' := by
  obtain ⟨reqs, cs, n⟩ := q
  rcases reqs with - | ⟨a, rs⟩
  · rw [h.exec_serve_idle work rfl]
    exact ⟨_, .idle, h⟩
  · obtain ⟨len, t, -, heq, hrep⟩ := h.exec_serve_serves work rfl
    rw [heq]
    exact ⟨_, .serve, hrep⟩

theorem exec (h : Represents l s q) {o : Op} (ho : o.Admissible l) :
    ∃ q', Relay.Step q (s.exec o).2 q' ∧ Represents l (s.exec o).1 q' := by
  cases o with
  | addChain bufs => exact h.exec_addChain ho
  | serve work => exact h.exec_serve work
  | collectUsed =>
      obtain ⟨d, heq, hrep⟩ := h.collectUsed
      rw [System.exec_collectUsed_ok heq]
      exact ⟨_, .collect, hrep⟩
  | needsKick =>
      rw [System.exec, Driver.needsKick_ok h.driverCovered]
      exact ⟨q, .idle, { h with }⟩
  | armUsedEvent =>
      rw [System.exec, Driver.armUsedEvent_ok h.driverCovered, h.driverLayout]
      exact ⟨q, .idle, h.armUsedEvent⟩
  | alloc data =>
      obtain ⟨arena, m, hle, hfinal, hm⟩ := Driver.alloc_spec data (s.driver, s.mem)
      rw [System.exec, hfinal]
      -- an allocation that fails may still have moved the arena
      have h' : Represents l { s with driver := { s.driver with arena } } q :=
        { h with arena := h.arena.trans hle }
      rcases hm with rfl | rfl
      · exact ⟨q, .idle, h'⟩
      · exact ⟨q, .idle, h'.put (.inr h.arena)⟩
  | allocUninit len =>
      obtain ⟨arena, hle, hfinal, -⟩ := Driver.allocUninit_spec len (s.driver, s.mem)
      rw [System.exec, hfinal]
      exact ⟨q, .idle, { h with arena := h.arena.trans hle }⟩
  | needsNotification =>
      rw [System.exec, Device.needsNotification_ok h.deviceCovered]
      exact ⟨q, .idle, { h with }⟩
  | enableNotification =>
      rw [System.exec, Device.enableNotification_ok h.deviceCovered]
      exact ⟨q, .idle, h.notifyOn⟩
  | disableNotification =>
      rw [System.exec, Device.disableNotification_ok h.deviceCovered]
      exact ⟨q, .idle, h.notifyOff⟩
  | writeBuffer addr data =>
      rw [System.exec_writeBuffer]
      split
      · exact ⟨q, .idle, h.put ho⟩
      · exact ⟨q, .idle, h⟩

end Represents

/-! ### Whole runs -/

section Runs

variable {l : VirtqLayout} {m : SharedMem} {arenaEnd : ℕ} {eventIdx eventIdx' : Bool} {d : Driver}

/-- Fresh halves over a region with both indices at zero. -/
theorem represents_init (hnew : Driver.new l arenaEnd eventIdx = some d) (hcov : l.Covered m)
    (havail : m.word16 l.availIdx = 0) (hused : m.word16 l.usedIdx = 0) :
    Represents l (System.init m d eventIdx') {} := by
  obtain ⟨howned, hlayout⟩ := Driver.owned_of_new hnew
  unfold Driver.new at hnew
  split at hnew
  next =>
    obtain ⟨arena, harena, rfl⟩ := Option.map_eq_some_iff.mp hnew
    have hle : l.endAddr ≤ arena := by
      unfold nextMultipleOf at harena
      split at harena
      · rw [← Option.some.inj harena]
        exact le_alignUp (by decide)
      · cases harena
    -- both queues are empty, and nothing is outstanding
    exact
      { driverLayout := rfl, deviceLayout := rfl, covered := hcov, owned := howned
        keys := .refl _, availIdx := rfl, availWord := havail, nextAvail := rfl, nextUsed := rfl
        usedWord := hused, lastUsed := rfl
        requests := fun j a ha => by simp at ha
        answers := fun j a ha => by simp at ha
        chains := fun k indices hk => by cases hk
        arena := hle }
  next => cases hnew

/-- Every sequence of admissible calls is a run of the two queues. -/
theorem exists_represented (hnew : Driver.new l arenaEnd eventIdx = some d)
    (hcov : l.Covered m) (havail : m.word16 l.availIdx = 0) (hused : m.word16 l.usedIdx = 0)
    {ops : List Op} (hops : ∀ o ∈ ops, o.Admissible l) :
    ∃ q, Relay.Run {} (Relay.execAll System.exec (System.init m d eventIdx') ops).2 q ∧
      Represents l (Relay.execAll System.exec (System.init m d eventIdx') ops).1 q :=
  Relay.exists_run (fun h ho => h.exec ho) (represents_init hnew hcov havail hused) hops

/-- Fresh halves over a region with both indices at zero, as `SharedMem::new`
makes it: whatever the order and number of the calls, what is popped is a
prefix of what was published and what is collected a prefix of what was
completed; a waiting avail or used entry is still in its slot; and when
everything published has been collected, all descriptors are free. -/
theorem exactly_once_fifo (hnew : Driver.new l arenaEnd eventIdx = some d)
    (hcov : l.Covered m) (havail : m.word16 l.availIdx = 0) (hused : m.word16 l.usedIdx = 0)
    {ops : List Op} (hops : ∀ o ∈ ops, o.Admissible l) :
    let s := (Relay.execAll System.exec (System.init m d eventIdx') ops).1
    let es := (Relay.execAll System.exec (System.init m d eventIdx') ops).2
    (∃ q, Relay.Run {} es q) ∧
    Relay.popped es <+: Relay.published es ∧
    Relay.collectedIn es <+: Relay.answered es ∧
    (∀ i a, (Relay.popped es).length ≤ i → (Relay.published es)[i]? = some a →
      s.mem.word16 (l.availSlot (UInt16.ofNat i)) = a) ∧
    (∀ i c, (Relay.collectedIn es).length ≤ i → (Relay.answered es)[i]? = some c →
      s.mem.word32 (l.usedSlot (UInt16.ofNat i)).1 = c.1.toUInt32 ∧
      s.mem.word32 (l.usedSlot (UInt16.ofNat i)).2 = c.2) ∧
    ((Relay.collectedIn es).length = (Relay.published es).length →
      s.driver.freeDescs.Perm ((List.range l.qs).map UInt16.ofNat)) := by
  obtain ⟨q, hrun, hrep⟩ :=
    @exists_represented l m arenaEnd eventIdx eventIdx' d hnew hcov havail hused ops hops
  intro s es
  have hpub : Relay.published es = Relay.popped es ++ q.requests := by
    simpa using hrun.published_eq
  have hans : Relay.answered es = Relay.collectedIn es ++ q.answers := by
    simpa using hrun.answered_eq
  have hcoll : q.collected = (Relay.collectedIn es).length := by
    simpa using hrun.collected_eq
  have hserved : q.served = (Relay.popped es).length := by
    rw [Relay.served, hcoll, Relay.popped, List.length_map, hans, List.length_append]
  refine ⟨⟨q, hrun⟩, hrun.popped_prefix, hrun.collected_prefix, ?_, ?_, ?_⟩
  · intro i a hi ha
    rw [hpub, List.getElem?_append_right hi] at ha
    have hslot := hrep.requests _ a ha
    rwa [hserved, Nat.add_sub_cancel' hi] at hslot
  · intro i c hi hc
    rw [hans, List.getElem?_append_right hi] at hc
    have hslot := hrep.answers _ c hc
    rwa [hcoll, Nat.add_sub_cancel' hi] at hslot
  · intro hall
    -- nothing is waiting in either queue
    have hlen := congrArg List.length hpub
    have hlen' := congrArg List.length hans
    rw [Relay.popped, List.length_append, List.length_map] at hlen
    rw [List.length_append] at hlen'
    have hreq : q.requests = [] := List.length_eq_zero_iff.mp (by omega)
    have hansw : q.answers = [] := List.length_eq_zero_iff.mp (by omega)
    exact hrep.freeDescs_perm hreq hansw

/-- Two chains are published before the device serves the first. -/
theorem exactly_once_fifo_pairQueue :
    let ops := [.addChain [⟨80, 1, true⟩], .addChain [⟨81, 1, true⟩], .serve fun _ => [7],
      .serve fun _ => [], .collectUsed]
    let s := (Relay.execAll System.exec (System.init emptyRegion pairDriver true) ops).1
    let es := (Relay.execAll System.exec (System.init emptyRegion pairDriver true) ops).2
    Relay.published es = [0, 1] ∧ Relay.popped es = [0, 1] ∧
      Relay.collectedIn es = [(0, 1), (1, 0)] ∧ s.driver.freeDescs.Perm [0, 1] := by
  intro ops s es
  have hadmissible : ∀ o ∈ ops, o.Admissible pairQueue := by
    simp only [ops, List.forall_mem_cons, Op.Admissible, List.not_mem_nil, false_implies,
      implies_true, and_true]
    exact ⟨⟨by decide, by decide, .inr (by decide)⟩, by decide, by decide, .inr (by decide)⟩
  obtain ⟨-, hpopped, hcollected, -, -, hfree⟩ :=
    @exactly_once_fifo pairQueue emptyRegion 100 true true pairDriver new_pairQueue (by decide)
      (by decide) (by decide) ops hadmissible
  -- the run is evaluated; that nothing was lost on the way comes from the theorem
  have hpub : Relay.published es = [0, 1] := by decide +kernel
  have hpop : (Relay.popped es).length = 2 := by decide +kernel
  have hans : Relay.answered es = [(0, 1), (1, 0)] := by decide +kernel
  have hcoll : (Relay.collectedIn es).length = 2 := by decide +kernel
  have hall : (Relay.collectedIn es).length = (Relay.published es).length := by
    rw [hcoll, hpub]
    rfl
  refine ⟨hpub, ?_, ?_, ?_⟩
  · rw [← hpub]
    exact hpopped.eq_of_length (by rw [hpop, hpub]; rfl)
  · rw [← hans]
    exact hcollected.eq_of_length (by rw [hcoll, hans]; rfl)
  · simp only [s]
    exact hfree hall

end Runs

end SystemsStudy
