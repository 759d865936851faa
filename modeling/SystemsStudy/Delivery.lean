/-
SystemsStudy/Delivery.lean

Every request arrives, and every reply comes back.

The relation `Carries` survives every call of either half whose client respects
the buffers it gave away, in whatever order the calls come (`Carries.exec`).
The queue's own bytes and those of the buffers under way never meet: the device
writes the used ring and the writable buffers of the chain it serves, the
driver the table, the avail ring and what the client asks for.  So a request is
served as it was published, and a reply is collected as it was served.
-/
import SystemsStudy.Calls

namespace SystemsStudy

open Bytes Fallible

variable {l : VirtqLayout} {s s' : System} {q : Calls} {ω : Type}

/-- The counters after a call was answered: nothing was refused. -/
def ProcessStats.answered (st : ProcessStats) (c : Call) (reply : List UInt8) : ProcessStats :=
  { st with
    descriptors := st.descriptors + UInt64.ofNat c.buffers.length
    bytesRead := st.bytesRead + UInt64.ofNat c.request.length
    bytesWritten := st.bytesWritten + (replyLen reply).toUInt64
    chains := st.chains + 1 }

/-! ### A call under way -/

namespace Call.Placed

variable {c : Call}

/-- The walk of the chain yields a descriptor for each of its buffers. -/
theorem collect (h : c.Placed l s) (hcov : l.Covered s.mem) :
    ∃ ds, (ChainIter.new s.mem l c.head).collect (l.qs + 1) = .ok (ds, none) ∧
      Describes ds c.buffers := by
  obtain ⟨rest, -, henc⟩ := h.chain
  have htotal := totalLen_of_view henc.describes
  have hshort := h.short
  refine ⟨_, ?_, henc.describes⟩
  rw [henc.collect hcov, decoded_of_lt (by omega)]

/-- Its buffers are under way. -/
theorem exists_underWay (h : c.Placed l s) (hl : s.driver.layout = l) {b : Buffer}
    (hb : b ∈ c.buffers) :
    ∃ d ∈ s.underWay, (d.addr, d.len) = b.ref ∧ d.isWriteOnly = b.deviceWritable := by
  obtain ⟨rest, hlook, henc⟩ := h.chain
  obtain ⟨d, hd, href, hwrite⟩ := henc.describes.exists_descriptor hb
  obtain ⟨e, he, rfl⟩ := List.mem_map.mp hd
  refine ⟨e.2, List.mem_flatMap.mpr ⟨⟨c.head, c.head :: rest⟩, AList.mem_lookup_iff.mp hlook,
    List.mem_map.mpr ⟨e.1, fst_mem_chainEntries henc.len_eq he, ?_⟩⟩, href, hwrite⟩
  rw [hl]
  exact henc.entries e he

/-- It stays as long as it is outstanding and its table entries stay. -/
theorem keep (h : c.Placed l s) (hlen : s'.mem.len = s.mem.len)
    (hchain : ∀ rest, s.driver.outstanding.lookup c.head = some (c.head :: rest) →
      Encoded l s.mem (c.head :: rest) c.buffers →
      s'.driver.outstanding.lookup c.head = some (c.head :: rest) ∧
        Encoded l s'.mem (c.head :: rest) c.buffers) : c.Placed l s' := by
  obtain ⟨rest, hlook, henc⟩ := h.chain
  refine { h with chain := ⟨rest, hchain rest hlook henc⟩, inside := fun b hb => ?_ }
  rw [hlen]
  exact h.inside b hb

end Call.Placed

/-- An encoded chain stays as long as the table does. -/
theorem Encoded.of_table {m m' : SharedMem} {indices : List UInt16} {bufs : List Buffer}
    (h : Encoded l m indices bufs) (hsame : SharedMem.SameOn m m' l.descTable l.availRing) :
    Encoded l m' indices bufs := by
  have hlay := l.bounds
  refine h.congr fun i hi => hsame.mono ?_ ?_
  · exact Nat.le_add_right _ _
  · have := h.inTable i hi
    rw [VirtqLayout.descAddr]
    omega

/-- A buffer that is clear of the queue lies outside of it. -/
theorem VirtqLayout.Clear.outside {b : Buffer} (hclear : l.Clear b.addr.toNat b.len.toNat) {i : ℕ}
    (hi : BufferRef.Holds b.ref i) : i < l.descTable ∨ l.endAddr ≤ i := by
  rcases hclear with hclear | hclear
  · exact .inl (lt_of_lt_of_le hi.2 hclear)
  · exact .inr (hclear.trans hi.1)

section Contents

variable {bufs : List Buffer} {m m' : SharedMem}
  (h : ∀ b ∈ bufs, ∀ i, BufferRef.Holds b.ref i → m.buf[i]? = m'.buf[i]?)

include h

/-- The request of a chain stays if the bytes of its buffers do. -/
theorem contents_readableBuffers :
    contents m (readableBuffers bufs) = contents m' (readableBuffers bufs) := by
  refine contents_congr fun r hr => ?_
  obtain ⟨b, hb, -, rfl⟩ := mem_readableBuffers.mp hr
  exact h b hb

/-- So does the reply. -/
theorem contents_writableBuffers :
    contents m (writableBuffers bufs) = contents m' (writableBuffers bufs) := by
  refine contents_congr fun r hr => ?_
  obtain ⟨b, hb, -, rfl⟩ := mem_writableBuffers.mp hr
  exact h b hb

end Contents

/-- A completion is written into the ring, which no buffer of a call meets. -/
theorem Call.Placed.contents_putUsed {c : Call} (h : c.Placed l s) (m : SharedMem)
    (pos head : UInt16) (len : UInt32) :
    contents (l.putUsed m pos head len) (writableBuffers c.buffers) =
      contents m (writableBuffers c.buffers) := by
  have hlay := l.bounds
  refine contents_writableBuffers fun b hb i hi => Process.putUsed_outside_usedRing m _ _ _ ?_
  have hout := (h.clear b hb).outside hi
  omega

/-- Writing a response to the buffers of a call, all of them in the region: there
is no error, and as much of the response as fits is counted and can be read back. -/
theorem Describes.scattered {ds : List Descriptor} {bufs : List Buffer} (h : Describes ds bufs)
    {response reply : List UInt8} {m m' : SharedMem} {written : UInt32} {err : Option MemError}
    (hreply : reply = response.take (refsLen (writableBuffers bufs)))
    (hsc : ScatterSpec response (writableOf ds) m 0 0 m' written err)
    (hin : ∀ r ∈ writableOf ds, r.1.toNat + r.2.toNat ≤ m.len)
    (hapart : (writableBuffers bufs).Pairwise BufferRef.Apart) :
    err = none ∧ written = replyLen reply ∧
      (contents m' (writableBuffers bufs)).take reply.length = reply := by
  have hrefs := h.writableOf_eq
  have hlen : reply.length = min response.length (refsLen (writableOf ds)) := by
    rw [hreply, List.length_take, hrefs, Nat.min_comm]
  have hcount : written.toNat = reply.length := by
    rw [hsc.toNat_written, storedLen_scattered hin, Nat.sub_zero, hlen]
  refine ⟨?_, ?_, ?_⟩
  · rcases err with - | e
    · rfl
    -- a piece that does not fit would leave the region
    obtain ⟨piece, hpiece, hout⟩ := hsc.refused.mp rfl
    obtain ⟨b, hb, haddr, hple⟩ := exists_of_mem_pieces hpiece
    have := hin b hb
    simp only [fits, decide_eq_false_iff_not] at hout
    omega
  · rw [replyLen, ← hcount, UInt32.ofNat_toNat]
  · have hlaid := Process.contents_of_scatter hsc hin (by rw [hrefs]; exact hapart)
    rw [hrefs] at hlaid
    rw [hlaid, hreply, Nat.min_comm, ← List.take_eq_take_min]
    exact List.take_left' rfl

namespace Carries

theorem covered (h : Carries l s q) : l.Covered s.mem := h.represents.covered

theorem mem_underWay_of_request {c : Call} (hc : c ∈ q.requests) : c ∈ q.underWay :=
  List.mem_append_right _ hc

theorem mem_underWay_of_answer {a : Call × List UInt8} (ha : a ∈ q.answers) :
    a.1 ∈ q.underWay :=
  List.mem_append_left _ (List.mem_map_of_mem ha)

/-- Changing bytes that belong neither to the relation below nor to a buffer
under way. -/
theorem keep (h : Carries l s q) (hrep : Represents l s' (q.map Call.head replyLen))
    (hout : s'.driver.outstanding = s.driver.outstanding) (hlen : s'.mem.len = s.mem.len)
    (htable : SharedMem.SameOn s.mem s'.mem l.descTable l.availRing)
    (hbufs : ∀ c ∈ q.underWay, ∀ b ∈ c.buffers, ∀ i, BufferRef.Holds b.ref i →
      s'.mem.buf[i]? = s.mem.buf[i]?) : Carries l s' q where
  represents := hrep
  placed c hc := (h.placed c hc).keep hlen fun rest hlook henc =>
    ⟨by rw [hout, hlook], henc.of_table htable⟩
  disjoint := h.disjoint
  waiting c hc := by
    rw [← h.waiting c hc]
    exact contents_readableBuffers (hbufs c (mem_underWay_of_request hc))
  ready a ha := by
    rw [contents_writableBuffers (hbufs a.1 (mem_underWay_of_answer ha))]
    exact h.ready a ha

/-! ### Publishing -/

/-- Publishing a chain writes the queue only. -/
theorem putChain_outside {m : SharedMem} {pos head : UInt16} {indices : List UInt16}
    {bufs : List Buffer} (hlen : indices.length = bufs.length)
    (htab : ∀ i ∈ indices, i.toNat < l.qs) {i : ℕ} (hi : i < l.descTable ∨ l.endAddr ≤ i) :
    (Driver.putChain l m pos head (chainEntries indices bufs)).buf[i]? = m.buf[i]? := by
  have hlay := l.bounds
  have hslot := l.le_availSlot pos
  have hslot' := VirtqLayout.availSlot_add_le (l := l) pos
  have hsame : SharedMem.SameOn
      (Driver.putChain l m pos head (chainEntries indices bufs)) m i (i + 1) := by
    refine Driver.sameOn_putChain (fun e he => ?_) (by omega) (by omega)
    have := htab e.1 (fst_mem_chainEntries hlen he)
    rw [VirtqLayout.descAddr]
    omega
  exact hsame i le_rfl (Nat.lt_succ_self i)

section Publish

variable {head : UInt16} {rest free : List UInt16} {bufs : List Buffer}

/-- The system once a chain is in the table and on the ring. -/
def published (l : VirtqLayout) (s : System) (head : UInt16) (rest free : List UInt16)
    (bufs : List Buffer) : System :=
  { s with
    driver := (s.driver.took head rest free).published
    mem := Driver.putChain l s.mem s.driver.availIdx head (chainEntries (head :: rest) bufs) }

theorem lt_of_popped (h : Carries l s q)
    (hfree : s.driver.freeDescs = free ++ (head :: rest).reverse) :
    ∀ i ∈ head :: rest, i.toNat < l.qs := by
  intro i hi
  have := h.represents.owned.lt_of_free (mem_of_popped hfree hi)
  rwa [h.represents.driverLayout] at this

/-- A chain already under way keeps its descriptors. -/
theorem placed_published (h : Carries l s q) (hlen : (head :: rest).length = bufs.length)
    (hfree : s.driver.freeDescs = free ++ (head :: rest).reverse) {c : Call}
    (hc : c.Placed l s) : c.Placed l (published l s head rest free bufs) := by
  have howned := h.represents.owned
  refine hc.keep Driver.len_putChain fun rest' hlook henc => ⟨?_, ?_⟩
  · have hne : c.head ≠ head := by
      intro hch
      exact howned.not_mem_of_free VirtqLayout.nodup_indices
        (mem_of_popped hfree List.mem_cons_self) hlook (hch ▸ List.mem_cons_self)
    show (s.driver.outstanding.insert head (head :: rest)).lookup c.head = _
    rw [AList.lookup_insert_ne hne, hlook]
  · exact Driver.encoded_putChain_of_disjoint henc hlen fun i hi hi' =>
      howned.not_mem_of_free VirtqLayout.nodup_indices (mem_of_popped hfree hi) hlook hi'

/-- and the new one is in the table. -/
theorem placed_new (h : Carries l s q) (hlen : (head :: rest).length = bufs.length)
    (hfree : s.driver.freeDescs = free ++ (head :: rest).reverse)
    (ho : (Op.addChain bufs).Admissible l)
    (hinside : ∀ b ∈ bufs, b.addr.toNat + b.len.toNat ≤ s.mem.len)
    (hshort : buffersLen bufs < 2 ^ 32) (hapart : (writableBuffers bufs).Pairwise BufferRef.Apart)
    (request : List UInt8) :
    Call.Placed l (published l s head rest free bufs) ⟨head, bufs, request⟩ := by
  obtain ⟨hne, hord, hclear⟩ := ho
  have hrep := h.represents
  have hbound := hrep.length_add_free_le
  have hpopped : s.driver.freeDescs.length = free.length + (head :: rest).length := by
    rw [hfree, List.length_append, List.length_reverse]
  refine ⟨⟨rest, AList.lookup_insert _, ?_⟩, hclear, fun b hb => ?_, hshort, hapart⟩
  · exact Driver.encoded_putChain h.covered hlen hne hord (h.lt_of_popped hfree)
      (hrep.owned.nodup_popped hfree) (by omega)
  · show _ ≤ (Driver.putChain l s.mem _ head _).len
    rw [Driver.len_putChain]
    exact hinside b hb

/-- With enough free descriptors a chain is published, with the request its
readable buffers hold. -/
theorem addChain (h : Carries l s q) (ho : (Op.addChain bufs).Admissible l)
    (hinside : ∀ b ∈ bufs, b.addr.toNat + b.len.toNat ≤ s.mem.len)
    (hshort : buffersLen bufs < 2 ^ 32) (hapart : (writableBuffers bufs).Pairwise BufferRef.Apart)
    (hothers : ∀ c ∈ q.underWay, ∀ b ∈ c.buffers, ∀ b' ∈ bufs,
      b.deviceWritable = true ∨ b'.deviceWritable = true → BufferRef.Apart b.ref b'.ref)
    (hroom : bufs.length ≤ s.driver.freeDescs.length) :
    ∃ head rest free, s.driver.freeDescs = free ++ (head :: rest).reverse ∧
      (head :: rest).length = bufs.length ∧
      Driver.addChain bufs (s.driver, s.mem) = .ok head
        ((published l s head rest free bufs).driver, (published l s head rest free bufs).mem) ∧
      Carries l (published l s head rest free bufs)
        { q with requests :=
            q.requests ++ [⟨head, bufs, contents s.mem (readableBuffers bufs)⟩] } := by
  obtain ⟨hne, hord, hclear⟩ := ho
  have hrep := h.represents
  obtain ⟨head, rest, free, hlen, hfree, heq⟩ := Driver.addChain_ok hrep.driverCovered hne hord
    (fun i hi => hrep.owned.lt_of_free hi) hroom
  rw [hrep.driverLayout] at heq
  refine ⟨head, rest, free, hfree, hlen, heq, ?_⟩
  -- the buffers, old and new, are clear of what the driver wrote
  have hstay : ∀ bufs' : List Buffer, (∀ b ∈ bufs', l.Clear b.addr.toNat b.len.toNat) →
      ∀ b ∈ bufs', ∀ i, BufferRef.Holds b.ref i →
        (published l s head rest free bufs).mem.buf[i]? = s.mem.buf[i]? :=
    fun bufs' hcl b hb i hi =>
      putChain_outside hlen (h.lt_of_popped hfree) ((hcl b hb).outside hi)
  have hcalls : ∀ (c : Call), Relay.underWay { q with requests := q.requests ++ [c] } =
      q.underWay ++ [c] := fun c => by rw [Relay.underWay, Relay.underWay, List.append_assoc]
  refine
    { represents := ?_, placed := ?_, disjoint := ?_, waiting := ?_, ready := ?_ }
  · rw [Relay.map_publish]
    exact hrep.publish hne hord hclear hlen hfree
  · intro c hc
    rw [hcalls, List.mem_append, List.mem_singleton] at hc
    rcases hc with hc | rfl
    · exact h.placed_published hlen hfree (h.placed c hc)
    · exact h.placed_new hlen hfree ⟨hne, hord, hclear⟩ hinside hshort hapart _
  · rw [hcalls, List.pairwise_append]
    refine ⟨h.disjoint, List.pairwise_singleton _ _, fun c hc c' hc' => ?_⟩
    obtain rfl := List.mem_singleton.mp hc'
    exact fun b hb b' hb' hw => hothers c hc b hb b' hb' hw
  · intro c hc
    rcases List.mem_append.mp hc with hc | hc
    · rw [← h.waiting c hc]
      exact contents_readableBuffers (hstay _ (h.placed c (mem_underWay_of_request hc)).clear)
    · obtain rfl := List.mem_singleton.mp hc
      exact contents_readableBuffers (hstay _ hclear)
  · intro a ha
    rw [contents_writableBuffers (hstay _ (h.placed a.1 (mem_underWay_of_answer ha)).clear)]
    exact h.ready a ha

/-- A polite chain is apart from the calls under way. -/
theorem publish (h : Carries l s q) (ho : (Op.addChain bufs).Admissible l)
    (hr : (Op.addChain bufs).Respects s) (hroom : bufs.length ≤ s.driver.freeDescs.length) :
    ∃ head, (s.exec (.addChain bufs)).2 = .publish head ∧
      Carries l (s.exec (.addChain bufs)).1
        { q with requests :=
            q.requests ++ [⟨head, bufs, contents s.mem (readableBuffers bufs)⟩] } := by
  obtain ⟨hinside, hshort, hapart, hothers⟩ := hr
  obtain ⟨head, rest, free, -, -, heq, h'⟩ := h.addChain ho hinside hshort hapart
    (fun c hc b hb b' hb' hw i hi hi' => by
      obtain ⟨d, hd, href, hwrite⟩ :=
        (h.placed c hc).exists_underWay h.represents.driverLayout hb
      exact hothers b' hb' d hd (by rw [hwrite]; exact hw.symm) i hi' (href ▸ hi)) hroom
  rw [System.exec_addChain_ok heq]
  exact ⟨head, rfl, h'⟩

end Publish

/-! ### Serving -/

/-- What an iteration changes outside the queue: the writable buffers of the
chain it serves. -/
theorem step_frame (h : Carries l s q) {c : Call} {cs : List Call} (hq : q.requests = c :: cs)
    {work : Work ω} {p p' : Process ω} {m : SharedMem} {r : Option (UInt16 × UInt32)}
    (hdev : p.dev = s.device) (hspec : Process.StepSpec work p s.mem r p' m) {i : ℕ}
    (hi : i < l.descTable ∨ l.endAddr ≤ i)
    (hapart : ∀ b ∈ c.buffers, b.deviceWritable = true → ¬ BufferRef.Holds b.ref i) :
    m.buf[i]? = s.mem.buf[i]? := by
  have hrep := h.represents
  have hlay := l.bounds
  have hlayout : p.dev.layout = l := by rw [hdev, hrep.deviceLayout]
  have hslot := l.le_usedBase p.dev.nextUsed
  have hslot' := VirtqLayout.usedBase_add_le (l := l) p.dev.nextUsed
  refine hspec.frame fun hmay => ?_
  cases hmay with
  | usedSlot h₁ h₂ =>
      have h₁' : l.usedBase p.dev.nextUsed ≤ i := by rw [← hlayout]; exact h₁
      have h₂' : i < l.usedBase p.dev.nextUsed + 8 := by rw [← hlayout]; exact h₂
      omega
  | usedIdx h₁ h₂ =>
      rw [show (p, s.mem).1.dev.layout = l from hlayout] at h₁ h₂
      omega
  | @buffer ds d hc hd hwrite h₁ h₂ =>
      -- the walk of the device is the chain of the call, so `d` is one of its buffers
      obtain ⟨ds', hcollect, hdesc⟩ :=
        (h.placed c (mem_underWay_of_request (hq ▸ List.mem_cons_self))).collect h.covered
      have hhead : p.dev.nextHead s.mem = c.head := by
        rw [hdev]
        exact hrep.nextHead_eq (by rw [Relay.map, hq]; rfl)
      have hc' : (ChainIter.new s.mem l c.head).collect (l.qs + 1) = .ok (ds, none) := by
        rw [← hlayout, ← hhead]
        exact hc
      obtain rfl : ds' = ds := by
        rw [hcollect] at hc'
        simpa using hc'
      obtain ⟨b, hb, href, hbw⟩ := hdesc.exists_buffer hd
      refine hapart b hb (hbw.trans hwrite) ?_
      rw [href]
      exact ⟨h₁, h₂⟩

/-- The device finds the oldest call whole: the walk yields its buffers, they
can be read, and the request is in them. -/
theorem walk_eq (h : Carries l s q) {c : Call} {cs : List Call} (hq : q.requests = c :: cs)
    {ds : List Descriptor} {e : Option ChainError}
    (hw : (ChainIter.new s.mem l c.head).Walks ds e) :
    e = none ∧ Describes ds c.buffers ∧ gather s.mem (readableOf ds) = (c.request, []) ∧
      (∀ r ∈ writableOf ds, r.1.toNat + r.2.toNat ≤ s.mem.len) := by
  have hc : c ∈ q.requests := hq ▸ List.mem_cons_self
  have hplaced := h.placed c (mem_underWay_of_request hc)
  obtain ⟨ds', hcollect, hdesc⟩ := hplaced.collect h.covered
  have hwalk : (ChainIter.new s.mem l c.head).collect (l.qs + 1) = .ok (ds, e) :=
    (ChainIter.collect_eq_ok (Nat.lt_succ_self _)).mpr hw
  rw [hcollect] at hwalk
  obtain ⟨rfl, rfl⟩ : ds' = ds ∧ none = e := by simpa using hwalk
  refine ⟨rfl, hdesc, ?_, fun r hr => ?_⟩
  · rw [gather_eq_contents, hdesc.readableOf_eq, h.waiting c hc]
    intro r hr
    rw [hdesc.readableOf_eq] at hr
    obtain ⟨b, hb, -, rfl⟩ := mem_readableBuffers.mp hr
    exact hplaced.inside b hb
  · rw [hdesc.writableOf_eq] at hr
    obtain ⟨b, hb, -, rfl⟩ := mem_writableBuffers.mp hr
    exact hplaced.inside b hb

/-- The oldest call is answered: its reply is in its buffers, and the buffers of the
calls apart from it are as they were. -/
theorem serve (h : Carries l s q) {c : Call} {cs : List Call} (hq : q.requests = c :: cs)
    {reply : List UInt8}
    (hrep : Represents l s' (Relay.map Call.head replyLen
      { q with requests := cs, answers := q.answers ++ [(c, reply)] }))
    (hdriver : s'.driver = s.driver) (hlen : s'.mem.len = s.mem.len)
    (htable : SharedMem.SameOn s.mem s'.mem l.descTable l.availRing)
    (hothers : ∀ c' ∈ q.underWay, c.Disjoint c' → ∀ b ∈ c'.buffers, ∀ i,
      BufferRef.Holds b.ref i → s'.mem.buf[i]? = s.mem.buf[i]?)
    (hready : (contents s'.mem (writableBuffers c.buffers)).take reply.length = reply) :
    Carries l s' { q with requests := cs, answers := q.answers ++ [(c, reply)] } := by
  have hcalls := Relay.underWay_serve q hq reply
  have hdisjoint := List.pairwise_append.mp (show (q.answers.map Prod.fst ++
    q.requests).Pairwise Call.Disjoint from h.disjoint)
  rw [hq] at hdisjoint
  obtain ⟨-, hrest, hanswers⟩ := hdisjoint
  refine
    { represents := hrep, placed := ?_, disjoint := ?_, waiting := ?_, ready := ?_ }
  · intro c' hc'
    rw [hcalls] at hc'
    exact (h.placed c' hc').keep hlen fun rest hlook henc =>
      ⟨by rw [hdriver, hlook], henc.of_table htable⟩
  · rw [hcalls]
    exact h.disjoint
  · -- a call that still waits lies apart from the served one
    intro c' hc'
    have hreq : c' ∈ q.requests := hq ▸ List.mem_cons_of_mem _ hc'
    rw [← h.waiting c' hreq]
    exact contents_readableBuffers
      (hothers c' (mem_underWay_of_request hreq) ((List.pairwise_cons.mp hrest).1 c' hc'))
  · intro a ha
    -- so does a reply that was ready before; the new one is what was written
    rcases List.mem_append.mp ha with ha | ha
    · rw [contents_writableBuffers (hothers a.1 (mem_underWay_of_answer ha)
        (hanswers a.1 (List.mem_map_of_mem ha) c List.mem_cons_self).symm)]
      exact h.ready a ha
    · obtain rfl := List.mem_singleton.mp ha
      exact hready

/-- One iteration of the device answers the oldest call. -/
theorem step (h : Carries l s q) {c : Call} {cs : List Call} (hq : q.requests = c :: cs)
    (work : Work ω) {p : Process ω} (hdev : p.dev = s.device) :
    ∃ t : Process ω × SharedMem,
      Process.step work (p, s.mem) =
        .ok (some (c.head, replyLen (c.reply fun r => (work p.work r).1))) t ∧
      t.1.work = (work p.work c.request).2 ∧
      t.1.stats = p.stats.answered c (c.reply fun r => (work p.work r).1) ∧
      Carries l (s.withDevice (t.1.dev, t.2)) { q with
        requests := cs, answers := q.answers ++ [(c, c.reply fun r => (work p.work r).1)] } := by
  have hrep := h.represents
  have hlayout : p.dev.layout = l := by rw [hdev, hrep.deviceLayout]
  have hplaced := h.placed c (mem_underWay_of_request (hq ▸ List.mem_cons_self))
  have hqmap : (q.map Call.head replyLen).requests = c.head :: cs.map Call.head := by
    rw [Relay.map, hq]
    rfl
  have hhead : p.dev.nextHead s.mem = c.head := by
    rw [hdev]
    exact hrep.nextHead_eq hqmap
  have hcov : p.dev.layout.Covered s.mem := by
    rw [hlayout]
    exact h.covered
  obtain ⟨r, p', m, hstep, hspec⟩ := Process.step_spec work (p := p) (m := s.mem) hcov
  have hlen := hspec.layout_len.2
  -- what was written spares the buffers of the other calls
  have hothers : ∀ c' ∈ q.underWay, c.Disjoint c' → ∀ b ∈ c'.buffers, ∀ i,
      BufferRef.Holds b.ref i → m.buf[i]? = s.mem.buf[i]? := by
    intro c' hc' hdis b hb i hi
    exact h.step_frame hq hdev hspec (((h.placed c' hc').clear b hb).outside hi)
      fun b' hb' hw hi' => hdis b' hb' b hb (.inl hw) i hi' hi
  have hchain : p.dev.chain s.mem (p.dev.nextHead s.mem) = ChainIter.new s.mem l c.head := by
    rw [Device.chain, hlayout, hhead]
  cases hspec with
  | idle hp =>
      have hz := hrep.toNat_pending
      rw [← hdev, hp, hqmap] at hz
      cases hz
  | refused hp hw =>
      rw [hchain] at hw
      cases (h.walk_eq hq hw).1
  | @served ds response w m₁ written err hp hw hwork hsc =>
      rw [hchain] at hw
      obtain ⟨-, hdesc, hgather, hwritable⟩ := h.walk_eq hq hw
      rw [hgather] at hwork
      obtain rfl : response = (work p.work c.request).1 := by rw [hwork]
      have hreply : (c.reply fun r => (work p.work r).1) =
          (work p.work c.request).1.take (refsLen (writableBuffers c.buffers)) := rfl
      obtain ⟨rfl, hwritten, hready⟩ := hdesc.scattered hreply hsc hwritable hplaced.apart
      rw [hhead, hwritten] at hstep hlen hothers
      have hw : (work p.work c.request).2 = w := by rw [hwork]
      refine ⟨_, hstep, hw.symm, ?_, h.serve hq ?_ rfl hlen (fun i hlo hhi => ?_) hothers ?_⟩
      · have hds : ds.length = c.buffers.length := by simpa using congrArg List.length hdesc
        show p.stats.served c.head ds (gather s.mem (readableOf ds)) (replyLen _) none = _
        rw [ProcessStats.served, ProcessStats.answered, hgather, hds]
        simp
      · rw [Relay.map_serve]
        exact (hrep.step hqmap hdev hstep).2
      · have hlay := l.bounds
        have hslot := l.le_usedBase s.device.nextUsed
        exact (hrep.step_frame hqmap hdev hstep (by omega) (by omega) (by omega) (by omega)).symm
      · show (contents (p.dev.layout.putUsed m₁ _ _ _) _).take _ = _
        rw [hlayout, hplaced.contents_putUsed, hready]

/-! ### Collecting -/

end Carries

namespace Driver

variable {d : Driver} {m : SharedMem} {k : UInt16} {indices : List UInt16}

theorem lookup_of_collected {id : UInt16}
    (h : (d.collected id).outstanding.lookup k = some indices) :
    d.outstanding.lookup k = some indices := by
  unfold collected at h
  rcases e : d.outstanding.lookup id with - | descs
  · rw [e] at h
    exact h
  · rw [e] at h
    by_cases hk : k = id
    · rw [hk, AList.lookup_erase] at h
      cases h
    · rwa [AList.lookup_erase_ne hk] at h

/-- What is outstanding after collecting was outstanding before. -/
theorem lookup_of_collectUsed {cs : List (UInt16 × UInt32)} {t : Driver × SharedMem}
    (h : collectUsed (d, m) = .ok cs t) (hk : t.1.outstanding.lookup k = some indices) :
    d.outstanding.lookup k = some indices :=
  collectUsed_keeps
    (P := fun d' => d'.outstanding.lookup k = some indices →
      d.outstanding.lookup k = some indices)
    (fun _ ih h' => ih (lookup_of_collected h')) h id hk

end Driver

namespace Carries

/-- `collectUsed` returns the waiting replies. -/
theorem collect (h : Carries l s q) :
    ∃ d, Driver.collectUsed (s.driver, s.mem) =
        .ok (q.answers.map (Prod.map Call.head replyLen)) (d, s.mem) ∧
      Carries l { s with driver := d } { q with answers := [], collected := q.served } := by
  obtain ⟨d, hcollect, hrep⟩ := h.represents.collectUsed
  refine ⟨d, hcollect, ?_⟩
  have hdisjoint := List.pairwise_append.mp (show (q.answers.map Prod.fst ++
    q.requests).Pairwise Call.Disjoint from h.disjoint)
  refine
    { represents := ?_, placed := fun c hc => ?_, disjoint := hdisjoint.2.1
      waiting := h.waiting, ready := fun a ha => by cases ha }
  · rw [Relay.served_map] at hrep
    exact hrep
  · refine (h.placed c (mem_underWay_of_request hc)).keep rfl fun rest hlook henc => ⟨?_, henc⟩
    -- its head is still outstanding, so its chain is
    obtain ⟨rest', hlook'⟩ := hrep.exists_indices (a := c.head)
      (List.mem_append_right _ (List.mem_map_of_mem hc))
    have hsame := Driver.lookup_of_collectUsed hcollect hlook'
    rw [hlook] at hsame
    rw [Option.some.inj hsame]
    exact hlook'

/-! ### The other calls -/

/-- A store that meets neither the table nor a buffer under way. -/
theorem put (h : Carries l s q) (hrep : Represents l s' (q.map Call.head replyLen))
    (hout : s'.driver.outstanding = s.driver.outstanding) {a : ℕ} {data : List UInt8}
    (hmem : s'.mem = s.mem.put a data)
    (htable : l.availRing ≤ a ∨ a + data.length ≤ l.descTable)
    (hspared : ∀ c ∈ q.underWay, ∀ b ∈ c.buffers, BufferRef.Spared b.ref a data.length) :
    Carries l s' q := by
  have hlay := l.bounds
  refine h.keep hrep hout (by rw [hmem, SharedMem.len_put]) ?_ fun c hc b hb i hi => ?_
  · rw [hmem]
    exact (s.mem.sameOn_put (by omega)).symm
  · rw [hmem]
    exact s.mem.put_getElem? (hspared c hc b hb i hi)

/-- The buffers under way are spared by what is written into the queue, -/
theorem spared_in_queue (h : Carries l s q) {a n : ℕ} (hlo : l.descTable ≤ a)
    (hhi : a + n ≤ l.endAddr) :
    ∀ c ∈ q.underWay, ∀ b ∈ c.buffers, BufferRef.Spared b.ref a n := by
  intro c hc b hb i hi
  rcases (h.placed c hc).clear b hb with hclear | hclear
  · exact .inl (lt_of_lt_of_le hi.2 (hclear.trans hlo))
  · exact .inr (hhi.trans (hclear.trans hi.1))

/-- and by what spares the descriptors of the outstanding chains. -/
theorem spared_of_underWay (h : Carries l s q) {a n : ℕ}
    (hall : ∀ d ∈ s.underWay, BufferRef.Spared (d.addr, d.len) a n) :
    ∀ c ∈ q.underWay, ∀ b ∈ c.buffers, BufferRef.Spared b.ref a n := by
  intro c hc b hb
  obtain ⟨d, hd, href, -⟩ := (h.placed c hc).exists_underWay h.represents.driverLayout hb
  rw [← href]
  exact hall d hd

theorem notifyOn (h : Carries l s q) : Carries l { s with mem := s.device.notifyOn s.mem } q := by
  have hrep := h.represents.notifyOn
  have hlay := l.bounds
  by_cases he : s.device.eventIdx = true
  · refine h.put hrep rfl (by rw [Device.notifyOn, if_pos he, h.represents.deviceLayout])
      (.inl (by omega)) (h.spared_in_queue (by omega) (by rw [length_toLe]; omega))
  · refine h.put hrep rfl (by rw [Device.notifyOn, if_neg he, h.represents.deviceLayout])
      (.inl (by omega)) (h.spared_in_queue (by omega) (by rw [length_toLe]; omega))

theorem notifyOff (h : Carries l s q) : Carries l { s with mem := s.device.notifyOff s.mem } q := by
  have hrep := h.represents.notifyOff
  have hlay := l.bounds
  by_cases he : s.device.eventIdx = true
  · rw [Device.notifyOff, if_pos he]
    exact h
  · refine h.put hrep rfl (by rw [Device.notifyOff, if_neg he, h.represents.deviceLayout])
      (.inl (by omega)) (h.spared_in_queue (by omega) (by rw [length_toLe]; omega))

theorem armUsedEvent (h : Carries l s q) :
    Carries l { s with mem := s.mem.put l.usedEvent (toLe 2 s.driver.lastUsed.toNat) } q := by
  have hlay := l.bounds
  exact h.put h.represents.armUsedEvent rfl rfl (.inl (by omega))
    (h.spared_in_queue (by omega) (by rw [length_toLe]; omega))

/-- A call that moves nothing through the queue keeps what is in it. -/
theorem aside (h : Carries l s q) {o : Op} (ho : o.Admissible l) (hr : o.Respects s)
    (hside : o.isAside = true) : (s.exec o).2 = .idle ∧ Carries l (s.exec o).1 q := by
  have hrep := h.represents
  have hlay := l.bounds
  cases o with
  | addChain _ => cases hside
  | collectUsed => cases hside
  | serve _ => cases hside
  | needsKick =>
      rw [System.exec, Driver.needsKick_ok hrep.driverCovered]
      exact ⟨rfl, h.keep { hrep with } rfl rfl (fun _ _ _ => rfl) fun _ _ _ _ _ _ => rfl⟩
  | armUsedEvent =>
      rw [System.exec, Driver.armUsedEvent_ok hrep.driverCovered, hrep.driverLayout]
      exact ⟨rfl, h.armUsedEvent⟩
  | alloc data =>
      obtain ⟨arena, m, hle, hfinal, hm⟩ := Driver.alloc_spec data (s.driver, s.mem)
      rw [System.exec, hfinal]
      -- an allocation only moves the arena on, and copies behind everything under way
      have hrep' : Represents l { s with driver := { s.driver with arena } }
          (q.map Call.head replyLen) := { hrep with arena := hrep.arena.trans hle }
      rcases hm with rfl | rfl
      · exact ⟨rfl, h.keep hrep' rfl rfl (fun _ _ _ => rfl) fun _ _ _ _ _ _ => rfl⟩
      · have harena := hrep.arena
        exact ⟨rfl, h.put (hrep'.put (.inr harena)) rfl rfl (.inl (le_trans (by omega) harena))
          (h.spared_of_underWay hr)⟩
  | allocUninit len =>
      obtain ⟨arena, hle, hfinal, -⟩ := Driver.allocUninit_spec len (s.driver, s.mem)
      rw [System.exec, hfinal]
      exact ⟨rfl, h.keep { hrep with arena := hrep.arena.trans hle } rfl rfl (fun _ _ _ => rfl)
        fun _ _ _ _ _ _ => rfl⟩
  | needsNotification =>
      rw [System.exec, Device.needsNotification_ok hrep.deviceCovered]
      exact ⟨rfl, h.keep { hrep with } rfl rfl (fun _ _ _ => rfl) fun _ _ _ _ _ _ => rfl⟩
  | enableNotification =>
      rw [System.exec, Device.enableNotification_ok hrep.deviceCovered]
      exact ⟨rfl, h.notifyOn⟩
  | disableNotification =>
      rw [System.exec, Device.disableNotification_ok hrep.deviceCovered]
      exact ⟨rfl, h.notifyOff⟩
  | writeBuffer addr data =>
      rw [System.exec_writeBuffer]
      split
      · -- the client writes outside the queue and outside the buffers it gave away
        refine ⟨rfl, h.put (hrep.put ho) rfl rfl ?_ (h.spared_of_underWay hr)⟩
        rcases ho with hclear | hclear
        · exact .inr hclear
        · exact .inl (by omega)
      · exact ⟨rfl, h⟩

/-! ### Every call is a step of the calls -/

theorem exec (h : Carries l s q) {o : Op} (hpolite : o.Polite l s) :
    ∃ e q', Relay.Step q e q' ∧ (s.exec o).2 = Shown e ∧ Conveys s o e ∧
      Carries l (s.exec o).1 q' := by
  obtain ⟨ho, hr⟩ := hpolite
  have hrep := h.represents
  by_cases hside : o.isAside = true
  · obtain ⟨hidle, h'⟩ := h.aside ho hr hside
    exact ⟨.idle, q, .idle, hidle, .aside hside, h'⟩
  cases o with
  | addChain bufs =>
      rcases Nat.lt_or_ge s.driver.freeDescs.length bufs.length with hlt | hge
      · -- too few descriptors: the call fails and nothing is published
        have heq := Driver.addChain_outOfDescriptors (m := s.mem) ho.1 hlt
        rw [System.exec_addChain_error heq]
        exact ⟨.idle, q, .idle, rfl, .full hlt, h⟩
      · obtain ⟨head, hev, h'⟩ := h.publish ho hr hge
        exact ⟨.publish ⟨head, bufs, _⟩, _, .publish, hev, .publish hge, h'⟩
  | collectUsed =>
      obtain ⟨d, hcollect, h'⟩ := h.collect
      rw [System.exec_collectUsed_ok hcollect]
      exact ⟨_, _, .collect, rfl, .collect h.ready, h'⟩
  | serve work =>
      obtain ⟨requests, answers, n⟩ := q
      rcases requests with - | ⟨c, cs⟩
      · -- nothing waits, and the device is asked for nothing
        rw [hrep.exec_serve_idle work rfl]
        refine ⟨.idle, _, .idle, rfl, .drained ?_, h⟩
        exact UInt16.toNat_inj.mp hrep.toNat_pending
      · obtain ⟨t, hstep, -, -, h'⟩ :=
          h.step rfl (fun w r => (work r, w)) (p := (Process.start s.device () s.mem).1) rfl
        rw [System.exec_serve_some hstep]
        exact ⟨_, _, .serve, rfl, .serve, h'⟩
  | _ => exact absurd rfl hside

end Carries

/-! ### Whole runs -/

section Runs

variable {m : SharedMem} {arenaEnd : ℕ} {eventIdx eventIdx' : Bool} {d : Driver}

theorem carries_init (hnew : Driver.new l arenaEnd eventIdx = some d) (hcov : l.Covered m)
    (havail : m.word16 l.availIdx = 0) (hused : m.word16 l.usedIdx = 0) :
    Carries l (System.init m d eventIdx') {} where
  represents := represents_init hnew hcov havail hused
  placed c hc := by cases hc
  disjoint := List.Pairwise.nil
  waiting c hc := by cases hc
  ready a ha := by cases ha

/-- Every call of a sequence is polite in the state it is made in. -/
def Polite (l : VirtqLayout) (s : System) (ops : List Op) : Prop :=
  ∀ i (o : Op), ops[i]? = some o → o.Polite l (Relay.execAll System.exec s (ops.take i)).1

theorem Polite.take {ops : List Op} (h : Polite l s ops) (k : ℕ) : Polite l s (ops.take k) := by
  intro i o ho
  have hik : i < k := by
    by_contra hge
    rw [List.getElem?_take_eq_none (not_lt.mp hge)] at ho
    cases ho
  rw [List.getElem?_take_of_lt hik] at ho
  rw [List.take_take, min_eq_left hik.le]
  exact h i o ho

/-- What the calls of a sequence mean, one by one. -/
def Delivers (s : System) (ops : List Op) (es : List (Relay.Event Call (List UInt8))) : Prop :=
  (Relay.execAll System.exec s ops).2 = es.map Shown ∧
  ∀ i o e, ops[i]? = some o → es[i]? = some e →
    Conveys (Relay.execAll System.exec s (ops.take i)).1 o e

theorem exists_carried (hnew : Driver.new l arenaEnd eventIdx = some d) (hcov : l.Covered m)
    (havail : m.word16 l.availIdx = 0) (hused : m.word16 l.usedIdx = 0) {ops : List Op}
    (hops : Polite l (System.init m d eventIdx') ops) :
    ∃ es q, Relay.Run {} es q ∧ Delivers (System.init m d eventIdx') ops es ∧
      Carries l (Relay.execAll System.exec (System.init m d eventIdx') ops).1 q := by
  obtain ⟨es, q, hrun, hshown, hmeaning, hcarries⟩ := Relay.exists_run_along (R := Carries l)
    (fun h ho => h.exec ho) (carries_init hnew hcov havail hused) hops
  exact ⟨es, q, hrun, ⟨hshown, hmeaning⟩, hcarries⟩

/-- Fresh halves over a zeroed region, and a client that leaves the buffers of
outstanding chains alone: in every interleaving a published request is what its
buffers held then, the device answers just that, `used.len` is the length of the
reply and the buffers of a collected chain begin with it; the calls are answered
in the order of their publication and collected in the order of the answers. -/
theorem requests_and_replies_delivered (hnew : Driver.new l arenaEnd eventIdx = some d)
    (hcov : l.Covered m) (havail : m.word16 l.availIdx = 0) (hused : m.word16 l.usedIdx = 0)
    {ops : List Op} (hops : Polite l (System.init m d eventIdx') ops) :
    ∃ es, Delivers (System.init m d eventIdx') ops es ∧
      Relay.popped es <+: Relay.published es ∧
      Relay.collectedIn es <+: Relay.answered es := by
  obtain ⟨es, q, hrun, hdelivers, -⟩ := exists_carried hnew hcov havail hused hops
  exact ⟨es, hdelivers, hrun.popped_prefix, hrun.collected_prefix⟩

/-- One byte goes out, and two of the three that answer it come back. -/
def shortReply : List Op :=
  [.addChain [⟨80, 1, false⟩, ⟨81, 2, true⟩], .serve fun r => 7 :: 8 :: r, .collectUsed]

theorem polite_shortReply :
    Polite pairQueue (System.init emptyRegion pairDriver true) shortReply := by
  intro i o ho
  rcases i with - | _ | _ | i
  · obtain rfl := Option.some.inj ho
    refine ⟨⟨by decide, by decide, ?_⟩, ?_, by decide, ?_, ?_⟩
    · simp only [List.forall_mem_cons, List.not_mem_nil, false_implies, implies_true, and_true]
      exact ⟨.inr (by decide), .inr (by decide)⟩
    · decide
    · exact List.pairwise_singleton _ _
    · intro b hb d hd
      cases hd
  · obtain rfl := Option.some.inj ho
    exact ⟨trivial, trivial⟩
  · obtain rfl := Option.some.inj ho
    exact ⟨trivial, trivial⟩
  · cases ho

theorem requests_and_replies_delivered_pairQueue :
    ∃ es, Delivers (System.init emptyRegion pairDriver true) shortReply es ∧
      Relay.popped es <+: Relay.published es ∧ Relay.collectedIn es <+: Relay.answered es :=
  requests_and_replies_delivered new_pairQueue (by decide) (by decide) (by decide)
    polite_shortReply

end Runs

end SystemsStudy
