/-
SystemsStudy/Calls.lean

Requests and replies, through the virtqueue.

What goes through the queue is heads and lengths; what its two users exchange
is bytes.  A `Call` is a chain as the driver's side sees it, with the request
its readable buffers held when it was published; the reply is what fits of the
response into its writable buffers.  So there is a second relay over the same
system, one that carries calls and replies, and `Carries l s q` says when the
system is in the middle of it: every call under way is a chain in the table, a
request still waiting is in its buffers, and so is a reply not yet collected.

The client has to respect the buffers it gave away (`Op.Respects`).  Which
these are can be read off the system: they are the descriptors of the
outstanding chains.
-/
import SystemsStudy.Exchange
import SystemsStudy.Transfer

namespace SystemsStudy

open Bytes Fallible

/-! ### Buffers of a chain -/

/-- Address and length of a buffer, as its descriptor will name them. -/
def Buffer.ref (b : Buffer) : BufferRef := (b.addr, b.len)

/-- The buffers the device reads, in order. -/
def readableBuffers (bufs : List Buffer) : List BufferRef :=
  (bufs.filter fun b => !b.deviceWritable).map Buffer.ref

/-- The buffers the device writes, in order. -/
def writableBuffers (bufs : List Buffer) : List BufferRef :=
  (bufs.filter fun b => b.deviceWritable).map Buffer.ref

/-- The descriptors describe the buffers. -/
def Describes (ds : List Descriptor) (bufs : List Buffer) : Prop :=
  ds.map (fun d => (d.addr, d.len, d.isWriteOnly)) =
    bufs.map fun b => (b.addr, b.len, b.deviceWritable)

namespace Describes

variable {ds : List Descriptor} {bufs : List Buffer}

theorem readableOf_eq (h : Describes ds bufs) : readableOf ds = readableBuffers bufs := by
  have hmap := congrArg (fun vs : List (UInt64 × UInt32 × Bool) =>
    (vs.filter fun v => !v.2.2).map fun v => (v.1, v.2.1)) h
  simp only [List.filter_map, List.map_map, Function.comp_def] at hmap
  exact hmap

theorem writableOf_eq (h : Describes ds bufs) : writableOf ds = writableBuffers bufs := by
  have hmap := congrArg (fun vs : List (UInt64 × UInt32 × Bool) =>
    (vs.filter fun v => v.2.2).map fun v => (v.1, v.2.1)) h
  simp only [List.filter_map, List.map_map, Function.comp_def] at hmap
  exact hmap

theorem exists_buffer (h : Describes ds bufs) {d : Descriptor} (hd : d ∈ ds) :
    ∃ b ∈ bufs, b.ref = (d.addr, d.len) ∧ b.deviceWritable = d.isWriteOnly := by
  have hview : (d.addr, d.len, d.isWriteOnly) ∈
      bufs.map fun b => (b.addr, b.len, b.deviceWritable) := by
    rw [← show _ = _ from h]
    exact List.mem_map_of_mem hd
  obtain ⟨b, hb, heq⟩ := List.mem_map.mp hview
  obtain ⟨haddr, hlen, hwrite⟩ : b.addr = d.addr ∧ b.len = d.len ∧
      b.deviceWritable = d.isWriteOnly := by simpa using heq
  exact ⟨b, hb, by rw [Buffer.ref, haddr, hlen], hwrite⟩

theorem exists_descriptor (h : Describes ds bufs) {b : Buffer} (hb : b ∈ bufs) :
    ∃ d ∈ ds, (d.addr, d.len) = b.ref ∧ d.isWriteOnly = b.deviceWritable := by
  have hview : (b.addr, b.len, b.deviceWritable) ∈
      ds.map fun d => (d.addr, d.len, d.isWriteOnly) := by
    rw [show _ = _ from h]
    exact List.mem_map_of_mem hb
  obtain ⟨d, hd, heq⟩ := List.mem_map.mp hview
  obtain ⟨haddr, hlen, hwrite⟩ : d.addr = b.addr ∧ d.len = b.len ∧
      d.isWriteOnly = b.deviceWritable := by simpa using heq
  exact ⟨d, hd, by rw [Buffer.ref, haddr, hlen], hwrite⟩

end Describes

theorem mem_writableBuffers {bufs : List Buffer} {r : BufferRef} :
    r ∈ writableBuffers bufs ↔ ∃ b ∈ bufs, b.deviceWritable = true ∧ b.ref = r := by
  simp [writableBuffers, and_assoc]

theorem mem_readableBuffers {bufs : List Buffer} {r : BufferRef} :
    r ∈ readableBuffers bufs ↔ ∃ b ∈ bufs, b.deviceWritable = false ∧ b.ref = r := by
  simp [readableBuffers, and_assoc]

/-- The descriptors of an encoded chain describe its buffers. -/
theorem Encoded.describes {l : VirtqLayout} {m : SharedMem} {indices : List UInt16}
    {bufs : List Buffer} (h : Encoded l m indices bufs) :
    Describes (chainDescriptors indices bufs) bufs :=
  chainDescriptors_view h.len_eq

/-! ### Calls -/

/-- A published chain with its request. -/
structure Call where
  head : UInt16
  buffers : List Buffer
  /-- what the readable buffers held when the chain was published -/
  request : List UInt8

namespace Call

/-- How many bytes the writable buffers hold. -/
def capacity (c : Call) : ℕ := refsLen (writableBuffers c.buffers)

theorem capacity_le (c : Call) : c.capacity ≤ buffersLen c.buffers := by
  rw [capacity, refsLen, writableBuffers, List.map_map]
  exact (List.filter_sublist.map _).sum_le_sum fun _ _ => Nat.zero_le _

/-- What comes back if the device answers with `work`. -/
def reply (c : Call) (work : List UInt8 → List UInt8) : List UInt8 :=
  (work c.request).take c.capacity

/-- A buffer one of two chains may be written through is not one of the other. -/
def Disjoint (c c' : Call) : Prop :=
  ∀ b ∈ c.buffers, ∀ b' ∈ c'.buffers, b.deviceWritable = true ∨ b'.deviceWritable = true →
    BufferRef.Apart b.ref b'.ref

theorem Disjoint.symm {c c' : Call} (h : c.Disjoint c') : c'.Disjoint c :=
  fun b hb b' hb' hw i hi hi' => h b' hb' b hb hw.symm i hi' hi

end Call

/-- Calls not yet served, and served ones with their replies. -/
abbrev Calls := Relay Call (List UInt8)

/-- The completion that reports a reply. -/
def replyLen (r : List UInt8) : UInt32 := UInt32.ofNat r.length

/-- What is seen of a step of the calls in the queue. -/
abbrev Shown : Relay.Event Call (List UInt8) → QueueEvent := Relay.Event.map Call.head replyLen

/-! ### What the client has to respect -/

/-- The descriptors of the outstanding chains, as the table has them. -/
def System.underWay (s : System) : List Descriptor :=
  s.driver.outstanding.entries.flatMap fun e =>
    e.2.map fun i => s.mem.descAt (s.driver.layout.descAddr i)

/-- Writing the `n` bytes from `a` on does not touch the buffer. -/
def BufferRef.Spared (b : BufferRef) (a n : ℕ) : Prop :=
  ∀ i, BufferRef.Holds b i → i < a ∨ a + n ≤ i

/-- Whether a call leaves the buffers of the outstanding chains alone.  A new
chain lies in the region, is not too long to be walked, and its writable
buffers overlap neither each other nor what is already under way. -/
def Op.Respects (s : System) : Op → Prop
  | .addChain buffers =>
      (∀ b ∈ buffers, b.addr.toNat + b.len.toNat ≤ s.mem.len) ∧ buffersLen buffers < 2 ^ 32 ∧
      (writableBuffers buffers).Pairwise BufferRef.Apart ∧
      ∀ b ∈ buffers, ∀ d ∈ s.underWay, b.deviceWritable = true ∨ d.isWriteOnly = true →
        BufferRef.Apart b.ref (d.addr, d.len)
  | .writeBuffer addr data => ∀ d ∈ s.underWay, BufferRef.Spared (d.addr, d.len) addr data.length
  | .alloc data =>
      ∀ d ∈ s.underWay, BufferRef.Spared (d.addr, d.len) s.driver.arena data.length
  | _ => True

/-- The assertions of a call hold, and the buffers are respected. -/
def Op.Polite (l : VirtqLayout) (s : System) (o : Op) : Prop := o.Admissible l ∧ o.Respects s

/-- A call that moves nothing through the queue. -/
def Op.isAside : Op → Bool
  | .addChain _ | .collectUsed | .serve _ => false
  | _ => true

/-- What a step of the calls means for the bytes in the region. -/
inductive Conveys (s : System) : Op → Relay.Event Call (List UInt8) → Prop
  /-- the request is what the readable buffers hold now -/
  | publish {buffers head} : buffers.length ≤ s.driver.freeDescs.length →
      Conveys s (.addChain buffers)
        (.publish ⟨head, buffers, contents s.mem (readableBuffers buffers)⟩)
  | full {buffers} : s.driver.freeDescs.length < buffers.length →
      Conveys s (.addChain buffers) .idle
  /-- the device answers the request as it was published -/
  | serve {work c} : Conveys s (.serve work) (.serve c (c.reply work))
  | drained {work} : s.device.pending s.mem = 0 → Conveys s (.serve work) .idle
  /-- the writable buffers begin with the reply -/
  | collect {cs} : (∀ a ∈ cs,
        (contents s.mem (writableBuffers a.1.buffers)).take a.2.length = a.2) →
      Conveys s .collectUsed (.collect cs)
  | aside {o} : o.isAside = true → Conveys s o .idle

/-! ### The relation -/

/-- A call under way is a chain in the table that the device can serve. -/
structure Call.Placed (l : VirtqLayout) (s : System) (c : Call) : Prop where
  chain : ∃ rest, s.driver.outstanding.lookup c.head = some (c.head :: rest) ∧
    Encoded l s.mem (c.head :: rest) c.buffers
  clear : ∀ b ∈ c.buffers, l.Clear b.addr.toNat b.len.toNat
  inside : ∀ b ∈ c.buffers, b.addr.toNat + b.len.toNat ≤ s.mem.len
  short : buffersLen c.buffers < 2 ^ 32
  apart : (writableBuffers c.buffers).Pairwise BufferRef.Apart

/-- The system stands in the middle of these calls: it represents their heads and lengths,
and the bytes are where the calls say. -/
structure Carries (l : VirtqLayout) (s : System) (q : Calls) : Prop where
  represents : Represents l s (q.map Call.head replyLen)
  placed : ∀ c ∈ q.underWay, c.Placed l s
  disjoint : q.underWay.Pairwise Call.Disjoint
  /-- a request stays in its buffers until it is served, -/
  waiting : ∀ c ∈ q.requests, contents s.mem (readableBuffers c.buffers) = c.request
  /-- and a reply until it is collected -/
  ready : ∀ a ∈ q.answers, (contents s.mem (writableBuffers a.1.buffers)).take a.2.length = a.2

end SystemsStudy
