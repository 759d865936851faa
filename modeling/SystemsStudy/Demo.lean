/-
SystemsStudy/Demo.lean

`demo`: requests through one virtqueue and back, for any list of requests.

Each request is copied into the arena part by part, gets a reply buffer of 64
bytes and is published.  The device answers all of them in capitals, and the
driver reads every reply through the chain that carried it.  The arena only
grows, so a new request overlaps nothing under way (`Filling`), and the calls
are delivered.  The demo accepts its own run if and only if every request fits
its reply buffer; what comes before the verdict (`System.demoRun_eq`) does not
depend on that.
-/
import SystemsStudy.Answers
import SystemsStudy.Notify

namespace SystemsStudy

open Bytes Fallible

/-! ### The model -/

/-- `to_ascii_uppercase` of a byte. -/
def upper (b : UInt8) : UInt8 := if 0x61 ≤ b ∧ b ≤ 0x7a then b - 0x20 else b

/-- A request, in the parts its readable buffers hold. -/
abbrev Parts := List (List UInt8)

namespace System

/-- Copy the parts into the arena. -/
def place : Parts → SystemM (List Buffer)
  | [] => return []
  | part :: parts => do
      let some addr ← onDriver (Driver.alloc part) | failure
      let buffers ← place parts
      return ⟨UInt64.ofNat addr, UInt32.ofNat part.length, false⟩ :: buffers

/-- Publish a request, with one buffer for the reply. -/
def request (parts : Parts) : SystemM UInt16 := do
  let buffers ← place parts
  let some reply ← onDriver (Driver.allocUninit 64) | failure
  onDriver (Driver.addChain (buffers ++ [⟨UInt64.ofNat reply, 64, true⟩]))

/-- Publish the requests in order; their heads. -/
def requests : List Parts → SystemM (List UInt16)
  | [] => return []
  | parts :: rest => do
      let head ← request parts
      let heads ← requests rest
      return head :: heads

/-- Read the reply of a completion: the writable buffer is found by walking the chain
the device has just finished with. -/
def readReply (head : UInt16) (len : UInt32) : SystemM (List UInt8) := fun s =>
  match (ChainIter.new s.mem s.device.layout head).collect (s.device.layout.qs + 1) with
  | .error _ => none
  | .ok (ds, _) =>
      match ds.find? Descriptor.isWriteOnly with
      | none => none
      | some d =>
          match s.mem.readSlice d.addr.toNat len.toNat with
          | .error _ => none
          | .ok bytes => some (bytes, s)

/-- Compare each completion with the request of its position. -/
def check : List (UInt16 × UInt32) → List Parts → SystemM Bool
  | [], _ => return true
  | _ :: _, [] => failure
  | (head, len) :: completions, parts :: rest => do
      let got ← readReply head len
      let ok ← check completions rest
      return got == parts.flatten.map upper && ok

/-- The three assertions. -/
def verdict (s : System) (stats : ProcessStats) (ok : Bool) : Except String Unit :=
  if !ok then .error "device output did not match"
  else if s.driver.freeDescs.length ≠ s.driver.layout.qs then
    .error "descriptors leaked: the driver freed only chain heads"
  else if stats.errors ≠ 0 then .error "device rejected a well-formed chain"
  else .ok ()

/-- The demo up to its assertions: what the device counted, and whether every reply
is the request in capitals. -/
def demoRun (fuel : ℕ) (reqs : List Parts) : SystemM (ProcessStats × Bool) := do
  let _ ← requests reqs
  let _kick ← onDriver Driver.needsKick
  let stats ← process fuel (fun w r => (r.map upper, w)) ()
  let _interrupt ← onDevice Device.needsNotification
  let completions ← onDriver Driver.collectUsed
  let ok ← check completions reqs
  return (stats, ok)

/-- The demo, once its halves are made. -/
def demo (fuel : ℕ) (reqs : List Parts) : SystemM (Except String Unit) := do
  let (stats, ok) ← demoRun fuel reqs
  return verdict (← get) stats ok

end System

/-- The demo over a region. -/
def demo (l : VirtqLayout) (mem : SharedMem) (fuel : ℕ) (reqs : List Parts) :
    Option (Except String Unit) := do
  let driver ← Driver.new l mem.len true
  let r ← System.demo fuel reqs (System.init mem driver true)
  return r.1

/-! ### Filling the arena -/

/-- What a part takes of the arena. -/
def partRoom (part : List UInt8) : ℕ := alignUp part.length 8

/-- What a request takes of the arena, its reply buffer of 64 bytes included. -/
def requestRoom (parts : Parts) : ℕ := (parts.map partRoom).sum + 64

variable {l : VirtqLayout} {s s' : System} {q : Calls} {arenaEnd : ℕ}

/-- The arena is behind everything under way. -/
structure Filling (l : VirtqLayout) (arenaEnd : ℕ) (s : System) (q : Calls) : Prop where
  carries : Carries l s q
  within : Driver.Within l arenaEnd (s.driver, s.mem)
  below : ∀ c ∈ q.underWay, ∀ b ∈ c.buffers, b.addr.toNat + b.len.toNat ≤ s.driver.arena
  aligned : s.driver.arena % 8 = 0
  short : arenaEnd ≤ 2 ^ 32

theorem arena_reserved {d : Driver} (h : d.arena % 8 = 0) (n : ℕ) :
    (d.reserved n).arena = d.arena + alignUp n 8 := by
  show (d.arena + n + 8 - 1) / 8 * 8 = d.arena + (n + 8 - 1) / 8 * 8
  omega

theorem aligned_reserved (d : Driver) (n : ℕ) : (d.reserved n).arena % 8 = 0 := by
  show (d.arena + n + 8 - 1) / 8 * 8 % 8 = 0
  omega

/-- Buffers handed out between two values of the arena pointer. -/
def PlacedIn (lo hi : ℕ) (bufs : List Buffer) : Prop :=
  ∀ b ∈ bufs, lo ≤ b.addr.toNat ∧ b.addr.toNat + b.len.toNat ≤ hi

theorem PlacedIn.append {lo mid hi : ℕ} {bufs bufs' : List Buffer} (h : PlacedIn lo mid bufs)
    (h' : PlacedIn mid hi bufs') (hlo : lo ≤ mid) (hhi : mid ≤ hi) :
    PlacedIn lo hi (bufs ++ bufs') := by
  intro b hb
  rcases List.mem_append.mp hb with hb | hb
  · exact ⟨(h b hb).1, (h b hb).2.trans hhi⟩
  · exact ⟨hlo.trans (h' b hb).1, (h' b hb).2⟩

/-- The buffers hold the parts, in what the arena gave since `s`. -/
structure Laid (s s' : System) (parts : Parts) (bufs : List Buffer) : Prop where
  driver : s'.driver = { s.driver with arena := s.driver.arena + (parts.map partRoom).sum }
  length : bufs.length = parts.length
  readable : ∀ b ∈ bufs, b.deviceWritable = false
  placed : PlacedIn s.driver.arena s'.driver.arena bufs
  contents : contents s'.mem (bufs.map Buffer.ref) = parts.flatten
  short : buffersLen bufs ≤ (parts.map partRoom).sum
  frame : ∀ i < s.driver.arena, s'.mem.buf[i]? = s.mem.buf[i]?

namespace Laid

theorem arena_eq {parts : Parts} {bufs : List Buffer} (h : Laid s s' parts bufs) :
    s'.driver.arena = s.driver.arena + (parts.map partRoom).sum := by rw [h.driver]

/-- A part in front of others. -/
theorem cons {part : List UInt8} {parts : Parts} {bufs : List Buffer} {b : Buffer}
    (haddr : b.addr.toNat = s.driver.arena) (hlen : b.len.toNat = part.length)
    (hread : b.deviceWritable = false) (haligned : s.driver.arena % 8 = 0)
    (hfit : s.driver.arena + part.length ≤ s.mem.len)
    (h : Laid (s.withDriver (s.driver.reserved part.length, s.mem.put s.driver.arena part)) s'
      parts bufs) : Laid s s' (part :: parts) (b :: bufs) := by
  have harena : (s.driver.reserved part.length).arena = s.driver.arena + partRoom part :=
    arena_reserved haligned _
  have hroom : part.length ≤ partRoom part := le_alignUp (by decide)
  have hend : s'.driver.arena = (s.driver.reserved part.length).arena + (parts.map partRoom).sum :=
    h.arena_eq
  have hplaced : PlacedIn (s.driver.reserved part.length).arena s'.driver.arena bufs := h.placed
  -- the other parts are laid behind this one
  have hframe : ∀ i < s.driver.arena + partRoom part,
      s'.mem.buf[i]? = (s.mem.put s.driver.arena part).buf[i]? := fun i hi =>
    h.frame i (show i < (s.driver.reserved part.length).arena by rw [harena]; exact hi)
  have hself : PlacedIn s.driver.arena (s.driver.reserved part.length).arena [b] := by
    intro b' hb'
    rw [List.mem_singleton.mp hb', haddr, hlen, harena]
    omega
  exact
    { driver := by
        rw [h.driver, List.map_cons, List.sum_cons, ← Nat.add_assoc, ← harena]
        rfl
      length := congrArg (· + 1) h.length
      readable := by
        intro b' hb'
        rcases List.mem_cons.mp hb' with rfl | hb'
        · exact hread
        · exact h.readable b' hb'
      placed := hself.append hplaced (by omega) (by omega)
      contents := by
        have hsame : SharedMem.SameOn s'.mem (s.mem.put s.driver.arena part) s.driver.arena
            (s.driver.arena + part.length) := fun i _ hi => hframe i (by omega)
        rw [List.map_cons, contents_cons, h.contents, List.flatten_cons, Buffer.ref]
        show s'.mem.bytes b.addr.toNat b.len.toNat ++ _ = _
        rw [haddr, hlen, hsame.bytes_eq, SharedMem.bytes_put_self _ hfit]
      short := by
        rw [buffersLen, List.map_cons, List.sum_cons, ← buffersLen, hlen, List.map_cons,
          List.sum_cons]
        exact Nat.add_le_add hroom h.short
      frame := by
        intro i hi
        rw [hframe i (by omega), SharedMem.put_getElem? _ (.inl hi)] }

end Laid

namespace Filling

/-- Reserving bytes, -/
theorem reserved (h : Filling l arenaEnd s q) (n : ℕ) :
    Filling l arenaEnd (s.withDriver (s.driver.reserved n, s.mem)) q := by
  have hle : s.driver.arena ≤ (s.driver.reserved n).arena :=
    (Nat.le_add_right _ n).trans (Driver.le_arena_reserved n)
  have hrep : Represents l { s with driver := s.driver.reserved n } (q.map Call.head replyLen) :=
    { h.carries.represents with arena := h.carries.represents.arena.trans hle }
  exact
    { carries := h.carries.keep hrep rfl rfl (fun _ _ _ => rfl) fun _ _ _ _ _ _ => rfl
      within := h.within.reserved n rfl
      below := fun c hc b hb => (h.below c hc b hb).trans hle
      aligned := aligned_reserved _ _
      short := h.short }

/-- and writing to them. -/
theorem reserve (h : Filling l arenaEnd s q) (n : ℕ) (data : List UInt8) :
    Filling l arenaEnd
      (s.withDriver (s.driver.reserved n, s.mem.put s.driver.arena data)) q := by
  have h' := h.reserved n
  have harena := h.within.le_arena
  have hlay := l.bounds
  refine { h' with carries := ?_, within := h.within.reserved n (SharedMem.len_put _ _ _) }
  refine h'.carries.put (h'.carries.represents.put (.inr harena)) rfl rfl
    (.inl (le_trans (by omega) harena)) fun c hc b hb i hi => .inl ?_
  exact hi.2.trans_le (h.below c hc b hb)

/-- The parts of a request go to the arena, one behind the other. -/
theorem place (h : Filling l arenaEnd s q) (parts : Parts)
    (hroom : s.driver.arena + (parts.map partRoom).sum ≤ arenaEnd) :
    ∃ bufs s', System.place parts s = some (bufs, s') ∧ Filling l arenaEnd s' q ∧
      Laid s s' parts bufs := by
  induction parts generalizing s with
  | nil => exact ⟨[], s, rfl, h, rfl, rfl, nofun, nofun, rfl, le_rfl, fun _ _ => rfl⟩
  | cons part parts ih =>
      rw [List.map_cons, List.sum_cons] at hroom
      have hend : arenaEnd ≤ s.mem.len := h.within.arenaEnd_le
      have hshort := h.short
      have hfit : part.length ≤ partRoom part := le_alignUp (by decide)
      have harena : (s.driver.reserved part.length).arena = s.driver.arena + partRoom part :=
        arena_reserved h.aligned _
      -- the region is at most 4 GiB, so the cast keeps the length of a part
      have hmod : part.length % 2 ^ 32 = part.length := by
        have hlay := l.bounds
        have hqs := l.qs_pos
        have hbase : l.endAddr ≤ s.driver.arena := h.within.le_arena
        exact Nat.mod_eq_of_lt (by omega)
      have halloc := Driver.alloc_eq h.within part
      rw [hmod, if_pos (by omega), if_pos (by omega)] at halloc
      -- what this part leaves of the arena is enough for the others
      obtain ⟨bufs, s', hplace, h', hlaid⟩ := ih (h.reserve part.length part)
        (by show (s.driver.reserved part.length).arena + _ ≤ _; rw [harena]; omega)
      refine ⟨⟨UInt64.ofNat s.driver.arena, UInt32.ofNat part.length, false⟩ :: bufs, s', ?_, h',
        hlaid.cons (UInt64.toNat_ofNat_of_lt' (show s.driver.arena < 2 ^ 64 by omega)) ?_ rfl
          h.aligned (by omega)⟩
      · rw [System.place, System.bind_some (System.onDriver_ok halloc)]
        show (System.place parts >>= _) _ = _
        rw [System.bind_some hplace]
        rfl
      · rw [UInt32.toNat_ofNat', hmod]

end Filling

/-- A call that asks a request and has room for 64 bytes of reply. -/
def Asks (parts : Parts) (c : Call) : Prop :=
  c.request = parts.flatten ∧
    ∃ bufs addr, c.buffers = bufs ++ [⟨addr, 64, true⟩] ∧ ∀ b ∈ bufs, b.deviceWritable = false

theorem readableFirst_of_readable {bufs : List Buffer} (h : ∀ b ∈ bufs, b.deviceWritable = false)
    (last : Buffer) : readableFirst (bufs ++ [last]) = true := by
  induction bufs with
  | nil => rfl
  | cons b bufs ih =>
      have hb := h b List.mem_cons_self
      have hrest := ih fun b' hb' => h b' (List.mem_cons_of_mem _ hb')
      cases bufs with
      | nil => simp [readableFirst, hb]
      | cons c bufs =>
          show ((!b.deviceWritable || c.deviceWritable) && readableFirst (c :: bufs ++ [last])) = _
          rw [hb, hrest]
          rfl

section Chains

variable {bufs : List Buffer} {addr : UInt64}

theorem writableBuffers_reply (h : ∀ b ∈ bufs, b.deviceWritable = false) :
    writableBuffers (bufs ++ [⟨addr, 64, true⟩]) = [(addr, 64)] := by
  have hnone : bufs.filter (fun b => b.deviceWritable) = [] :=
    List.filter_eq_nil_iff.mpr fun b hb hw => by rw [h b hb] at hw; cases hw
  rw [writableBuffers, List.filter_append, hnone]
  rfl

theorem readableBuffers_reply (h : ∀ b ∈ bufs, b.deviceWritable = false) :
    readableBuffers (bufs ++ [⟨addr, 64, true⟩]) = bufs.map Buffer.ref := by
  have hall : bufs.filter (fun b => !b.deviceWritable) = bufs :=
    List.filter_eq_self.mpr fun b hb => by rw [h b hb]; rfl
  rw [readableBuffers, List.filter_append, hall]
  exact congrArg _ (List.append_nil _)

end Chains

namespace Filling

/-- A chain whose buffers lie behind all others is published. -/
theorem publish (h : Filling l arenaEnd s q) {bufs : List Buffer} {lo : ℕ}
    (hbelow : ∀ c ∈ q.underWay, ∀ b ∈ c.buffers, b.addr.toNat + b.len.toNat ≤ lo)
    (hlo : l.endAddr ≤ lo) (hplaced : PlacedIn lo s.driver.arena bufs)
    (harena : s.driver.arena ≤ s.mem.len) (hne : bufs ≠ []) (hord : readableFirst bufs = true)
    (hshort : buffersLen bufs < 2 ^ 32) (hapart : (writableBuffers bufs).Pairwise BufferRef.Apart)
    (hroom : bufs.length ≤ s.driver.freeDescs.length) :
    ∃ head s', System.onDriver (Driver.addChain bufs) s = some (head, s') ∧
      Filling l arenaEnd s' { q with requests :=
        q.requests ++ [⟨head, bufs, contents s.mem (readableBuffers bufs)⟩] } ∧
      s'.driver.arena = s.driver.arena ∧
      s'.driver.freeDescs.length + bufs.length = s.driver.freeDescs.length := by
  have hadm : (Op.addChain bufs).Admissible l :=
    ⟨hne, hord, fun b hb => .inr (hlo.trans (hplaced b hb).1)⟩
  obtain ⟨head, rest, free, hfree, hpopped, hadd, hcarries⟩ := h.carries.addChain hadm
    (fun b hb => (hplaced b hb).2.trans harena) hshort hapart
    -- whatever is under way ends below `lo`, and the new buffers begin there
    (fun c hc b hb b' hb' _ i hi hi' =>
      absurd (hi.2.trans_le (hbelow c hc b hb)) (not_lt.mpr ((hplaced b' hb').1.trans hi'.1)))
    hroom
  refine ⟨head, _, System.onDriver_ok hadd, ⟨hcarries, ?_, ?_, h.aligned, h.short⟩, rfl, ?_⟩
  · exact
      { le_arena := h.within.le_arena
        arenaEnd_eq := h.within.arenaEnd_eq
        arenaEnd_le := by
          show _ ≤ (Driver.putChain l s.mem _ head _).len
          rw [Driver.len_putChain]
          exact h.within.arenaEnd_le }
  · -- the new call lies below the arena too
    intro c hc b hb
    show _ ≤ s.driver.arena
    rw [Relay.underWay, ← List.append_assoc, List.mem_append, List.mem_singleton] at hc
    rcases hc with hc | rfl
    · exact h.below c hc b hb
    · exact (hplaced b hb).2
  · show free.length + bufs.length = _
    rw [hfree, List.length_append, List.length_reverse, hpopped]

/-- A request that fits is published. -/
theorem request (h : Filling l arenaEnd s q) (parts : Parts)
    (hroom : s.driver.arena + requestRoom parts ≤ arenaEnd)
    (hdescs : parts.length + 1 ≤ s.driver.freeDescs.length) :
    ∃ c s', System.request parts s = some (c.head, s') ∧ Asks parts c ∧
      Filling l arenaEnd s' { q with requests := q.requests ++ [c] } ∧
      s'.driver.arena = s.driver.arena + requestRoom parts ∧
      s'.driver.freeDescs.length + (parts.length + 1) = s.driver.freeDescs.length := by
  rw [requestRoom, ← Nat.add_assoc] at hroom
  obtain ⟨bufs, s₁, hplace, h₁, hlaid⟩ := h.place parts (by omega)
  have harena₁ := hlaid.arena_eq
  have hfree₁ : s₁.driver.freeDescs = s.driver.freeDescs := by rw [hlaid.driver]
  have hsize : (64 : UInt32).toNat = 64 := rfl
  have hreserve := Driver.allocUninit_eq h₁.within 64
  rw [hsize, if_pos (by omega)] at hreserve
  have harena₂ : (s₁.driver.reserved 64).arena = s₁.driver.arena + 64 :=
    arena_reserved h₁.aligned 64
  have hshort := h.short
  have hend : arenaEnd ≤ s₁.mem.len := h₁.within.arenaEnd_le
  -- the reply buffer comes right after the parts
  set reply : Buffer := ⟨UInt64.ofNat s₁.driver.arena, 64, true⟩ with hreply
  have hplaced : PlacedIn s₁.driver.arena (s₁.driver.reserved 64).arena [reply] := by
    intro b hb
    rw [List.mem_singleton.mp hb, harena₂]
    show _ ≤ (UInt64.ofNat _).toNat ∧ (UInt64.ofNat _).toNat + (64 : UInt32).toNat ≤ _
    rw [UInt64.toNat_ofNat_of_lt' (show s₁.driver.arena < 2 ^ 64 by omega), hsize]
    omega
  have hbufs : PlacedIn s.driver.arena (s₁.driver.reserved 64).arena (bufs ++ [reply]) :=
    hlaid.placed.append hplaced (by omega) (by omega)
  have hlen : (bufs ++ [reply]).length = parts.length + 1 := by
    rw [List.length_append, List.length_singleton, hlaid.length]
  -- with it the chain is still short enough to be walked
  have htotal : buffersLen (bufs ++ [reply]) = buffersLen bufs + 64 := by
    rw [buffersLen, List.map_append, List.sum_append, ← buffersLen]
    rfl
  have hlaidShort := hlaid.short
  have hbase : l.endAddr ≤ s.driver.arena := h.within.le_arena
  have hlay := l.bounds
  have hqs := l.qs_pos
  obtain ⟨head, s₃, hadd, h₃, harena₃, hfree₃⟩ := (h₁.reserved 64).publish h.below hbase
    hbufs (show (s₁.driver.reserved 64).arena ≤ s₁.mem.len by omega)
    (List.append_ne_nil_of_right_ne_nil _ (List.cons_ne_nil _ _))
    (readableFirst_of_readable hlaid.readable reply) (by omega)
    (by rw [writableBuffers_reply hlaid.readable]; exact List.pairwise_singleton _ _)
    (by rw [hlen]; exact hfree₁ ▸ hdescs)
  rw [readableBuffers_reply hlaid.readable] at h₃
  refine ⟨_, s₃, ?_, ⟨hlaid.contents, bufs, _, rfl, hlaid.readable⟩, h₃, ?_, ?_⟩
  · rw [System.request, System.bind_some hplace, System.bind_some (System.onDriver_ok hreserve)]
    exact hadd
  · rw [harena₃, requestRoom, ← Nat.add_assoc, ← harena₁]
    exact harena₂
  · rw [hlen] at hfree₃
    rw [hfree₃, ← hfree₁]
    rfl

/-- All requests of a list that fits are published. -/
theorem requests (h : Filling l arenaEnd s q) (reqs : List Parts)
    (hroom : s.driver.arena + (reqs.map requestRoom).sum ≤ arenaEnd)
    (hdescs : (reqs.map fun parts => parts.length + 1).sum ≤ s.driver.freeDescs.length) :
    ∃ heads cs s', System.requests reqs s = some (heads, s') ∧ List.Forall₂ Asks reqs cs ∧
      Filling l arenaEnd s' { q with requests := q.requests ++ cs } := by
  induction reqs generalizing s q with
  | nil =>
      refine ⟨[], [], s, rfl, .nil, ?_⟩
      rw [List.append_nil]
      exact h
  | cons parts reqs ih =>
      rw [List.map_cons, List.sum_cons] at hroom hdescs
      obtain ⟨c, s₁, hrequest, hasks, h₁, harena, hfree⟩ := h.request parts (by omega) (by omega)
      obtain ⟨heads, cs, s', hrest, hall, h'⟩ := ih h₁ (by omega) (by omega)
      rw [List.append_assoc] at h'
      refine ⟨c.head :: heads, c :: cs, s', ?_, .cons hasks hall, h'⟩
      rw [System.requests, System.bind_some hrequest, System.bind_some hrest]
      rfl

end Filling

/-! ### Reading the replies -/

/-- A closure without a state answers each call alone. -/
theorem replies_eq_map (f : List UInt8 → List UInt8) (cs : List Call) :
    replies (fun w r => (f r, w)) () cs = cs.map fun c => (c, c.reply f) := by
  induction cs with
  | nil => rfl
  | cons c cs ih => rw [replies, ih, List.map_cons]

theorem Asks.reply_eq {parts : Parts} {c : Call} (h : Asks parts c) :
    c.reply (List.map upper) = (parts.flatten.map upper).take 64 := by
  obtain ⟨hrequest, bufs, addr, hbufs, hread⟩ := h
  rw [Call.reply, Call.capacity, hbufs, writableBuffers_reply hread, hrequest]
  rfl

theorem exists_asked {reqs : List Parts} {cs : List Call} (h : List.Forall₂ Asks reqs cs)
    {c : Call} (hc : c ∈ cs) : ∃ parts, Asks parts c := by
  induction h with
  | nil => cases hc
  | cons hasks _ ih =>
      rcases List.mem_cons.mp hc with rfl | hc
      · exact ⟨_, hasks⟩
      · exact ih hc

/-- The first writable descriptor of such a chain is its reply buffer. -/
theorem Asks.find_eq {parts : Parts} {c : Call} (h : Asks parts c) {ds : List Descriptor}
    (hdesc : Describes ds c.buffers) :
    ∃ d, ds.find? Descriptor.isWriteOnly = some d ∧ writableBuffers c.buffers = [(d.addr, d.len)] ∧
      d.len = 64 := by
  obtain ⟨-, bufs, addr, hbufs, hread⟩ := h
  have hwritable := hdesc.writableOf_eq
  rw [hbufs, writableBuffers_reply hread] at hwritable
  obtain ⟨d, hfilter, hd⟩ := List.map_eq_singleton_iff.mp hwritable
  refine ⟨d, ?_, ?_, (Prod.ext_iff.mp hd).2⟩
  · rw [← List.head?_filter, hfilter]
    rfl
  · rw [hbufs, writableBuffers_reply hread, hd]

/-- A completed call is read back as the reply it got. -/
theorem readReply_eq {parts : Parts} {c : Call} {r : List UInt8} (hasks : Asks parts c)
    (hplaced : c.Placed l s) (hcov : l.Covered s.mem) (hlen : r.length ≤ 64)
    (hready : (contents s.mem (writableBuffers c.buffers)).take r.length = r)
    (hdev : s'.device.layout = l) (hmem : s'.mem = s.mem) :
    System.readReply c.head (replyLen r) s' = some (r, s') := by
  obtain ⟨ds, hcollect, hdesc⟩ := hplaced.collect hcov
  obtain ⟨d, hfind, hbufs, hsize⟩ := hasks.find_eq hdesc
  -- the only writable descriptor is that of the reply buffer
  obtain ⟨b, hb, hwrite, href⟩ := mem_writableBuffers.mp (hbufs ▸ List.mem_singleton_self _)
  have hinside := hplaced.inside b hb
  obtain ⟨haddr, hblen⟩ := Prod.ext_iff.mp href
  have hin : d.addr.toNat + 64 ≤ s.mem.len := by
    rw [show b.addr = d.addr from haddr, show b.len = d.len from hblen, hsize] at hinside
    exact hinside
  have hreplyLen : (replyLen r).toNat = r.length := by
    rw [replyLen, UInt32.toNat_ofNat', Nat.mod_eq_of_lt (by omega)]
  -- which begins with the reply
  have hbytes : s.mem.bytes d.addr.toNat r.length = r := by
    rw [hbufs, contents_cons, contents_nil, List.append_nil, hsize] at hready
    rw [SharedMem.bytes, slice, ← min_eq_left hlen, ← List.take_take]
    exact hready
  have hslice : s'.mem.readSlice d.addr.toNat (replyLen r).toNat = .ok r := by
    rw [hmem, s.mem.readSlice_eq, hreplyLen, if_pos (by omega), hbytes]
  simp only [System.readReply, hdev, hmem, hcollect, hfind]
  rw [← hmem, hslice]

/-- The comparison, when every reply can be read: it finds the requests that were too
long for their reply buffers. -/
theorem check_eq {reqs : List Parts} {cs : List Call} (hasks : List.Forall₂ Asks reqs cs)
    (hread : ∀ c ∈ cs, System.readReply c.head (replyLen (c.reply (List.map upper))) s =
      some (c.reply (List.map upper), s)) :
    System.check (cs.map fun c => (c.head, replyLen (c.reply (List.map upper)))) reqs s =
      some (decide (∀ parts ∈ reqs, parts.flatten.length ≤ 64), s) := by
  induction hasks with
  | nil => rfl
  | @cons parts c reqs cs hc _ ih =>
      have hrest := ih fun c' hc' => hread c' (List.mem_cons_of_mem _ hc')
      have hsame : (c.reply (List.map upper) == parts.flatten.map upper) =
          decide (parts.flatten.length ≤ 64) := by
        rw [hc.reply_eq, Bool.eq_iff_iff, beq_iff_eq, decide_eq_true_eq, List.take_eq_self_iff,
          List.length_map]
      rw [List.map_cons, System.check, System.bind_some (hread c List.mem_cons_self),
        System.bind_some hrest, hsame]
      refine congrArg (fun b => some (b, s)) ?_
      rw [Bool.eq_iff_iff, Bool.and_eq_true, decide_eq_true_eq, decide_eq_true_eq,
        decide_eq_true_eq, List.forall_mem_cons]

/-! ### The demo -/

namespace Carries

/-- Asking whether to kick moves nothing. -/
theorem onDriver_needsKick (h : Carries l s q) :
    ∃ b s', System.onDriver Driver.needsKick s = some (b, s') ∧ Carries l s' q :=
  ⟨_, _, System.onDriver_ok (Driver.needsKick_ok h.represents.driverCovered),
    h.keep { h.represents with } rfl rfl (fun _ _ _ => rfl) fun _ _ _ _ _ _ => rfl⟩

theorem onDevice_needsNotification (h : Carries l s q) :
    ∃ b s', System.onDevice Device.needsNotification s = some (b, s') ∧ Carries l s' q :=
  ⟨_, _, System.onDevice_ok (Device.needsNotification_ok h.represents.deviceCovered),
    h.keep { h.represents with } rfl rfl (fun _ _ _ => rfl) fun _ _ _ _ _ _ => rfl⟩

end Carries

/-- Every request is answered, nothing is refused, all descriptors are free again,
and the replies are right if and only if no request was too long. -/
theorem System.demoRun_eq {reqs : List Parts} {fuel : ℕ} (h : Filling l arenaEnd s {})
    (hroom : s.driver.arena + (reqs.map requestRoom).sum ≤ arenaEnd)
    (hdescs : (reqs.map fun parts => parts.length + 1).sum ≤ l.qs) (hfuel : l.qs < fuel) :
    ∃ stats s', System.demoRun fuel reqs s =
        some ((stats, decide (∀ parts ∈ reqs, parts.flatten.length ≤ 64)), s') ∧
      stats.rejected = [] ∧ s'.driver.layout = l ∧ s'.driver.freeDescs.Perm l.indices := by
  have hfree : s.driver.freeDescs.length = l.qs := by
    rw [(h.carries.represents.freeDescs_perm rfl rfl).length_eq, VirtqLayout.length_indices]
  obtain ⟨heads, cs, s₁, hrequests, hasks, h₁⟩ := h.requests reqs hroom (hfree ▸ hdescs)
  rw [List.nil_append] at h₁
  obtain ⟨kick, s₂, hkick, h₂⟩ := h₁.carries.onDriver_needsKick
  obtain ⟨s₃, hprocess, -, h₃⟩ := h₂.process (fun w r => (r.map upper, w)) ()
    (lt_of_le_of_lt h₂.length_requests_le hfuel)
  -- one pass answers all of them and refuses none
  obtain ⟨stats, hprocess, hrejected⟩ :
      ∃ stats, System.process fuel (fun w r => (r.map upper, w)) () s₂ = some (stats, s₃) ∧
        stats.rejected = [] := ⟨_, hprocess, ProcessStats.rejected_answeredAll⟩
  rw [List.nil_append, replies_eq_map] at h₃
  obtain ⟨interrupt, s₄, hnotify, h₄⟩ := h₃.onDevice_needsNotification
  obtain ⟨d, hcollect, h₅⟩ := h₄.collect
  have hcompletions : ((cs.map fun c => (c, c.reply (List.map upper))).map
      (Prod.map Call.head replyLen)) =
        cs.map fun c => (c.head, replyLen (c.reply (List.map upper))) := List.map_map
  rw [hcompletions] at hcollect
  -- every reply is read out of the buffer it was written to
  have hread : ∀ c ∈ cs, System.readReply c.head (replyLen (c.reply (List.map upper)))
      (s₄.withDriver (d, s₄.mem)) =
        some (c.reply (List.map upper), s₄.withDriver (d, s₄.mem)) := by
    intro c hc
    obtain ⟨parts, hcall⟩ := exists_asked hasks hc
    have hanswer : (c, c.reply (List.map upper)) ∈
        cs.map fun c => (c, c.reply (List.map upper)) := List.mem_map_of_mem hc
    have hplaced := h₄.placed c (Carries.mem_underWay_of_answer (a := (c, _)) hanswer)
    refine readReply_eq hcall hplaced h₄.covered ?_ (h₄.ready _ hanswer)
      h₄.represents.deviceLayout rfl
    rw [hcall.reply_eq, List.length_take]
    exact min_le_left _ _
  have hcheck := check_eq hasks hread
  refine ⟨stats, s₄.withDriver (d, s₄.mem), ?_, hrejected, h₅.represents.driverLayout,
    h₅.represents.freeDescs_perm rfl rfl⟩
  rw [System.demoRun, System.bind_some hrequests, System.bind_some hkick,
    System.bind_some hprocess, System.bind_some hnotify,
    System.bind_some (System.onDriver_ok hcollect), System.bind_some hcheck]
  rfl

/-- Only the replies decide the assertions. -/
theorem System.verdict_eq {stats : ProcessStats} {ok : Bool} (hrejected : stats.rejected = [])
    (hlayout : s.driver.layout = l) (hfree : s.driver.freeDescs.length = l.qs) :
    System.verdict s stats ok =
      if ok = true then .ok () else .error "device output did not match" := by
  have hleak : ¬ s.driver.freeDescs.length ≠ s.driver.layout.qs := by
    rw [hfree, hlayout]
    exact not_not.mpr rfl
  have herrors : ¬ stats.errors ≠ 0 := by
    rw [ProcessStats.errors, hrejected]
    exact not_not.mpr rfl
  cases ok with
  | false => rfl
  | true => rw [System.verdict, if_neg (by decide), if_neg hleak, if_neg herrors, if_pos rfl]

variable {m : SharedMem} {reqs : List Parts} {fuel : ℕ}

/-- For every queue, every region that is not larger than 32 bits can say, and every
list of requests with room in the arena and in the table: the demo does not panic, the
device refuses no chain and every descriptor is free again, whatever the requests are;
and the demo succeeds if and only if no request is longer than the reply buffer. -/
theorem demo_succeeds_iff (havail : m.word16 l.availIdx = 0) (hused : m.word16 l.usedIdx = 0)
    (hroom : alignUp l.endAddr 16 + (reqs.map requestRoom).sum ≤ m.len)
    (hshort : m.len ≤ 2 ^ 32)
    (hdescs : (reqs.map fun parts => parts.length + 1).sum ≤ l.qs) (hfuel : l.qs < fuel) :
    ∃ d stats s', Driver.new l m.len true = some d ∧
      System.demoRun fuel reqs (System.init m d true) =
        some ((stats, decide (∀ parts ∈ reqs, parts.flatten.length ≤ 64)), s') ∧
      stats.errors = 0 ∧ s'.driver.freeDescs.Perm ((List.range l.qs).map UInt16.ofNat) ∧
      demo l m fuel reqs = some (if ∀ parts ∈ reqs, parts.flatten.length ≤ 64 then .ok ()
        else .error "device output did not match") := by
  have hup : l.endAddr ≤ alignUp l.endAddr 16 := le_alignUp (by decide)
  have hcov : l.Covered m := by
    show l.endAddr ≤ m.len
    omega
  obtain ⟨d, hnew, harena⟩ := @Driver.exists_new l m.len (by omega) m.len_lt true
  -- nothing is under way at first, so the arena may begin anywhere behind the queue
  have hfilling : Filling l m.len (System.init m d true) {} :=
    { carries := carries_init hnew hcov havail hused
      within := Driver.within_of_new hnew le_rfl
      below := nofun
      aligned := by
        show d.arena % 8 = 0
        rw [harena, alignUp]
        omega
      short := hshort }
  have hroom' : (System.init m d true).driver.arena + (reqs.map requestRoom).sum ≤ m.len := by
    show d.arena + _ ≤ _
    rw [harena]
    exact hroom
  obtain ⟨stats, s', hrun, hrejected, hlayout, hfree⟩ :=
    System.demoRun_eq hfilling hroom' hdescs hfuel
  refine ⟨d, stats, s', hnew, hrun, congrArg List.length hrejected, hfree, ?_⟩
  -- of the three assertions only the first can fail
  have hverdict := @System.verdict_eq l s' stats
    (decide (∀ parts ∈ reqs, parts.flatten.length ≤ 64)) hrejected hlayout
    (by rw [hfree.length_eq, VirtqLayout.length_indices])
  simp only [decide_eq_true_eq] at hverdict
  rw [demo, hnew]
  show (System.demo fuel reqs (System.init m d true) >>= _) = _
  rw [System.demo, System.bind_some hrun]
  exact congrArg some hverdict

set_option maxRecDepth 2000 in
/-- One letter succeeds, and 65 of them do not fit into the reply; but then too nothing
is refused or lost. -/
theorem demo_succeeds_iff_pairQueue :
    demo pairQueue (SharedMem.new 216 (by decide)) 3 [[[0x68]]] = some (.ok ()) ∧
    ∃ d stats s', Driver.new pairQueue 216 true = some d ∧
      System.demoRun 3 [[List.replicate 65 0x68]]
        (System.init (SharedMem.new 216 (by decide)) d true) = some ((stats, false), s') ∧
      stats.errors = 0 ∧ s'.driver.freeDescs.Perm [0, 1] ∧
      demo pairQueue (SharedMem.new 216 (by decide)) 3 [[List.replicate 65 0x68]] =
        some (.error "device output did not match") := by
  constructor
  · obtain ⟨-, -, -, -, -, -, -, hdemo⟩ :=
      @demo_succeeds_iff pairQueue (SharedMem.new 216 (by decide)) [[[0x68]]] 3
        (by decide) (by decide) (by decide) (by decide) (by decide) (by decide)
    exact hdemo.trans (by decide)
  · obtain ⟨d, stats, s', hnew, hrun, herrors, hfree, hdemo⟩ :=
      @demo_succeeds_iff pairQueue (SharedMem.new 216 (by decide)) [[List.replicate 65 0x68]] 3
        (by decide) (by decide) (by decide) (by decide) (by decide) (by decide)
    exact ⟨d, stats, s', hnew, hrun, herrors, hfree, hdemo.trans (by decide)⟩

end SystemsStudy
