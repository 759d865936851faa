/-
SystemsStudy/Process.lean

`Device::process`: draining the avail ring.

The function is cut where the source has its loop.  `Process.step` is one
iteration of `while let Some(head) = self.pop_chain_head(mem)?`, and
`Process.loop` repeats it at most `fuel` times.  The work closure is an
arbitrary `Work ω`: it may keep state of type `ω` between calls.

An iteration first collects the chain and then acts on it.  `gather`
concatenates the readable buffers, `scatter` writes the response over the
writable ones; both report the buffers that are not inside the region.
-/
import SystemsStudy.Device

namespace SystemsStudy

open Bytes Fallible

/-! ### The model -/

/-- Why the device refused part of a chain. -/
inductive RejectReason where
  /-- The chain itself was malformed. -/
  | chain (e : ChainError)
  /-- One of its buffers was not inside the shared region. -/
  | buffer (e : MemError)
  deriving DecidableEq, Repr

/-- Counters for a processing pass. -/
structure ProcessStats where
  chains : UInt64 := 0
  descriptors : UInt64 := 0
  bytesRead : UInt64 := 0
  bytesWritten : UInt64 := 0
  /-- The head index and the reason of what the device refused. -/
  rejected : List (UInt16 × RejectReason) := []
  deriving DecidableEq

/-- Record why the chain at `head` was refused, one entry for each reason. -/
def ProcessStats.reject (s : ProcessStats) (head : UInt16) (reasons : List RejectReason) :
    ProcessStats :=
  { s with rejected := s.rejected ++ reasons.map fun r => (head, r) }

/-- A work closure with state `ω`: from the request to the response. -/
abbrev Work (ω : Type) := ω → List UInt8 → List UInt8 × ω

/-- What the loop of `Device::process` changes besides the region. -/
structure Process (ω : Type) where
  dev : Device
  stats : ProcessStats
  work : ω

/-- A part of the loop of `Device::process`. -/
abbrev ProcessM (ω α : Type) := Half (Process ω) MemError α

/-- A buffer as a descriptor names it. -/
abbrev BufferRef := UInt64 × UInt32

/-- The device-readable buffers of a chain, in order. -/
def readableOf (ds : List Descriptor) : List BufferRef :=
  (ds.filter fun d => !d.isWriteOnly).map fun d => (d.addr, d.len)

/-- The device-writable buffers of a chain, in order. -/
def writableOf (ds : List Descriptor) : List BufferRef :=
  (ds.filter fun d => d.isWriteOnly).map fun d => (d.addr, d.len)

/-- Gather the request: the contents of the buffers that can be read, and one
error for each that cannot. -/
def gather (mem : SharedMem) : List BufferRef → List UInt8 × List MemError
  | [] => ([], [])
  | (addr, len) :: rest =>
      let r := gather mem rest
      match mem.readSlice addr.toNat len.toNat with
      | .ok s => (s ++ r.1, r.2)
      | .error e => (r.1, e :: r.2)

/-- Scatter the response across the writable buffers, in order, stopping when
either runs out or a buffer cannot be written.  Returns the region, the number
of bytes written and the error that ended the loop, if one did. -/
def scatter (response : List UInt8) : List BufferRef → SharedMem → ℕ → UInt32 →
    Except (Fault MemError) (SharedMem × UInt32 × Option MemError)
  | [], mem, _, written => .ok (mem, written, none)
  | (addr, len) :: rest, mem, cursor, written =>
      if cursor ≥ response.length then .ok (mem, written, none)
      else
        let n := min len.toNat (response.length - cursor)
        -- indexing `response[cursor..cursor + n]`
        if cursor + n > response.length then .error .panic
        else match mem.writeSlice addr.toNat (slice response cursor n) with
        | .error e => .ok (mem, written, some e)
        | .ok mem =>
          match checkedAddU32 written (UInt32.ofNat n) with
          | none => .error .panic
          | some written => scatter response rest mem (cursor + n) written

namespace Process

open Half

variable {ω α : Type}

/-- A method of the device, within the loop. -/
def onDevice (x : DeviceM α) : ProcessM ω α :=
  zoom (fun s => (s.1.dev, s.2)) (fun s t => ({ t.1 with dev := s.1 }, s.2)) x

/-- Assign to the statistics. -/
def modifyStats (f : ProcessStats → ProcessStats) : ProcessM ω Unit :=
  modifySelf fun p => { p with stats := f p.stats }

/-- The region, as it is now. -/
def region : ProcessM ω SharedMem := fun s => .ok s.2 s

/-- The region is this from now on. -/
def setRegion (m : SharedMem) : ProcessM ω Unit := fun s => .ok () (s.1, m)

/-- A result with `?`: go on with the value, or fail with the error. -/
def lift (x : Except (Fault MemError) α) : ProcessM ω α := fun s =>
  match x with
  | .ok a => .ok a s
  | .error e => .error e s

/-- Call the work closure, which keeps its state. -/
def callWork (work : Work ω) (request : List UInt8) : ProcessM ω (List UInt8) := fun s =>
  let r := work s.1.work request
  .ok r.1 ({ s.1 with work := r.2 }, s.2)

/-- Serve the chain at `head`; returns the length it was completed with. -/
def serve (work : Work ω) (head : UInt16) : ProcessM ω UInt32 := do
  let p ← self
  let mem ← region
  let (ds, chainError) ← lift ((p.dev.chain mem head).collect (p.dev.layout.qs + 1))
  modifyStats fun s => { s with descriptors := s.descriptors + UInt64.ofNat ds.length }
  match chainError with
  | some e =>
      modifyStats (·.reject head [.chain e])
      -- still complete it, with zero bytes written
      onDevice (Device.addUsed head 0)
      modifyStats fun s => { s with chains := s.chains + 1 }
      return 0
  | none =>
      let (request, unreadable) := gather mem (readableOf ds)
      modifyStats (·.reject head (unreadable.map .buffer))
      modifyStats fun s => { s with bytesRead := s.bytesRead + UInt64.ofNat request.length }
      let response ← callWork work request
      let (mem, written, unwritable) ← lift (scatter response (writableOf ds) mem 0 0)
      setRegion mem
      modifyStats (·.reject head (unwritable.toList.map .buffer))
      modifyStats fun s => { s with bytesWritten := s.bytesWritten + written.toUInt64 }
      onDevice (Device.addUsed head written)
      modifyStats fun s => { s with chains := s.chains + 1 }
      return written

/-- One iteration of the loop: the completion it published, or `none` when
nothing was available. -/
def step (work : Work ω) : ProcessM ω (Option (UInt16 × UInt32)) := do
  match ← onDevice Device.popChainHead with
  | none => return none
  | some head =>
      let len ← serve work head
      return some (head, len)

/-- The loop, for at most `fuel` iterations. -/
def loop (work : Work ω) : ℕ → ProcessM ω Unit
  | 0 => throw .fuel
  | fuel + 1 => do
      match ← step work with
      | none => return ()
      | some _ => loop work fuel

end Process

/-- Drain every available chain, applying `work` to each. -/
def Device.process {ω : Type} (fuel : ℕ) (work : Work ω) (w : ω) (d : Device)
    (mem : SharedMem) : EStateM.Result (Fault MemError) (Process ω × SharedMem) ProcessStats :=
  (do Process.loop work fuel
      let p ← Half.self
      return p.stats : ProcessM ω ProcessStats) ({ dev := d, stats := {}, work := w }, mem)

/-! ### Scattering -/

/-- Total length of a list of buffers. -/
def refsLen (ws : List BufferRef) : ℕ := (ws.map fun b => b.2.toNat).sum

/-- The writes the scatter loop attempts from `cursor` on, as address and
length: each buffer gets as much of what is left of the response as fits. -/
def pieces (total : ℕ) : List BufferRef → ℕ → List (ℕ × ℕ)
  | [], _ => []
  | (addr, len) :: rest, cursor =>
      if cursor ≥ total then []
      else
        let n := min len.toNat (total - cursor)
        (addr.toNat, n) :: pieces total rest (cursor + n)

/-- A piece that lies in a region of `len` bytes. -/
def fits (len : ℕ) (p : ℕ × ℕ) : Bool := p.1 + p.2 ≤ len

/-- The pieces the loop writes: those before the first that does not fit. -/
def writtenPieces (len total : ℕ) (ws : List BufferRef) (cursor : ℕ) : List (ℕ × ℕ) :=
  (pieces total ws cursor).takeWhile (fits len)

/-- What the scatter loop does, as long as the counter has room for the
buffers: it does not overflow, it counts the pieces before the first that does
not fit, it reports an error exactly when there is such a piece, and it
changes the region only inside the buffers. -/
structure ScatterSpec (response : List UInt8) (ws : List BufferRef) (m : SharedMem)
    (cursor : ℕ) (written : UInt32) (m' : SharedMem) (written' : UInt32)
    (err : Option MemError) : Prop where
  run : scatter response ws m cursor written = .ok (m', written', err)
  len_eq : m'.len = m.len
  count : written'.toNat = written.toNat +
    ((writtenPieces m.len response.length ws cursor).map Prod.snd).sum
  refused : err.isSome ↔ ∃ p ∈ pieces response.length ws cursor, fits m.len p = false
  frame : ∀ i, (∀ p ∈ writtenPieces m.len response.length ws cursor,
    i < p.1 ∨ p.1 + p.2 ≤ i) → m'.buf[i]? = m.buf[i]?

theorem scatter_spec (response : List UInt8) (ws : List BufferRef) :
    ∀ (m : SharedMem) (cursor : ℕ) (written : UInt32),
      written.toNat + refsLen ws < 2 ^ 32 →
      ∃ m' written' err, ScatterSpec response ws m cursor written m' written' err := by
  induction ws with
  | nil =>
      intro m cursor written _
      exact ⟨m, written, none, rfl, rfl, by simp [writtenPieces, pieces],
        by simp [pieces], fun _ _ => rfl⟩
  | cons b rest ih =>
      obtain ⟨addr, len⟩ := b
      intro m cursor written hsum
      simp only [refsLen, List.map_cons, List.sum_cons] at hsum
      by_cases hfull : cursor ≥ response.length
      · refine ⟨m, written, none, by rw [scatter, if_pos hfull], rfl, ?_, ?_, fun _ _ => rfl⟩
        · simp [writtenPieces, pieces, hfull]
        · simp [pieces, hfull]
      set n := min len.toNat (response.length - cursor) with hn
      have hindex : ¬ cursor + n > response.length := by omega
      have hslice : (slice response cursor n).length = n := length_slice (by omega)
      have hpieces : pieces response.length ((addr, len) :: rest) cursor =
          (addr.toNat, n) :: pieces response.length rest (cursor + n) := by
        rw [pieces, if_neg hfull]
      by_cases hfit : addr.toNat + n ≤ m.len
      · -- the piece fits: the loop goes on over the changed region
        have hcount : written.toNat + n < 2 ^ 32 := by omega
        have hofNat : (UInt32.ofNat n).toNat = n := by
          rw [UInt32.toNat_ofNat', Nat.mod_eq_of_lt (by omega)]
        have hadd : (written + UInt32.ofNat n).toNat = written.toNat + n := by
          rw [UInt32.toNat_add, hofNat, Nat.mod_eq_of_lt hcount]
        obtain ⟨m', written', err, h⟩ := ih (m.put addr.toNat (slice response cursor n))
          (cursor + n) (written + UInt32.ofNat n) (by rw [hadd, refsLen]; omega)
        have hwp : writtenPieces m.len response.length ((addr, len) :: rest) cursor =
            (addr.toNat, n) :: writtenPieces m.len response.length rest (cursor + n) := by
          rw [writtenPieces, hpieces, List.takeWhile_cons_of_pos (by simpa [fits] using hfit)]
          rfl
        refine ⟨m', written', err, ?_, ?_, ?_, ?_, ?_⟩
        · rw [scatter, if_neg hfull]
          simp only [← hn, if_neg hindex, SharedMem.writeSlice_eq, hslice, if_pos hfit]
          rw [checkedAddU32_eq_some.mpr (by rw [hadd, hofNat])]
          exact h.run
        · simpa using h.len_eq
        · rw [h.count, hadd, hwp]
          simp only [SharedMem.len_put, List.map_cons, List.sum_cons]
          omega
        · rw [h.refused, hpieces]
          simp [fits, hfit]
        · intro i hi
          rw [hwp] at hi
          rw [h.frame i fun p hp => hi p (List.mem_cons_of_mem _ (by simpa using hp))]
          exact SharedMem.put_getElem? _ (by simpa [hslice] using hi _ List.mem_cons_self)
      · -- the piece does not fit: the loop ends with its error
        have hnot : fits m.len (addr.toNat, n) = false := by simpa [fits] using hfit
        refine ⟨m, written, some (.outOfBounds addr.toNat n m.len), ?_, rfl, ?_, ?_,
          fun _ _ => rfl⟩
        · rw [scatter, if_neg hfull]
          simp only [← hn, if_neg hindex, SharedMem.writeSlice_eq, hslice, if_neg hfit]
        · simp [writtenPieces, hpieces, hnot]
        · simp [hpieces, hnot]

/-- Every piece starts a buffer and is no longer than it. -/
theorem exists_of_mem_pieces {total : ℕ} {ws : List BufferRef} {cursor : ℕ} {p : ℕ × ℕ}
    (h : p ∈ pieces total ws cursor) :
    ∃ b ∈ ws, p.1 = b.1.toNat ∧ p.2 ≤ b.2.toNat := by
  induction ws generalizing cursor with
  | nil => simp [pieces] at h
  | cons b rest ih =>
      obtain ⟨addr, len⟩ := b
      rw [pieces] at h
      split at h
      · simp at h
      · rcases List.mem_cons.mp h with rfl | h
        · exact ⟨(addr, len), List.mem_cons_self, rfl, Nat.min_le_left _ _⟩
        · obtain ⟨b, hb, h₁, h₂⟩ := ih h
          exact ⟨b, List.mem_cons_of_mem _ hb, h₁, h₂⟩

theorem mem_pieces_of_mem_writtenPieces {len total : ℕ} {ws : List BufferRef} {cursor : ℕ}
    {p : ℕ × ℕ} (h : p ∈ writtenPieces len total ws cursor) : p ∈ pieces total ws cursor :=
  (List.takeWhile_prefix _).subset h

theorem mem_writableOf {ds : List Descriptor} {b : BufferRef} :
    b ∈ writableOf ds ↔ ∃ d ∈ ds, d.isWriteOnly = true ∧ (d.addr, d.len) = b := by
  simp [writableOf, and_assoc]

theorem mem_readableOf {ds : List Descriptor} {b : BufferRef} :
    b ∈ readableOf ds ↔ ∃ d ∈ ds, d.isWriteOnly = false ∧ (d.addr, d.len) = b := by
  simp [readableOf, and_assoc]

theorem refsLen_writableOf_le (ds : List Descriptor) :
    refsLen (writableOf ds) ≤ totalLen ds := by
  induction ds with
  | nil => simp [refsLen, writableOf]
  | cons d ds ih =>
      rw [totalLen_cons]
      rcases h : d.isWriteOnly
      · rw [show writableOf (d :: ds) = writableOf ds by simp [writableOf, h]]
        omega
      · have : refsLen (writableOf (d :: ds)) = d.len.toNat + refsLen (writableOf ds) := by
          simp [writableOf, h, refsLen]
        omega

/-! ### One iteration -/

namespace ProcessStats

/-- The counters after completing a chain whose walk failed with `e`. -/
def refused (s : ProcessStats) (head : UInt16) (ds : List Descriptor) (e : ChainError) :
    ProcessStats :=
  { s with
    descriptors := s.descriptors + UInt64.ofNat ds.length
    rejected := s.rejected ++ [(head, .chain e)]
    chains := s.chains + 1 }

/-- The counters after serving a chain whose walk succeeded. -/
def served (s : ProcessStats) (head : UInt16) (ds : List Descriptor)
    (gathered : List UInt8 × List MemError) (written : UInt32) (unwritable : Option MemError) :
    ProcessStats :=
  { s with
    descriptors := s.descriptors + UInt64.ofNat ds.length
    rejected := s.rejected ++ (gathered.2 ++ unwritable.toList).map fun e => (head, .buffer e)
    bytesRead := s.bytesRead + UInt64.ofNat gathered.1.length
    bytesWritten := s.bytesWritten + written.toUInt64
    chains := s.chains + 1 }

end ProcessStats

namespace Process

open Half

variable {ω : Type} {p : Process ω} {m : SharedMem}

/-- Everything one iteration can do over a region that covers the layout. -/
inductive StepSpec (work : Work ω) (p : Process ω) (m : SharedMem) :
    Option (UInt16 × UInt32) → Process ω → SharedMem → Prop
  /-- nothing is available -/
  | idle : p.dev.pending m = 0 → StepSpec work p m none p m
  /-- the walk failed: the chain is completed with length 0 -/
  | refused {ds e} : p.dev.pending m ≠ 0 →
      (p.dev.chain m (p.dev.nextHead m)).Walks ds (some e) →
      StepSpec work p m (some (p.dev.nextHead m, 0))
        { dev := p.dev.popped.completed
          stats := p.stats.refused (p.dev.nextHead m) ds e
          work := p.work }
        (p.dev.layout.putUsed m p.dev.nextUsed (p.dev.nextHead m) 0)
  /-- the walk succeeded: gather, work, scatter -/
  | served {ds response w m' written err} : p.dev.pending m ≠ 0 →
      (p.dev.chain m (p.dev.nextHead m)).Walks ds none →
      work p.work (gather m (readableOf ds)).1 = (response, w) →
      ScatterSpec response (writableOf ds) m 0 0 m' written err →
      StepSpec work p m (some (p.dev.nextHead m, written))
        { dev := p.dev.popped.completed
          stats := p.stats.served (p.dev.nextHead m) ds (gather m (readableOf ds)) written err
          work := w }
        (p.dev.layout.putUsed m' p.dev.nextUsed (p.dev.nextHead m) written)

theorem onDevice_ok {α : Type} {x : DeviceM α} {d : Device} {stats : ProcessStats} {w : ω}
    {a : α} {d' : Device} {m' : SharedMem} (h : x (d, m) = .ok a (d', m')) :
    onDevice x ({ dev := d, stats, work := w }, m) =
      .ok a ({ dev := d', stats, work := w }, m') := by
  simp only [onDevice, zoom, h]

theorem onDevice_error {α : Type} {x : DeviceM α} {d : Device} {stats : ProcessStats} {w : ω}
    {e : Fault MemError} {d' : Device} {m' : SharedMem} (h : x (d, m) = .error e (d', m')) :
    onDevice x ({ dev := d, stats, work := w }, m) =
      .error e ({ dev := d', stats, work := w }, m') := by
  simp only [onDevice, zoom, h]

theorem lift_ok {α : Type} {x : Except (Fault MemError) α} {a : α}
    (s : Process ω × SharedMem) (h : x = .ok a) : lift x s = .ok a s := by
  simp only [lift, h]

theorem modifyStats_run (f : ProcessStats → ProcessStats) (s : Process ω × SharedMem) :
    modifyStats f s = .ok () ({ s.1 with stats := f s.1.stats }, s.2) := rfl

/-- The walk of any chain ends within the calls the loop makes. -/
theorem walk_ok (d : Device) (m : SharedMem) (head : UInt16) :
    ∃ ds e, (d.chain m head).collect (d.layout.qs + 1) = .ok (ds, e) ∧
      (d.chain m head).Walks ds e :=
  ChainIter.collect_walks (Nat.lt_succ_self _)

/-- The end of an iteration: publish the completion and count the chain. -/
theorem complete_ok {d : Device} (h : d.layout.usedBase d.nextUsed + 8 ≤ m.len)
    (stats : ProcessStats) (work : ω) (head : UInt16) (len : UInt32) :
    (do
      onDevice (Device.addUsed head len)
      modifyStats fun s => { s with chains := s.chains + 1 }
      return len : ProcessM ω UInt32) ({ dev := d, stats, work }, m) = .ok len
      ({ dev := d.completed, stats := { stats with chains := stats.chains + 1 }, work },
        d.layout.putUsed m d.nextUsed head len) := by
  rw [bind_ok (onDevice_ok (Device.addUsed_ok h head len)), bind_ok (modifyStats_run _ _)]
  rfl

theorem serve_refused (work : Work ω) (head : UInt16) {ds : List Descriptor} {e : ChainError}
    (h : p.dev.layout.usedBase p.dev.nextUsed + 8 ≤ m.len)
    (hc : (p.dev.chain m head).collect (p.dev.layout.qs + 1) = .ok (ds, some e)) :
    serve work head (p, m) = .ok 0
      ({ dev := p.dev.completed, stats := p.stats.refused head ds e, work := p.work },
        p.dev.layout.putUsed m p.dev.nextUsed head 0) := by
  unfold serve
  rw [bind_ok (self_run _), bind_ok (show region (p, m) = .ok m (p, m) from rfl),
    bind_ok (lift_ok _ hc)]
  dsimp only
  rw [bind_ok (modifyStats_run _ _), bind_ok (modifyStats_run _ _)]
  exact complete_ok h _ _ head 0

/-- The end of an iteration whose completion has no slot in the region. -/
theorem complete_error {d : Device} (h : m.len < d.layout.usedBase d.nextUsed + 8)
    (stats : ProcessStats) (work : ω) (head : UInt16) (len : UInt32) :
    ∃ e m', (do
      onDevice (Device.addUsed head len)
      modifyStats fun s => { s with chains := s.chains + 1 }
      return len : ProcessM ω UInt32) ({ dev := d, stats, work }, m) =
        .error (.err e) ({ dev := d, stats, work }, m') ∧
      ∀ i, i < d.layout.usedBase d.nextUsed ∨ d.layout.usedBase d.nextUsed + 8 ≤ i →
        m'.buf[i]? = m.buf[i]? := by
  obtain ⟨e, m', he, -, hframe⟩ := Device.addUsed_error h head len
  exact ⟨e, m', bind_error (onDevice_error he), hframe⟩

/-- Up to its completion: the request was gathered and the response scattered. -/
theorem serve_scattered (work : Work ω) (head : UInt16) {ds : List Descriptor}
    {response : List UInt8} {w : ω} {m' : SharedMem} {written : UInt32} {err : Option MemError}
    (hc : (p.dev.chain m head).collect (p.dev.layout.qs + 1) = .ok (ds, none))
    (hwork : work p.work (gather m (readableOf ds)).1 = (response, w))
    (hs : ScatterSpec response (writableOf ds) m 0 0 m' written err) :
    ∃ stats, { stats with chains := stats.chains + 1 } =
        p.stats.served head ds (gather m (readableOf ds)) written err ∧
      serve work head (p, m) = (do
        onDevice (Device.addUsed head written)
        modifyStats fun s => { s with chains := s.chains + 1 }
        return written : ProcessM ω UInt32) ({ dev := p.dev, stats, work := w }, m') := by
  have hcall : ∀ stats, callWork work (gather m (readableOf ds)).1
      ({ p with stats := stats }, m) = .ok response ({ p with stats := stats, work := w }, m) := by
    intro stats
    simp only [callWork, hwork]
  -- the calls of the served branch, in the order of the source
  unfold serve
  rw [bind_ok (self_run _), bind_ok (show region (p, m) = .ok m (p, m) from rfl),
    bind_ok (lift_ok _ hc)]
  dsimp only
  rw [bind_ok (modifyStats_run _ _), bind_ok (modifyStats_run _ _),
    bind_ok (modifyStats_run _ _), bind_ok (hcall _), bind_ok (lift_ok _ hs.run)]
  dsimp only
  rw [bind_ok (show setRegion m' _ = .ok () (_, m') from rfl), bind_ok (modifyStats_run _ _),
    bind_ok (modifyStats_run _ _)]
  refine ⟨_, ?_, rfl⟩
  simp only [ProcessStats.served, ProcessStats.reject, List.map_append, List.map_map,
    List.append_assoc, Function.comp_def]

theorem serve_served (work : Work ω) (head : UInt16) {ds : List Descriptor}
    {response : List UInt8} {w : ω} {m' : SharedMem} {written : UInt32}
    {err : Option MemError} (h : p.dev.layout.usedBase p.dev.nextUsed + 8 ≤ m.len)
    (hc : (p.dev.chain m head).collect (p.dev.layout.qs + 1) = .ok (ds, none))
    (hwork : work p.work (gather m (readableOf ds)).1 = (response, w))
    (hs : ScatterSpec response (writableOf ds) m 0 0 m' written err) :
    serve work head (p, m) = .ok written
      ({ dev := p.dev.completed
         stats := p.stats.served head ds (gather m (readableOf ds)) written err
         work := w },
        p.dev.layout.putUsed m' p.dev.nextUsed head written) := by
  have hslot : p.dev.layout.usedBase p.dev.nextUsed + 8 ≤ m'.len := by
    rw [hs.len_eq]
    exact h
  obtain ⟨stats, hstats, hserve⟩ := serve_scattered work head hc hwork hs
  rw [hserve, ← hstats]
  exact complete_ok hslot stats w head written

/-- Without a slot for the completion the iteration fails, with the response
scattered and nothing published. -/
theorem serve_unpublished (work : Work ω) (head : UInt16) {ds : List Descriptor}
    {response : List UInt8} {w : ω} {m' : SharedMem} {written : UInt32}
    {err : Option MemError} (h : m.len < p.dev.layout.usedBase p.dev.nextUsed + 8)
    (hc : (p.dev.chain m head).collect (p.dev.layout.qs + 1) = .ok (ds, none))
    (hwork : work p.work (gather m (readableOf ds)).1 = (response, w))
    (hs : ScatterSpec response (writableOf ds) m 0 0 m' written err) :
    ∃ e s', serve work head (p, m) = .error (.err e) s' ∧ s'.1.work = w ∧
      ∀ i, i < p.dev.layout.usedBase p.dev.nextUsed ∨
        p.dev.layout.usedBase p.dev.nextUsed + 8 ≤ i → s'.2.buf[i]? = m'.buf[i]? := by
  obtain ⟨stats, -, hserve⟩ := serve_scattered work head hc hwork hs
  obtain ⟨e, m'', he, hframe⟩ := complete_error (by rw [hs.len_eq]; exact h) stats w head written
  exact ⟨e, _, hserve.trans he, rfl, hframe⟩

/-- An iteration that pops a head serves it. -/
theorem step_of_pop {work : Work ω} {head : UInt16} {d : Device} {len : UInt32}
    {t : Process ω × SharedMem} (hpop : Device.popChainHead (p.dev, m) = .ok (some head) (d, m))
    (hserve : serve work head ({ p with dev := d }, m) = .ok len t) :
    step work (p, m) = .ok (some (head, len)) t := by
  unfold step
  rw [bind_ok (onDevice_ok hpop)]
  dsimp only
  rw [bind_ok hserve]
  rfl

/-- An iteration that fails while it serves a head fails. -/
theorem step_of_pop_error {work : Work ω} {head : UInt16} {d : Device} {e : Fault MemError}
    {t : Process ω × SharedMem} (hpop : Device.popChainHead (p.dev, m) = .ok (some head) (d, m))
    (hserve : serve work head ({ p with dev := d }, m) = .error e t) :
    step work (p, m) = .error e t := by
  unfold step
  rw [bind_ok (onDevice_ok hpop)]
  dsimp only
  rw [bind_error hserve]

theorem step_of_serve {work : Work ω} {len : UInt32} {t : Process ω × SharedMem}
    (h : p.dev.layout.Covered m) (hp : p.dev.pending m ≠ 0)
    (hserve : serve work (p.dev.nextHead m) ({ p with dev := p.dev.popped }, m) = .ok len t) :
    step work (p, m) = .ok (some (p.dev.nextHead m, len)) t :=
  step_of_pop (Device.popChainHead_some h hp) hserve

/-- With nothing pending an iteration changes nothing, and ends the loop. -/
theorem step_idle (work : Work ω) (h : p.dev.layout.Covered m) (hp : p.dev.pending m = 0) :
    step work (p, m) = .ok none (p, m) := by
  unfold step
  rw [bind_ok (onDevice_ok (Device.popChainHead_none h hp))]
  rfl

/-- Over a region that covers the layout an iteration returns, and does one of
the three things `StepSpec` lists. -/
theorem step_spec (work : Work ω) (h : p.dev.layout.Covered m) :
    ∃ r p' m', step work (p, m) = .ok r (p', m') ∧ StepSpec work p m r p' m' := by
  by_cases hp : p.dev.pending m = 0
  · exact ⟨none, p, m, step_idle work h hp, .idle hp⟩
  have hslot := h.usedBase p.dev.nextUsed
  obtain ⟨ds, e, hc, hw⟩ := walk_ok p.dev.popped m (p.dev.nextHead m)
  rcases e with - | e
  · have hsum : (0 : UInt32).toNat + refsLen (writableOf ds) < 2 ^ 32 := by
      have h₁ := refsLen_writableOf_le ds
      have h₂ := hw.totalLen_lt
      have h₃ : (0 : UInt32).toNat = 0 := rfl
      omega
    rcases hwork : work p.work (gather m (readableOf ds)).1 with ⟨response, w⟩
    obtain ⟨m', written, err, hs⟩ := scatter_spec response (writableOf ds) m 0 0 hsum
    exact ⟨_, _, _, step_of_serve h hp (serve_served work _ hslot hc hwork hs),
      .served hp hw hwork hs⟩
  · exact ⟨_, _, _, step_of_serve h hp (serve_refused work _ hslot hc), .refused hp hw⟩

end Process

end SystemsStudy
