/-
SystemsStudy/Driver.lean

`driver.rs`: the driver side of the virtqueue.

The descriptors of a chain come from a free list, of which the vector's end is
the top, and are kept in a map from the head of the chain until the device
returns that head.  `addChain` takes them, writes the table, fills the avail
slot and last moves `avail.idx`; `collectUsed` follows `used.idx`.

As on the device side, over a region that covers the layout every method is
described by one equation.  `putDescriptor` is what one descriptor does to the
region and `putEntries` what the loop over them does; `publish` is the part of
`addChain` after it.
-/
import SystemsStudy.Device
import Mathlib.Data.List.AList

namespace SystemsStudy

open Bytes Fallible

/-! ### The model -/

/-- One buffer the driver wants in a chain. -/
structure Buffer where
  addr : UInt64
  len : UInt32
  /-- The device may write here. -/
  deviceWritable : Bool
  deriving DecidableEq, Repr

/-- The driver half of one virtqueue, plus a bump allocator for buffers. -/
structure Driver where
  layout : VirtqLayout
  /-- Count of chains published. -/
  availIdx : UInt16
  /-- `availIdx` at the previous notification decision. -/
  lastKick : UInt16
  /-- Count of completions collected. -/
  lastUsed : UInt16
  /-- Descriptor table slots not in use; popped from the end. -/
  freeDescs : List UInt16
  /-- Chains published and not yet completed, by head index. -/
  outstanding : AList fun _ : UInt16 => List UInt16
  arena : ℕ
  arenaEnd : ℕ
  eventIdx : Bool

/-- Why a method of the driver fails. -/
inductive DriverError where
  | outOfDescriptors
  | mem (e : MemError)
  deriving DecidableEq, Repr

instance : FromMemError DriverError := ⟨.mem⟩

/-- `u64::next_multiple_of`; `none` where it overflows. -/
def nextMultipleOf (v n : ℕ) : Option ℕ :=
  if alignUp v n < 2 ^ 64 then some (alignUp v n) else none

/-- `windows(2).all`: no device-writable buffer before a device-readable one. -/
def readableFirst : List Buffer → Bool
  | b :: c :: rest => (!b.deviceWritable || c.deviceWritable) && readableFirst (c :: rest)
  | _ => true

/-- Pop `n` elements from the end of the vector; `none` if it runs empty. -/
def popN : ℕ → List UInt16 → Option (List UInt16 × List UInt16)
  | 0, free => some ([], free)
  | n + 1, free =>
      match free.getLast? with
      | none => none
      | some i => (popN n free.dropLast).map fun r => (i :: r.1, r.2)

/-- `if last { 0 } else { indices[i + 1] }`, given the indices after `i`. -/
def nextIndex : Bool → List UInt16 → Option UInt16
  | true, _ => some 0
  | false, [] => none
  | false, j :: _ => some j

/-- The descriptor for one buffer of a chain. -/
def descriptorFor (buf : Buffer) (last : Bool) (next : UInt16) : Descriptor :=
  let flags : UInt16 := 0
  let flags := if buf.deviceWritable then flags ||| virtqDescFWrite else flags
  let flags := if last then flags else flags ||| virtqDescFNext
  { addr := buf.addr, len := buf.len, flags, next }

/-- A method of the driver. -/
abbrev DriverM (ε α : Type) := Half Driver ε α

namespace Driver

open Half

/-- `none` where the source panics: an address past the rings overflows. -/
def new (layout : VirtqLayout) (arenaEnd : ℕ) (eventIdx : Bool) : Option Driver :=
  if layout.endAddr < 2 ^ 64 then
    (nextMultipleOf layout.endAddr 16).map fun arena =>
      { layout, availIdx := 0, lastKick := 0, lastUsed := 0
        -- descending, so that `pop` hands out 0, 1, 2, ...
        freeDescs := ((List.range layout.qs).map UInt16.ofNat).reverse
        outstanding := ∅
        arena, arenaEnd, eventIdx }
  else none

/-- Allocate `len` bytes of buffer space without initialising them. -/
def allocUninit (len : UInt32) : DriverM MemError (Option ℕ) := do
  let d ← self
  match GuestAddr.checkedAdd d.arena len.toNat with
  | none => return none
  | some e =>
      if e > d.arenaEnd then return none
      match nextMultipleOf e 8 with
      | none => panic
      | some arena =>
          modifySelf fun d => { d with arena }
          return some d.arena

/-- Allocate buffer space and fill it with `data`. -/
def alloc (data : List UInt8) : DriverM MemError (Option ℕ) := do
  match ← allocUninit (UInt32.ofNat data.length) with
  | none => return none
  | some addr => fun s =>
      match s.2.writeSlice addr data with
      | .ok mem => .ok (some addr) (s.1, mem)
      | .error _ => .ok none s

/-- The loop over the buffers of a chain and the descriptors taken for them. -/
def writeDescriptors (layout : VirtqLayout) :
    List UInt16 → List Buffer → DriverM DriverError Unit
  | _, [] => return ()
  | [], _ :: _ => panic
  | idx :: indices, buf :: bufs =>
      match layout.desc idx, nextIndex bufs.isEmpty indices with
      | some at_, some next => do
          let d := descriptorFor buf bufs.isEmpty next
          store (·.writeSlice at_ (toLe 8 d.addr.toNat))
          store (·.writeU32 (at_ + 8) d.len)
          store (·.writeU16 (at_ + 12) d.flags)
          store (·.writeU16 (at_ + 14) d.next)
          writeDescriptors layout indices bufs
      | _, _ => panic

/-- The end of `add_chain`: publish the head index into the ring slot for this
position, then move the index that makes it visible. -/
def publish (head : UInt16) : DriverM DriverError UInt16 := do
  let d ← self
  store (·.writeU16 (d.layout.availSlot d.availIdx) head)
  modifySelf fun d => { d with availIdx := d.availIdx + 1 }
  let d ← self
  store (·.storeIdxRelease d.layout.availIdx d.availIdx)
  return head

/-- Build a descriptor chain and make it available to the device; returns the
head descriptor index. -/
def addChain (buffers : List Buffer) : DriverM DriverError UInt16 := do
  let d ← self
  if buffers.isEmpty then panic
  else if buffers.length > d.freeDescs.length then fail .outOfDescriptors
  else if !readableFirst buffers then panic
  else match popN buffers.length d.freeDescs with
    | some (head :: rest, free) => do
        modifySelf fun d =>
          { d with freeDescs := free, outstanding := d.outstanding.insert head (head :: rest) }
        writeDescriptors d.layout (head :: rest) buffers
        publish head
    | _ => panic

/-- Should the driver kick the device? -/
def needsKick : DriverM MemError Bool := do
  let d ← self
  let new := d.availIdx
  let old := d.lastKick
  modifySelf fun d => { d with lastKick := new }
  if d.eventIdx = false then return true
  let availEvent ← load (·.loadRelaxed d.layout.availEvent)
  return needEvent availEvent new old

/-- Tell the device which completion to interrupt us on. -/
def armUsedEvent : DriverM MemError Unit := do
  let d ← self
  store (·.writeU16 d.layout.usedEvent d.lastUsed)

/-- One iteration of the collecting loop. -/
def collectOne : DriverM MemError (UInt16 × UInt32) := do
  let d ← self
  let (idAddr, lenAddr) := d.layout.usedSlot d.lastUsed
  let id := (← load (·.readU32 idAddr)).toUInt16
  let len ← load (·.readU32 lenAddr)
  modifySelf fun d =>
    match d.outstanding.lookup id with
    | some descs =>
        { d with outstanding := d.outstanding.erase id, freeDescs := d.freeDescs ++ descs }
    | none => d
  modifySelf fun d => { d with lastUsed := d.lastUsed + 1 }
  return (id, len)

/-- The collecting loop, for at most `fuel` iterations. -/
def collectLoop (usedIdx : UInt16) : ℕ → DriverM MemError (List (UInt16 × UInt32))
  | 0 => do
      let d ← self
      if d.lastUsed = usedIdx then return []
      throw .fuel
  | fuel + 1 => do
      let d ← self
      if d.lastUsed = usedIdx then return []
      let c ← collectOne
      let rest ← collectLoop usedIdx fuel
      return c :: rest

/-- `collectUsed` in at most `fuel` iterations. -/
def collectWithin (fuel : ℕ) : DriverM MemError (List (UInt16 × UInt32)) := do
  let d ← self
  let usedIdx ← load (·.loadIdxAcquire d.layout.usedIdx)
  collectLoop usedIdx fuel

/-- Collect every completion the device has published since the last call. -/
def collectUsed : DriverM MemError (List (UInt16 × UInt32)) := collectWithin (2 ^ 16)

end Driver

/-! ### Taking descriptors -/

theorem popN_reverse {n : ℕ} {l : List UInt16} (h : n ≤ l.length) :
    popN n l.reverse = some (l.take n, (l.drop n).reverse) := by
  induction n generalizing l with
  | zero => rfl
  | succ n ih =>
      rcases l with - | ⟨x, xs⟩
      · simp at h
      · have hrec := ih (l := xs) (by simpa using h)
        simp only [popN, List.reverse_cons, List.getLast?_append, List.getLast?_singleton,
          Option.some_or, List.dropLast_concat, hrec, Option.map_some, List.take_succ_cons,
          List.drop_succ_cons]

/-- Popping takes the end of the list off, last element first. -/
theorem popN_spec {n : ℕ} {free : List UInt16} (h : n ≤ free.length) :
    ∃ indices rest, popN n free = some (indices, rest) ∧ indices.length = n ∧
      free = rest ++ indices.reverse := by
  have hp := popN_reverse (l := free.reverse) (n := n) (by simpa using h)
  rw [List.reverse_reverse] at hp
  refine ⟨_, _, hp, by simpa using h, ?_⟩
  rw [← List.reverse_append, List.take_append_drop, List.reverse_reverse]

/-- What was popped was on the list. -/
theorem mem_of_popped {l free indices : List UInt16} (h : l = free ++ indices.reverse) {i : UInt16}
    (hi : i ∈ indices) : i ∈ l := by
  rw [h]
  exact List.mem_append_right _ (List.mem_reverse.mpr hi)

/-! ### Writing descriptors -/

namespace SharedMem

/-- Write a descriptor over the 16 bytes from `a` on. -/
def putDescriptor (m : SharedMem) (a : ℕ) (d : Descriptor) : SharedMem :=
  (((m.put a (toLe 8 d.addr.toNat)).put (a + 8) (toLe 4 d.len.toNat)).put (a + 12)
    (toLe 2 d.flags.toNat)).put (a + 14) (toLe 2 d.next.toNat)

variable {m : SharedMem} {a : ℕ} {d : Descriptor}

@[simp] theorem len_putDescriptor : (m.putDescriptor a d).len = m.len := by
  simp only [putDescriptor, len_put]

theorem sameOn_putDescriptor {lo hi : ℕ} (h : hi ≤ a ∨ a + 16 ≤ lo) :
    SameOn (m.putDescriptor a d) m lo hi :=
  (((sameOn_put _ (by rw [length_toLe]; omega)).trans
    (sameOn_put _ (by rw [length_toLe]; omega))).trans
    (sameOn_put _ (by rw [length_toLe]; omega))).trans
    (sameOn_put _ (by rw [length_toLe]; omega))

/-- A descriptor just written reads back. -/
theorem descAt_putDescriptor (h : a + 16 ≤ m.len) : (m.putDescriptor a d).descAt a = d := by
  have e₁ : (m.putDescriptor a d).word64 a = d.addr := by
    have hs : SameOn (m.putDescriptor a d) (m.put a (toLe 8 d.addr.toNat)) a (a + 8) :=
      ((sameOn_put _ (by omega)).trans (sameOn_put _ (by omega))).trans
        (sameOn_put _ (by omega))
    rw [hs.word64_eq, word64_put_self _ _ (by omega)]
  have e₂ : (m.putDescriptor a d).word32 (a + 8) = d.len := by
    have hs : SameOn (m.putDescriptor a d) ((m.put a (toLe 8 d.addr.toNat)).put (a + 8)
        (toLe 4 d.len.toNat)) (a + 8) (a + 8 + 4) :=
      (sameOn_put _ (by omega)).trans (sameOn_put _ (by omega))
    rw [hs.word32_eq, word32_put_self _ _ (by simp only [len_put]; omega)]
  have e₃ : (m.putDescriptor a d).word16 (a + 12) = d.flags := by
    have hs : SameOn (m.putDescriptor a d) (((m.put a (toLe 8 d.addr.toNat)).put (a + 8)
        (toLe 4 d.len.toNat)).put (a + 12) (toLe 2 d.flags.toNat)) (a + 12) (a + 12 + 2) :=
      sameOn_put _ (by omega)
    rw [hs.word16_eq, word16_put_self _ _ (by simp only [len_put]; omega)]
  have e₄ : (m.putDescriptor a d).word16 (a + 14) = d.next :=
    word16_put_self _ _ (by simp only [len_put]; omega)
  rw [descAt, e₁, e₂, e₃, e₄]

end SharedMem

/-- The table entries `addChain` writes for a chain: index and descriptor. -/
def chainEntries : List UInt16 → List Buffer → List (UInt16 × Descriptor)
  | idx :: indices, buf :: bufs =>
      (idx, descriptorFor buf bufs.isEmpty (if bufs.isEmpty then 0 else indices.headD 0)) ::
        chainEntries indices bufs
  | _, _ => []

namespace VirtqLayout

variable (l : VirtqLayout)

/-- Address of the descriptor `i`. -/
def descAddr (i : UInt16) : ℕ := l.descTable + 16 * i.toNat

/-- Write entries into the table, in order. -/
def putEntries : List (UInt16 × Descriptor) → SharedMem → SharedMem
  | [], m => m
  | (i, d) :: es, m => putEntries es (m.putDescriptor (l.descAddr i) d)

variable {l} {m : SharedMem}

@[simp] theorem len_putEntries (es : List (UInt16 × Descriptor)) :
    (l.putEntries es m).len = m.len := by
  induction es generalizing m with
  | nil => rfl
  | cons e es ih => rw [putEntries, ih, SharedMem.len_putDescriptor]

/-- Two table entries with different indices do not overlap. -/
theorem descAddr_disjoint {i j : UInt16} (h : i ≠ j) :
    l.descAddr i + 16 ≤ l.descAddr j ∨ l.descAddr j + 16 ≤ l.descAddr i := by
  have hne : i.toNat ≠ j.toNat := fun e => h (UInt16.toNat_inj.mp e)
  rw [descAddr, descAddr]
  omega

theorem sameOn_putEntries {es : List (UInt16 × Descriptor)} {lo hi : ℕ}
    (h : ∀ e ∈ es, hi ≤ l.descAddr e.1 ∨ l.descAddr e.1 + 16 ≤ lo) :
    SharedMem.SameOn (l.putEntries es m) m lo hi := by
  induction es generalizing m with
  | nil => exact fun _ _ _ => rfl
  | cons e es ih =>
      exact (ih fun e' he' => h e' (List.mem_cons_of_mem _ he')).trans
        (SharedMem.sameOn_putDescriptor (h e List.mem_cons_self))

/-- Entries with distinct indices all read back. -/
theorem descAt_putEntries {es : List (UInt16 × Descriptor)} (hnd : (es.map Prod.fst).Nodup)
    (hlen : ∀ e ∈ es, l.descAddr e.1 + 16 ≤ m.len) {i : UInt16} {d : Descriptor}
    (h : (i, d) ∈ es) : (l.putEntries es m).descAt (l.descAddr i) = d := by
  induction es generalizing m with
  | nil => simp at h
  | cons e es ih =>
      rw [List.map_cons, List.nodup_cons] at hnd
      rcases List.mem_cons.mp h with rfl | h
      · have hs : SharedMem.SameOn (l.putEntries es (m.putDescriptor (l.descAddr i) d))
            (m.putDescriptor (l.descAddr i) d) (l.descAddr i) (l.descAddr i + 16) := by
          apply sameOn_putEntries
          intro e' he'
          have hne : i ≠ e'.1 := fun heq => hnd.1 (List.mem_map.mpr ⟨e', he', heq.symm⟩)
          exact descAddr_disjoint hne
        rw [putEntries, hs.descAt_eq,
          SharedMem.descAt_putDescriptor (hlen (i, d) List.mem_cons_self)]
      · exact ih hnd.2 (fun e' he' => by simpa using hlen e' (List.mem_cons_of_mem _ he')) h

end VirtqLayout

namespace Driver

open Half

/-- The driver after taking the descriptors `head :: rest`. -/
def took (d : Driver) (head : UInt16) (rest free : List UInt16) : Driver :=
  { d with freeDescs := free, outstanding := d.outstanding.insert head (head :: rest) }

/-- The driver after publishing a chain. -/
def published (d : Driver) : Driver := { d with availIdx := d.availIdx + 1 }

variable {d : Driver} {m : SharedMem} {bufs : List Buffer}

/-! ### What the operations do -/

/-- The index written for the next buffer exists when there is one. -/
theorem nextIndex_eq_some {indices : List UInt16} (h : indices.length = bufs.length) :
    nextIndex bufs.isEmpty indices =
      some (if bufs.isEmpty then 0 else indices.headD 0) := by
  rcases bufs with - | ⟨b, bufs⟩
  · rfl
  · rcases indices with - | ⟨i, indices⟩
    · simp at h
    · rfl

/-- Over a region that covers the table the loop writes the entries. -/
theorem writeDescriptors_ok {l : VirtqLayout} (h : l.descTable + 16 * l.qs ≤ m.len)
    {indices : List UInt16} (hlen : indices.length = bufs.length)
    (hidx : ∀ i ∈ indices, i.toNat < l.qs) :
    writeDescriptors l indices bufs (d, m) =
      .ok () (d, l.putEntries (chainEntries indices bufs) m) := by
  induction bufs generalizing indices m with
  | nil =>
      obtain rfl : indices = [] := by simpa using hlen
      rfl
  | cons buf bufs ih =>
      rcases indices with - | ⟨idx, indices⟩
      · simp at hlen
      have hi : idx.toNat < l.qs := hidx idx List.mem_cons_self
      have hdesc : l.desc idx = some (l.descAddr idx) := l.desc_eq_some.mpr ⟨hi, rfl⟩
      have hend : l.descAddr idx + 16 ≤ m.len := by
        rw [VirtqLayout.descAddr]
        omega
      have hlen' : indices.length = bufs.length := by simpa using hlen
      have hnext := nextIndex_eq_some hlen'
      simp only [writeDescriptors, hdesc, hnext, chainEntries, VirtqLayout.putEntries]
      set D := descriptorFor buf bufs.isEmpty (if bufs.isEmpty then 0 else indices.headD 0)
      -- the four fields of the descriptor, each stored within the table
      have h₁ := m.writeSlice_eq (l.descAddr idx) (toLe 8 D.addr.toNat)
      rw [if_pos (by rw [length_toLe]; omega)] at h₁
      set m₁ := m.put (l.descAddr idx) (toLe 8 D.addr.toNat)
      have hl₁ : m₁.len = m.len := SharedMem.len_put _ _ _
      have h₂ := m₁.writeU32_eq (l.descAddr idx + 8) D.len
      rw [if_pos (by omega)] at h₂
      set m₂ := m₁.put (l.descAddr idx + 8) (toLe 4 D.len.toNat)
      have hl₂ : m₂.len = m.len := (SharedMem.len_put _ _ _).trans hl₁
      have h₃ := m₂.writeU16_eq (l.descAddr idx + 12) D.flags
      rw [if_pos (by omega)] at h₃
      set m₃ := m₂.put (l.descAddr idx + 12) (toLe 2 D.flags.toNat)
      have hl₃ : m₃.len = m.len := (SharedMem.len_put _ _ _).trans hl₂
      have h₄ := m₃.writeU16_eq (l.descAddr idx + 14) D.next
      rw [if_pos (by omega)] at h₄
      rw [bind_ok (store_ok h₁), bind_ok (store_ok h₂), bind_ok (store_ok h₃),
        bind_ok (store_ok h₄)]
      refine ih ?_ hlen' fun i hi => hidx i (List.mem_cons_of_mem _ hi)
      rw [SharedMem.len_put, hl₃]
      exact h

/-- The region after publishing a chain at position `pos`. -/
def putChain (l : VirtqLayout) (m : SharedMem) (pos head : UInt16)
    (entries : List (UInt16 × Descriptor)) : SharedMem :=
  ((l.putEntries entries m).put (l.availSlot pos) (toLe 2 head.toNat)).put l.availIdx
    (toLe 2 (pos + 1).toNat)

theorem publish_ok (h : d.layout.Covered m) (head : UInt16) :
    publish head (d, m) = .ok head (d.published,
      (m.put (d.layout.availSlot d.availIdx) (toLe 2 head.toNat)).put d.layout.availIdx
        (toLe 2 (d.availIdx + 1).toNat)) := by
  have h₁ := m.writeU16_eq (d.layout.availSlot d.availIdx) head
  rw [if_pos (h.availSlot _)] at h₁
  have h₂ := (m.put (d.layout.availSlot d.availIdx) (toLe 2 head.toNat)).writeU16_eq
    d.layout.availIdx (d.availIdx + 1)
  rw [if_pos (by rw [SharedMem.len_put]; exact h.availIdx)] at h₂
  unfold publish
  rw [bind_ok (self_run _), bind_ok (store_ok h₁), bind_ok (modifySelf_run _ _),
    bind_ok (self_run _), bind_ok (store_ok h₂)]
  rfl

theorem addChain_outOfDescriptors (hne : bufs ≠ [])
    (h : d.freeDescs.length < bufs.length) :
    addChain bufs (d, m) = .error (.err .outOfDescriptors) (d, m) := by
  have hempty : ¬ bufs.isEmpty = true := by simpa using hne
  unfold addChain
  rw [bind_ok (self_run _), if_neg hempty, if_pos h]
  rfl

/-- With enough descriptors `addChain` takes them, writes the table and
publishes; no assertion fails. -/
theorem addChain_eq (hne : bufs ≠ []) (hord : readableFirst bufs = true)
    (h : bufs.length ≤ d.freeDescs.length) :
    ∃ head rest free, (head :: rest).length = bufs.length ∧
      d.freeDescs = free ++ (head :: rest).reverse ∧
      addChain bufs (d, m) =
        (writeDescriptors d.layout (head :: rest) bufs >>= fun _ => publish head)
          (d.took head rest free, m) := by
  obtain ⟨indices, free, hpop, hlen, hfree⟩ := popN_spec h
  rcases indices with - | ⟨head, rest⟩
  · exact absurd (List.length_eq_zero_iff.mp hlen.symm) hne
  refine ⟨head, rest, free, hlen, hfree, ?_⟩
  have hempty : ¬ bufs.isEmpty = true := by simpa using hne
  have hord' : ¬ (!readableFirst bufs) = true := by simp [hord]
  unfold addChain
  rw [bind_ok (self_run _), if_neg hempty,
    if_neg (show ¬ bufs.length > d.freeDescs.length by omega), if_neg hord', hpop]
  rfl

/-- Over a region that covers the layout, `addChain` succeeds. -/
theorem addChain_ok (hcov : d.layout.Covered m) (hne : bufs ≠ [])
    (hord : readableFirst bufs = true) (hidx : ∀ i ∈ d.freeDescs, i.toNat < d.layout.qs)
    (h : bufs.length ≤ d.freeDescs.length) :
    ∃ head rest free, (head :: rest).length = bufs.length ∧
      d.freeDescs = free ++ (head :: rest).reverse ∧
      addChain bufs (d, m) = .ok head ((d.took head rest free).published,
        putChain d.layout m d.availIdx head (chainEntries (head :: rest) bufs)) := by
  obtain ⟨head, rest, free, hlen, hfree, heq⟩ := addChain_eq (m := m) hne hord h
  refine ⟨head, rest, free, hlen, hfree, ?_⟩
  have hidx' : ∀ i ∈ head :: rest, i.toNat < d.layout.qs := fun i hi =>
    hidx i (mem_of_popped hfree hi)
  have htable : d.layout.descTable + 16 * d.layout.qs ≤ m.len :=
    hcov.le (by have := d.layout.table_end_le; have := d.layout.avail_end_le; omega)
  have hcov' : (d.took head rest free).layout.Covered
      (d.layout.putEntries (chainEntries (head :: rest) bufs) m) := by
    rw [VirtqLayout.Covered, VirtqLayout.len_putEntries]
    exact hcov
  rw [heq, bind_ok (writeDescriptors_ok htable hlen hidx'), publish_ok hcov']
  rfl

theorem needsKick_ok (h : d.layout.Covered m) :
    needsKick (d, m) =
      .ok (!d.eventIdx || needEvent (m.word16 d.layout.availEvent) d.availIdx d.lastKick)
        ({ d with lastKick := d.availIdx }, m) := by
  have hl : m.loadRelaxed d.layout.availEvent = .ok (m.word16 d.layout.availEvent) := by
    rw [SharedMem.loadRelaxed, m.readU16_eq, if_pos h.availEvent]
  unfold needsKick
  rw [bind_ok (self_run _), bind_ok (modifySelf_run _ _)]
  by_cases he : d.eventIdx = false
  · rw [if_pos he, show (!d.eventIdx || needEvent (m.word16 d.layout.availEvent) d.availIdx
      d.lastKick) = true by rw [he]; rfl]
    rfl
  · rw [if_neg he, bind_ok (load_ok hl), show (!d.eventIdx) = false by simpa using he,
      Bool.false_or]
    rfl

theorem armUsedEvent_ok (h : d.layout.Covered m) :
    armUsedEvent (d, m) = .ok () (d, m.put d.layout.usedEvent (toLe 2 d.lastUsed.toNat)) := by
  have hs := m.writeU16_eq d.layout.usedEvent d.lastUsed
  rw [if_pos h.usedEvent] at hs
  unfold armUsedEvent
  rw [bind_ok (self_run _)]
  exact store_ok hs

/-- The driver after collecting a completion with this id. -/
def collected (d : Driver) (id : UInt16) : Driver :=
  match d.outstanding.lookup id with
  | some descs =>
      { d with
        outstanding := d.outstanding.erase id
        freeDescs := d.freeDescs ++ descs
        lastUsed := d.lastUsed + 1 }
  | none => { d with lastUsed := d.lastUsed + 1 }

/-- The completion in the next used slot. -/
def nextCompletion (d : Driver) (m : SharedMem) : UInt16 × UInt32 :=
  ((m.word32 (d.layout.usedBase d.lastUsed)).toUInt16,
    m.word32 (d.layout.usedBase d.lastUsed + 4))

/-- A completion whose used slot lies in the region is read and given back. -/
theorem collectOne_of_slot (hb : d.layout.usedBase d.lastUsed + 8 ≤ m.len) :
    collectOne (d, m) = .ok (d.nextCompletion m) (d.collected (d.nextCompletion m).1, m) := by
  have h₁ := m.readU32_eq (d.layout.usedBase d.lastUsed)
  rw [if_pos (by omega)] at h₁
  have h₂ := m.readU32_eq (d.layout.usedBase d.lastUsed + 4)
  rw [if_pos (by omega)] at h₂
  unfold collectOne
  rw [bind_ok (self_run _)]
  simp only [VirtqLayout.usedSlot_eq]
  rw [bind_ok (load_ok h₁), bind_ok (load_ok h₂), bind_ok (modifySelf_run _ _),
    bind_ok (modifySelf_run _ _), collected]
  unfold nextCompletion
  dsimp only
  rcases d.outstanding.lookup (m.word32 (d.layout.usedBase d.lastUsed)).toUInt16 <;> rfl

theorem collectOne_ok (h : d.layout.Covered m) :
    collectOne (d, m) = .ok (d.nextCompletion m) (d.collected (d.nextCompletion m).1, m) :=
  collectOne_of_slot (h.usedBase d.lastUsed)

end Driver

/-- A fresh driver of the smallest queue. -/
def unitDriver : Driver where
  layout := unitQueue
  availIdx := 0
  lastKick := 0
  lastUsed := 0
  freeDescs := [0]
  outstanding := ∅
  arena := 48
  arenaEnd := 100
  eventIdx := true

/-- A fresh driver of the queue with two descriptors. -/
def pairDriver : Driver where
  layout := pairQueue
  availIdx := 0
  lastKick := 0
  lastUsed := 0
  freeDescs := [1, 0]
  outstanding := ∅
  arena := 80
  arenaEnd := 100
  eventIdx := true

/-- A region for either queue. -/
def emptyRegion : SharedMem := SharedMem.new 100 (by decide)

theorem new_unitQueue : Driver.new unitQueue 100 true = some unitDriver := rfl

theorem new_pairQueue : Driver.new pairQueue 100 true = some pairDriver := rfl

end SystemsStudy
