/-
SystemsStudy/Chain.lean

`device.rs`, first half: walking one descriptor chain.

A chain is a linked list whose nodes and pointers are written by the guest.
`ChainIter` follows it under three bounds: `ttl` limits how many descriptors
are visited, the range check of `desc` limits where the walk may go, and
`yieldedBytes` limits the total length.  `ChainIter.next` is the source's
iterator step; `ChainIter.collect` is the `for` loop of `Device::process`,
which stops at the first error or at the end of the chain.

`collect` takes a number of calls of `next` it may make.  `collect_walks`
shows that one more than the ttl is always enough, so a device that makes
`queueSize + 1` calls never runs out.  What a call can do is said once, in
`NextSpec`; every later fact about walks is an induction over `collect` with
these three cases.
-/
import SystemsStudy.Layout

namespace SystemsStudy

open Fallible

/-! ### Errors -/

/-- Why a walk of a chain is stopped. -/
inductive ChainError where
  /-- A `next` pointer named a descriptor outside the table. -/
  | indexOutOfRange (index queueSize : UInt16)
  /-- The chain visited more descriptors than the table holds. -/
  | tooLong (limit : UInt16)
  /-- The chain's buffers total more than 2^32 bytes. -/
  | tooManyBytes
  /-- A descriptor's buffer is not inside the shared region. -/
  | badBuffer (e : MemError)
  /-- Indirect descriptors are not implemented here. -/
  | indirect
  /-- A device-readable descriptor appeared after a device-writable one. -/
  | readableAfterWritable
  /-- Reading the descriptor itself failed. -/
  | mem (e : MemError)
  deriving DecidableEq, Repr

/-! ### Checked arithmetic -/

/-- `u32::checked_add`. -/
def checkedAddU32 (a b : UInt32) : Option UInt32 :=
  if a.toNat + b.toNat < 2 ^ 32 then some (a + b) else none

/-- `u16::checked_sub`. -/
def checkedSubU16 (a b : UInt16) : Option UInt16 :=
  if b ≤ a then some (a - b) else none

theorem checkedAddU32_eq_some {a b c : UInt32} :
    checkedAddU32 a b = some c ↔ c.toNat = a.toNat + b.toNat := by
  unfold checkedAddU32
  split
  next h =>
    rw [Option.some.injEq, ← UInt32.toNat_inj, UInt32.toNat_add, Nat.mod_eq_of_lt h]
    exact eq_comm
  next h =>
    have hc := UInt32.toNat_lt c
    simp only [reduceCtorEq, false_iff]
    omega

theorem checkedAddU32_eq_none {a b : UInt32} :
    checkedAddU32 a b = none ↔ 2 ^ 32 ≤ a.toNat + b.toNat := by
  unfold checkedAddU32
  split <;> simp only [reduceCtorEq, false_iff, true_iff] <;> omega

/-! ### Reading a descriptor -/

/-- Read a descriptor field by field, in little-endian order. -/
def readDescriptor (mem : SharedMem) (addr : ℕ) : Except MemError Descriptor := do
  return { addr := ← mem.readU64 addr
           len := ← mem.readU32 (addr + 8)
           flags := ← mem.readU16 (addr + 12)
           next := ← mem.readU16 (addr + 14) }

/-- The descriptor stored in the 16 bytes from `a` on. -/
def SharedMem.descAt (m : SharedMem) (a : ℕ) : Descriptor :=
  ⟨m.word64 a, m.word32 (a + 8), m.word16 (a + 12), m.word16 (a + 14)⟩

theorem readDescriptor_ok {m : SharedMem} {a : ℕ} (h : a + 16 ≤ m.len) :
    readDescriptor m a = .ok (m.descAt a) := by
  unfold readDescriptor
  rw [m.readU64_eq, if_pos (by omega), m.readU32_eq, if_pos (by omega), m.readU16_eq,
    if_pos (by omega), m.readU16_eq, if_pos (by omega)]
  rfl

theorem SharedMem.SameOn.descAt_eq {m m' : SharedMem} {a : ℕ}
    (h : SharedMem.SameOn m m' a (a + 16)) : m.descAt a = m'.descAt a := by
  unfold SharedMem.descAt
  rw [(h.mono le_rfl (by omega)).word64_eq, (h.mono (by omega) (by omega)).word32_eq,
    (h.mono (by omega) (by omega)).word16_eq, (h.mono (by omega) (by omega)).word16_eq]

/-! ### The iterator -/

/-- Total length of the buffers of a list of descriptors. -/
def totalLen (ds : List Descriptor) : ℕ := (ds.map fun d => d.len.toNat).sum

@[simp] theorem totalLen_nil : totalLen [] = 0 := rfl

@[simp] theorem totalLen_cons (d : Descriptor) (ds : List Descriptor) :
    totalLen (d :: ds) = d.len.toNat + totalLen ds := by
  simp [totalLen]

/-- An iterator over the descriptors of one chain. -/
structure ChainIter where
  mem : SharedMem
  layout : VirtqLayout
  nextIndex : UInt16
  ttl : UInt16
  yieldedBytes : UInt32
  /-- Once a device-writable descriptor is seen, every later one must be
  writable too. -/
  seenWritable : Bool
  done : Bool

namespace ChainIter

/-- A walk about to start at `head`. -/
def new (mem : SharedMem) (layout : VirtqLayout) (head : UInt16) : ChainIter where
  mem := mem
  layout := layout
  nextIndex := head
  -- a chain cannot legitimately be longer than the table it is built from
  ttl := layout.queueSize
  yieldedBytes := 0
  seenWritable := false
  done := false

/-- One call of the iterator.  The only way to fail is the decrement of `ttl`. -/
def next (it : ChainIter) :
    Except (Fault MemError) (Option (Except ChainError Descriptor) × ChainIter) :=
  if it.done then .ok (none, it)
  -- Bound 1: length
  else if it.ttl = 0 then
    .ok (some (.error (.tooLong it.layout.queueSize)), { it with done := true })
  else
    -- Bound 2: destination
    match it.layout.desc it.nextIndex with
    | none =>
        .ok (some (.error (.indexOutOfRange it.nextIndex it.layout.queueSize)),
          { it with done := true })
    | some addr =>
      match readDescriptor it.mem addr with
      | .error e => .ok (some (.error (.mem e)), { it with done := true })
      | .ok desc =>
        if desc.isIndirect then .ok (some (.error .indirect), { it with done := true })
        else
          -- Bound 3: total work
          match checkedAddU32 it.yieldedBytes desc.len with
          | none => .ok (some (.error .tooManyBytes), { it with done := true })
          | some n =>
            let it := { it with yieldedBytes := n }
            -- Direction ordering
            if !desc.isWriteOnly && it.seenWritable then
              .ok (some (.error .readableAfterWritable), { it with done := true })
            else
              let it := { it with seenWritable := it.seenWritable || desc.isWriteOnly }
              if desc.hasNext then
                match checkedSubU16 it.ttl 1 with
                | none => .error .panic
                | some ttl => .ok (some (.ok desc), { it with nextIndex := desc.next, ttl })
              else .ok (some (.ok desc), { it with done := true })

/-- The collecting loop: the descriptors up to the end of the chain or the
first error, making at most `fuel` calls of `next`. -/
def collect : ℕ → ChainIter → Except (Fault MemError) (List Descriptor × Option ChainError)
  | 0, _ => .error .fuel
  | fuel + 1, it => do
      match ← it.next with
      | (none, _) => return ([], none)
      | (some (.error e), _) => return ([], some e)
      | (some (.ok d), it') =>
          let r ← it'.collect fuel
          return (d :: r.1, r.2)

/-- The iterator after yielding `d`. -/
def after (it : ChainIter) (d : Descriptor) : ChainIter :=
  { it with
    yieldedBytes := it.yieldedBytes + d.len
    seenWritable := it.seenWritable || d.isWriteOnly
    nextIndex := if d.hasNext then d.next else it.nextIndex
    ttl := if d.hasNext then it.ttl - 1 else it.ttl
    done := !d.hasNext }

/-- The address the iterator reads its next descriptor from. -/
def addr (it : ChainIter) : ℕ := it.layout.descTable + 16 * it.nextIndex.toNat

/-- The conditions under which a running iterator yields `d`. -/
structure Yields (it : ChainIter) (d : Descriptor) : Prop where
  ttl_ne : it.ttl ≠ 0
  index_lt : it.nextIndex.toNat < it.layout.qs
  read : readDescriptor it.mem it.addr = .ok d
  direct : d.isIndirect = false
  bytes_lt : it.yieldedBytes.toNat + d.len.toNat < 2 ^ 32
  ordered : d.isWriteOnly = true ∨ it.seenWritable = false

/-- The condition under which a running iterator reports `e`. -/
inductive Fails (it : ChainIter) : ChainError → Prop
  | tooLong : it.ttl = 0 → Fails it (.tooLong it.layout.queueSize)
  | indexOutOfRange : it.ttl ≠ 0 → it.layout.qs ≤ it.nextIndex.toNat →
      Fails it (.indexOutOfRange it.nextIndex it.layout.queueSize)
  | mem {e} : it.ttl ≠ 0 → it.nextIndex.toNat < it.layout.qs →
      readDescriptor it.mem it.addr = .error e → Fails it (.mem e)
  | indirect {d} : it.ttl ≠ 0 → it.nextIndex.toNat < it.layout.qs →
      readDescriptor it.mem it.addr = .ok d → d.isIndirect = true → Fails it .indirect
  | tooManyBytes {d} : it.ttl ≠ 0 → it.nextIndex.toNat < it.layout.qs →
      readDescriptor it.mem it.addr = .ok d → d.isIndirect = false →
      2 ^ 32 ≤ it.yieldedBytes.toNat + d.len.toNat → Fails it .tooManyBytes
  | readableAfterWritable {d} : it.ttl ≠ 0 → it.nextIndex.toNat < it.layout.qs →
      readDescriptor it.mem it.addr = .ok d → d.isIndirect = false →
      it.yieldedBytes.toNat + d.len.toNat < 2 ^ 32 → d.isWriteOnly = false →
      it.seenWritable = true → Fails it .readableAfterWritable

/-- Everything one call of `next` can do. -/
inductive NextSpec (it : ChainIter) :
    Option (Except ChainError Descriptor) × ChainIter → Prop
  | stop : it.done = true → NextSpec it (none, it)
  | fail {e it'} : it.done = false → it.Fails e → it'.done = true →
      NextSpec it (some (.error e), it')
  | yield {d} : it.done = false → it.Yields d → NextSpec it (some (.ok d), it.after d)

/-- `next` never underflows the ttl: the decrement comes after the test for
zero. -/
theorem next_spec (it : ChainIter) : ∃ r, it.next = .ok r ∧ NextSpec it r := by
  unfold next
  by_cases hdone : it.done = true
  · exact ⟨_, if_pos hdone, .stop hdone⟩
  have hdone' : it.done = false := by simpa using hdone
  rw [if_neg hdone]
  -- bound 1
  by_cases httl : it.ttl = 0
  · exact ⟨_, if_pos httl, .fail hdone' (.tooLong httl) rfl⟩
  rw [if_neg httl]
  -- bound 2
  rcases hdesc : it.layout.desc it.nextIndex with - | a
  · have hge : it.layout.qs ≤ it.nextIndex.toNat := by
      by_contra hlt
      have := (it.layout.desc_eq_some (i := it.nextIndex)).mpr ⟨by omega, rfl⟩
      rw [hdesc] at this
      cases this
    exact ⟨_, rfl, .fail hdone' (.indexOutOfRange httl hge) rfl⟩
  obtain ⟨hlt, rfl⟩ := it.layout.desc_eq_some.mp hdesc
  simp only
  rcases hread : readDescriptor it.mem (it.layout.descTable + 16 * it.nextIndex.toNat) with e | d
  · exact ⟨(_, { it with done := true }), rfl, .fail hdone' (.mem httl hlt hread) rfl⟩
  simp only
  by_cases hind : d.isIndirect = true
  · exact ⟨(_, { it with done := true }), if_pos hind,
      .fail hdone' (.indirect httl hlt hread hind) rfl⟩
  have hind' : d.isIndirect = false := by simpa using hind
  rw [if_neg hind]
  -- bound 3
  rcases hsum : checkedAddU32 it.yieldedBytes d.len with - | n
  · exact ⟨_, rfl, .fail hdone'
      (.tooManyBytes httl hlt hread hind' (checkedAddU32_eq_none.mp hsum)) rfl⟩
  have hn := checkedAddU32_eq_some.mp hsum
  have hbytes : it.yieldedBytes.toNat + d.len.toNat < 2 ^ 32 := by
    have := UInt32.toNat_lt n
    omega
  have hnval : n = it.yieldedBytes + d.len := by
    rw [← UInt32.toNat_inj, hn, UInt32.toNat_add, Nat.mod_eq_of_lt hbytes]
  by_cases hord : (!d.isWriteOnly && it.seenWritable) = true
  · obtain ⟨hw, hs⟩ : d.isWriteOnly = false ∧ it.seenWritable = true := by simpa using hord
    exact ⟨_, if_pos hord, .fail hdone'
      (.readableAfterWritable httl hlt hread hind' hbytes hw hs) rfl⟩
  have hord' : d.isWriteOnly = true ∨ it.seenWritable = false := by
    rcases hw : d.isWriteOnly <;> simp_all
  -- nothing is left to test: the iterator yields, with a ttl that can be decremented
  refine ⟨_, ?_, .yield hdone' ⟨httl, hlt, hread, hind', hbytes, hord'⟩⟩
  have hone : (1 : UInt16) ≤ it.ttl := by
    rw [UInt16.le_iff_toNat_le]
    have : it.ttl.toNat ≠ 0 := fun h => httl (UInt16.toNat_inj.mp h)
    show 1 ≤ it.ttl.toNat
    omega
  have hsub : checkedSubU16 it.ttl 1 = some (it.ttl - 1) := if_pos hone
  simp only [if_neg hord, hsub, after, ← hnval]
  split
  next hnext => simp [hnext, hdone']
  next hnext =>
    have hnext' : d.hasNext = false := by simpa using hnext
    simp [hnext']

theorem Fails.not_yields {it : ChainIter} {e : ChainError} {d : Descriptor}
    (h : it.Fails e) : ¬ it.Yields d := by
  rintro ⟨httl, hlt, hread, hdirect, hbytes, hord⟩
  cases h with
  | tooLong h => exact httl h
  | indexOutOfRange _ h => omega
  | mem _ _ h => simp [h] at hread
  | indirect _ _ h hi => simp_all
  | tooManyBytes _ _ h _ hge =>
      obtain rfl := Except.ok.inj (h.symm.trans hread)
      omega
  | readableAfterWritable _ _ h _ _ hw hs => simp_all

theorem Yields.unique {it : ChainIter} {d d' : Descriptor} (h : it.Yields d)
    (h' : it.Yields d') : d = d' :=
  Except.ok.inj (h.read.symm.trans h'.read)

/-- A running iterator reports at most one error: each condition rules out the
ones tested before it. -/
theorem Fails.unique {it : ChainIter} {e e' : ChainError} (h : it.Fails e)
    (h' : it.Fails e') : e = e' := by
  cases h <;> cases h' <;> first | rfl | (exfalso; omega) | simp_all <;> omega

/-! ### Whole walks -/

/-- `Walks it ds e`: from `it` the walk yields the descriptors `ds` and then
ends, with error `e` if there is one. -/
inductive Walks : ChainIter → List Descriptor → Option ChainError → Prop
  | stop {it} : it.done = true → Walks it [] none
  | fail {it e} : it.done = false → it.Fails e → Walks it [] (some e)
  | yield {it d ds e} : it.done = false → it.Yields d → Walks (it.after d) ds e →
      Walks it (d :: ds) e

/-- How many more descriptors the iterator can yield. -/
def budget (it : ChainIter) : ℕ := if it.done then 0 else it.ttl.toNat

/-- Yielding a descriptor uses up part of the budget. -/
theorem Yields.budget_after {it : ChainIter} {d : Descriptor} (h : it.Yields d)
    (hdone : it.done = false) : (it.after d).budget < it.budget := by
  have hpos : it.ttl.toNat ≠ 0 := fun h₀ => h.ttl_ne (UInt16.toNat_inj.mp h₀)
  have hle : (1 : UInt16) ≤ it.ttl := by
    rw [UInt16.le_iff_toNat_le]
    show 1 ≤ it.ttl.toNat
    omega
  have hsub : (it.ttl - 1).toNat = it.ttl.toNat - 1 := UInt16.toNat_sub_of_le _ _ hle
  rcases hn : d.hasNext
  · simp only [budget, after, hn, hdone, Bool.not_false, if_true]
    simp
    omega
  · simp only [budget, after, hn, hdone, Bool.not_true, if_true]
    simp
    omega

/-- With more calls than budget the loop ends, and what it returns is a walk. -/
theorem collect_walks {fuel : ℕ} {it : ChainIter} (h : it.budget < fuel) :
    ∃ ds e, it.collect fuel = .ok (ds, e) ∧ it.Walks ds e := by
  induction fuel generalizing it with
  | zero => omega
  | succ fuel ih =>
      obtain ⟨r, hr, hspec⟩ := it.next_spec
      cases hspec with
      | stop hdone => exact ⟨[], none, by rw [collect, hr]; rfl, .stop hdone⟩
      | fail hdone hf => exact ⟨[], some _, by rw [collect, hr]; rfl, .fail hdone hf⟩
      | @yield d hdone hy =>
          have hlt := hy.budget_after hdone
          obtain ⟨ds, e, hc, hw⟩ := @ih (it.after d) (by omega)
          refine ⟨d :: ds, e, ?_, .yield hdone hy hw⟩
          rw [collect, hr]
          show (do let r ← (it.after d).collect fuel; pure (d :: r.1, r.2)) = _
          rw [hc]
          rfl

theorem Walks.unique {it : ChainIter} {ds ds' : List Descriptor}
    {e e' : Option ChainError} (h : it.Walks ds e) (h' : it.Walks ds' e') :
    ds = ds' ∧ e = e' := by
  induction h generalizing ds' e' with
  | stop hd => cases h' <;> simp_all
  | fail hd hf =>
      cases h' with
      | stop => simp_all
      | fail _ hf' => simp [hf.unique hf']
      | yield _ hy => exact absurd hy hf.not_yields
  | yield hd hy _ ih =>
      cases h' with
      | stop => simp_all
      | fail _ hf => exact absurd hy hf.not_yields
      | yield _ hy' hw =>
          obtain rfl := hy.unique hy'
          obtain ⟨rfl, rfl⟩ := ih hw
          exact ⟨rfl, rfl⟩

/-- With that many calls the loop and the relation say the same. -/
theorem collect_eq_ok {fuel : ℕ} {it : ChainIter} (h : it.budget < fuel)
    {ds : List Descriptor} {e : Option ChainError} :
    it.collect fuel = .ok (ds, e) ↔ it.Walks ds e := by
  obtain ⟨ds', e', hc, hw⟩ := collect_walks h
  rw [hc]
  constructor
  · intro heq
    obtain ⟨rfl, rfl⟩ : ds' = ds ∧ e' = e := by simpa using heq
    exact hw
  · intro hw'
    obtain ⟨rfl, rfl⟩ := hw.unique hw'
    rfl

/-- What a walk yields stays below 2^32 bytes in total. -/
theorem Walks.totalLen_lt {it : ChainIter} {ds : List Descriptor} {e : Option ChainError}
    (h : it.Walks ds e) : it.yieldedBytes.toNat + totalLen ds < 2 ^ 32 := by
  induction h with
  | stop => simpa using UInt32.toNat_lt _
  | fail => simpa using UInt32.toNat_lt _
  | @yield it d ds e _ hy _ ih =>
      have hlt := hy.bytes_lt
      have hadd : (it.after d).yieldedBytes.toNat = it.yieldedBytes.toNat + d.len.toNat := by
        show (it.yieldedBytes + d.len).toNat = _
        rw [UInt32.toNat_add, Nat.mod_eq_of_lt hlt]
      rw [hadd] at ih
      rw [totalLen_cons]
      omega

end ChainIter

end SystemsStudy
