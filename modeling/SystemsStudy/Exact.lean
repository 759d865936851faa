/-
SystemsStudy/Exact.lean

`mem.rs`: the accessors as they run, and that they are a byte memory with exact
bounds.

`Mem.lean` has an accessor as a function of the region.  Here it is the program
that the code runs: first the bounds check, with an early return, and then what
would panic on a wrong range: indexing a slice, indexing a byte, copying between
slices, and converting a slice to an array.  None of these panics behind the
check, so the program is the function (`readSlice_eq`, `writeSlice_eq`, ...).

`sharedMem_exact` then says what the region is to those who use it.  An access
succeeds exactly if it lies in the region.  A read gives the number that its bytes
spell, so reads of different widths that overlap agree on what they share.  A
write is read back, and leaves every other byte alone.
-/
import SystemsStudy.Mem

namespace SystemsStudy

open Bytes Fallible

/-- A method of the region. -/
abbrev MemM (α : Type) := EStateM (Fault MemError) SharedMem α

namespace MemM

variable {α : Type}

/-! ### The accessors -/

/-- A check on the region, with `?`. -/
def reading (f : SharedMem → Except MemError α) : MemM α := fun m =>
  match f m with
  | .ok a => .ok a m
  | .error e => .error (.err e) m

/-- The bounds check, with `?`. -/
def range (addr len : ℕ) : MemM (ℕ × ℕ) := reading fun m => m.range addr len

/-- `buf[r]`, for a range. -/
def index (r : ℕ × ℕ) : MemM (List UInt8) := fun m =>
  if r.1 ≤ r.2 ∧ r.2 ≤ m.buf.length then .ok (slice m.buf r.1 (r.2 - r.1)) m
  else .error .panic m

/-- `buf[i]`, for a byte. -/
def byte (i : ℕ) : MemM UInt8 := fun m =>
  match m.buf[i]? with
  | some b => .ok b m
  | none => .error .panic m

/-- `buf[r].copy_from_slice(data)`. -/
def copyFromSlice (r : ℕ × ℕ) (data : List UInt8) : MemM Unit := fun m =>
  if r.1 ≤ r.2 ∧ r.2 ≤ m.buf.length ∧ data.length = r.2 - r.1 then .ok () (m.put r.1 data)
  else .error .panic m

/-- `try_into().unwrap()`: a slice as an array of `n` bytes. -/
def toArray (n : ℕ) (d : List UInt8) : MemM (List UInt8) := fun m =>
  if d.length = n then .ok d m else .error .panic m

/-- `read_slice`: check the range, then index the buffer by it. -/
def readSlice (addr len : ℕ) : MemM (List UInt8) := do
  let r ← range addr len
  index r

/-- `write_slice`: check the range, then copy into it. -/
def writeSlice (addr : ℕ) (data : List UInt8) : MemM Unit := do
  let r ← range addr data.length
  copyFromSlice r data

/-- `read_u16`, from two indexed bytes. -/
def readU16 (addr : ℕ) : MemM UInt16 := do
  let r ← range addr 2
  let lo ← byte r.1
  let hi ← byte (r.1 + 1)
  return UInt16.ofNat (fromLe [lo, hi])

/-- `read_u32`, from a slice that becomes an array of four bytes. -/
def readU32 (addr : ℕ) : MemM UInt32 := do
  let r ← range addr 4
  let d ← index r
  let d ← toArray 4 d
  return UInt32.ofNat (fromLe d)

/-- `read_u64`, from a slice that becomes an array of eight bytes. -/
def readU64 (addr : ℕ) : MemM UInt64 := do
  let r ← range addr 8
  let d ← index r
  let d ← toArray 8 d
  return UInt64.ofNat (fromLe d)

/-- `write_u16`, the bytes of the value in little-endian order. -/
def writeU16 (addr : ℕ) (v : UInt16) : MemM Unit := writeSlice addr (toLe 2 v.toNat)

/-- `write_u32`, likewise. -/
def writeU32 (addr : ℕ) (v : UInt32) : MemM Unit := writeSlice addr (toLe 4 v.toNat)

/-! ### The programs are the functions -/

/-- A change of the region, with `?`. -/
def writing (f : SharedMem → Except MemError SharedMem) : MemM Unit := fun m =>
  match f m with
  | .ok m' => .ok () m'
  | .error e => .error (.err e) m

section Results

variable {β : Type} (m : SharedMem) {addr len : ℕ} {p : Prop} [Decidable p] {e : MemError}

theorem reading_eq {f : SharedMem → Except MemError α} {a : α}
    (h : f m = if p then .ok a else .error e) :
    reading f m = if p then .ok a m else .error (.err e) m := by
  rw [reading, h]
  by_cases hp : p
  · rw [if_pos hp, if_pos hp]
  · rw [if_neg hp, if_neg hp]

theorem writing_eq {f : SharedMem → Except MemError SharedMem} {m' : SharedMem}
    (h : f m = if p then .ok m' else .error e) :
    writing f m = if p then .ok () m' else .error (.err e) m := by
  rw [writing, h]
  by_cases hp : p
  · rw [if_pos hp, if_pos hp]
  · rw [if_neg hp, if_neg hp]

/-- A read whose result is wrapped. -/
theorem reading_bind {f : SharedMem → Except MemError α} (g : α → β) {a : α}
    (h : f m = if p then .ok a else .error e) :
    (reading f >>= fun a => pure (g a)) m = if p then .ok (g a) m else .error (.err e) m := by
  have hrun := reading_eq m h
  by_cases hp : p
  · rw [if_pos hp] at hrun ⊢
    rw [bind_ok hrun]
    rfl
  · rw [if_neg hp] at hrun ⊢
    rw [bind_error hrun]

/-- A program that starts with the bounds check. -/
theorem range_bind (f : ℕ × ℕ → MemM α) : (range addr len >>= f) m =
    if addr + len ≤ m.len then f (addr, addr + len) m
    else .error (.err (.outOfBounds addr len m.len)) m := by
  have hrun : range addr len m = _ := reading_eq m (m.range_eq addr len)
  by_cases h : addr + len ≤ m.len
  · rw [if_pos h] at hrun ⊢
    rw [bind_ok hrun]
  · rw [if_neg h] at hrun ⊢
    rw [bind_error hrun]

theorem index_ok (h : addr + len ≤ m.len) :
    index (addr, addr + len) m = .ok (m.bytes addr len) m := by
  rw [index, if_pos ⟨Nat.le_add_right _ _, h⟩]
  dsimp only
  rw [Nat.add_sub_cancel_left]
  rfl

theorem toArray_ok (h : addr + len ≤ m.len) :
    toArray len (m.bytes addr len) m = .ok (m.bytes addr len) m := by
  have hlen : (m.bytes addr len).length = len := length_slice h
  rw [toArray, if_pos hlen]

theorem byte_ok {i : ℕ} {b : UInt8} (h : m.buf[i]? = some b) : byte i m = .ok b m := by
  rw [byte, h]

end Results

theorem readSlice_eq (addr len : ℕ) :
    readSlice addr len = reading fun m => m.readSlice addr len := by
  funext m
  rw [readSlice, range_bind, reading_eq m (m.readSlice_eq addr len)]
  split
  · next h => exact index_ok m h
  · rfl

theorem writeSlice_eq (addr : ℕ) (data : List UInt8) :
    writeSlice addr data = writing fun m => m.writeSlice addr data := by
  funext m
  rw [writeSlice, range_bind, writing_eq m (m.writeSlice_eq addr data)]
  split
  · next h =>
      rw [copyFromSlice, if_pos ⟨Nat.le_add_right _ _, h, (Nat.add_sub_cancel_left _ _).symm⟩]
  · rfl

theorem readU16_eq (addr : ℕ) : readU16 addr = reading fun m => m.readU16 addr := by
  funext m
  rw [readU16, range_bind, reading_eq m (m.readU16_eq addr)]
  split
  · next h =>
      have hlen : m.len = m.buf.length := rfl
      have hlo : addr < m.buf.length := by omega
      have hhi : addr + 1 < m.buf.length := by omega
      have hbytes : m.bytes addr 2 = [m.buf[addr], m.buf[addr + 1]] := by
        rw [SharedMem.bytes, slice, List.drop_eq_getElem_cons hlo, List.drop_eq_getElem_cons hhi]
        rfl
      rw [bind_ok (byte_ok m (List.getElem?_eq_getElem hlo)),
        bind_ok (byte_ok m (List.getElem?_eq_getElem hhi)), SharedMem.word16, hbytes]
      rfl
  · rfl

theorem readU32_eq (addr : ℕ) : readU32 addr = reading fun m => m.readU32 addr := by
  funext m
  rw [readU32, range_bind, reading_eq m (m.readU32_eq addr)]
  split
  · next h =>
      rw [bind_ok (index_ok m h), bind_ok (toArray_ok m h)]
      rfl
  · rfl

theorem readU64_eq (addr : ℕ) : readU64 addr = reading fun m => m.readU64 addr := by
  funext m
  rw [readU64, range_bind, reading_eq m (m.readU64_eq addr)]
  split
  · next h =>
      rw [bind_ok (index_ok m h), bind_ok (toArray_ok m h)]
      rfl
  · rfl

end MemM

/-! ### Accesses of any width -/

/-- What can be read or written at an address. -/
inductive Value where
  | slice (data : List UInt8)
  | u16 (v : UInt16)
  | u32 (v : UInt32)
  | u64 (v : UInt64)
  deriving DecidableEq

/-- The bytes of a value, little-endian. -/
def Value.data : Value → List UInt8
  | .slice data => data
  | .u16 v => toLe 2 v.toNat
  | .u32 v => toLe 4 v.toNat
  | .u64 v => toLe 8 v.toNat

/-- A call that reads. -/
inductive Load where
  | slice (len : ℕ)
  | u16
  | u32
  | u64
  deriving DecidableEq

namespace Load

/-- How many bytes a load reads. -/
def size : Load → ℕ
  | slice len => len
  | u16 => 2
  | u32 => 4
  | u64 => 8

/-- The accessor for the width of the load. -/
def run (l : Load) (addr : ℕ) : MemM Value :=
  match l with
  | slice len => return .slice (← MemM.readSlice addr len)
  | u16 => return .u16 (← MemM.readU16 addr)
  | u32 => return .u32 (← MemM.readU32 addr)
  | u64 => return .u64 (← MemM.readU64 addr)

/-- The value that a string of bytes spells. -/
def decode (l : Load) (d : List UInt8) : Value :=
  match l with
  | slice _ => .slice d
  | u16 => .u16 (UInt16.ofNat (fromLe d))
  | u32 => .u32 (UInt32.ofNat (fromLe d))
  | u64 => .u64 (UInt64.ofNat (fromLe d))

/-- Every read in one equation. -/
theorem run_eq (l : Load) (addr : ℕ) (m : SharedMem) :
    l.run addr m =
      if addr + l.size ≤ m.len then .ok (l.decode (m.bytes addr l.size)) m
      else .error (.err (.outOfBounds addr l.size m.len)) m := by
  cases l with
  | slice len =>
      rw [run, MemM.readSlice_eq]
      exact MemM.reading_bind m Value.slice (m.readSlice_eq addr len)
  | u16 =>
      rw [run, MemM.readU16_eq]
      exact MemM.reading_bind m Value.u16 (m.readU16_eq addr)
  | u32 =>
      rw [run, MemM.readU32_eq]
      exact MemM.reading_bind m Value.u32 (m.readU32_eq addr)
  | u64 =>
      rw [run, MemM.readU64_eq]
      exact MemM.reading_bind m Value.u64 (m.readU64_eq addr)

section Results

variable (l : Load) {addr : ℕ} {m m' : SharedMem}

theorem run_eq_ok {v : Value} : l.run addr m = .ok v m' ↔
    addr + l.size ≤ m.len ∧ v = l.decode (m.bytes addr l.size) ∧ m' = m := by
  rw [run_eq]
  exact ite_eq_ok

theorem run_eq_error {e : Fault MemError} : l.run addr m = .error e m' ↔
    ¬ addr + l.size ≤ m.len ∧ e = .err (.outOfBounds addr l.size m.len) ∧ m' = m := by
  rw [run_eq]
  exact ite_eq_error

end Results

theorem data_decode (l : Load) {d : List UInt8} (h : d.length = l.size) :
    (l.decode d).data = d := by
  have hlt := fromLe_lt d
  have hd := toLe_fromLe d
  rw [h] at hlt hd
  cases l with
  | slice len => rfl
  | u16 =>
      show toLe 2 (UInt16.ofNat (fromLe d)).toNat = d
      rw [UInt16.toNat_ofNat_of_lt' hlt]
      exact hd
  | u32 =>
      show toLe 4 (UInt32.ofNat (fromLe d)).toNat = d
      rw [UInt32.toNat_ofNat_of_lt' hlt]
      exact hd
  | u64 =>
      show toLe 8 (UInt64.ofNat (fromLe d)).toNat = d
      rw [UInt64.toNat_ofNat_of_lt' hlt]
      exact hd

/-- What a read at an address is to its caller. -/
structure Exact (l : Load) (addr : ℕ) (m : SharedMem) : Prop where
  succeeds : (∃ v m', l.run addr m = .ok v m') ↔ addr + l.size ≤ m.len
  fails : ∀ {e m'}, l.run addr m = .error e m' →
    e = .err (.outOfBounds addr l.size m.len) ∧ m' = m
  value : ∀ {v m'}, l.run addr m = .ok v m' →
    v = l.decode (m.bytes addr l.size) ∧ v.data = m.bytes addr l.size ∧ m' = m

theorem run_exact (l : Load) (addr : ℕ) (m : SharedMem) : l.Exact addr m where
  succeeds := by
    constructor
    · rintro ⟨v, m', hv⟩
      exact (l.run_eq_ok.mp hv).1
    · intro h
      exact ⟨_, _, l.run_eq_ok.mpr ⟨h, rfl, rfl⟩⟩
  fails he := (l.run_eq_error.mp he).2
  value hv := by
    obtain ⟨h, rfl, rfl⟩ := l.run_eq_ok.mp hv
    exact ⟨rfl, l.data_decode (length_slice h), rfl⟩

end Load

/-- A call that writes. -/
inductive Store where
  | slice (data : List UInt8)
  | u16 (v : UInt16)
  | u32 (v : UInt32)
  deriving DecidableEq

namespace Store

/-- What a store writes. -/
def value : Store → Value
  | slice data => .slice data
  | u16 v => .u16 v
  | u32 v => .u32 v

/-- The accessor for the width of the store. -/
def run (s : Store) (addr : ℕ) : MemM Unit :=
  match s with
  | slice data => MemM.writeSlice addr data
  | u16 v => MemM.writeU16 addr v
  | u32 v => MemM.writeU32 addr v

/-- The read of the same width. -/
def load : Store → Load
  | slice data => .slice data.length
  | u16 _ => .u16
  | u32 _ => .u32

/-- How many bytes a store writes. -/
def size (s : Store) : ℕ := s.load.size

theorem length_data (s : Store) : s.value.data.length = s.size := by
  cases s with
  | slice data => rfl
  | u16 v => exact length_toLe 2 _
  | u32 v => exact length_toLe 4 _

theorem decode_data (s : Store) : s.load.decode s.value.data = s.value := by
  cases s with
  | slice data => rfl
  | u16 v =>
      show Value.u16 (UInt16.ofNat (fromLe (toLe 2 v.toNat))) = .u16 v
      rw [fromLe_toLe_of_lt (UInt16.toNat_lt v), UInt16.ofNat_toNat]
  | u32 v =>
      show Value.u32 (UInt32.ofNat (fromLe (toLe 4 v.toNat))) = .u32 v
      rw [fromLe_toLe_of_lt (UInt32.toNat_lt v), UInt32.ofNat_toNat]

/-- Every write in one equation. -/
theorem run_eq (s : Store) (addr : ℕ) (m : SharedMem) :
    s.run addr m =
      if addr + s.size ≤ m.len then .ok () (m.put addr s.value.data)
      else .error (.err (.outOfBounds addr s.size m.len)) m := by
  have hslice : ∀ data : List UInt8, MemM.writeSlice addr data m =
      if addr + data.length ≤ m.len then .ok () (m.put addr data)
      else .error (.err (.outOfBounds addr data.length m.len)) m := by
    intro data
    rw [MemM.writeSlice_eq]
    exact MemM.writing_eq m (m.writeSlice_eq addr data)
  rw [← s.length_data]
  cases s with
  | slice data => exact hslice data
  | u16 v => exact hslice _
  | u32 v => exact hslice _

section Results

variable (s : Store) {addr : ℕ} {m m' : SharedMem}

theorem run_eq_ok : s.run addr m = .ok () m' ↔
    addr + s.size ≤ m.len ∧ m' = m.put addr s.value.data := by
  rw [run_eq, ite_eq_ok]
  exact and_congr_right fun _ => and_iff_right rfl

theorem run_eq_error {e : Fault MemError} : s.run addr m = .error e m' ↔
    ¬ addr + s.size ≤ m.len ∧ e = .err (.outOfBounds addr s.size m.len) ∧ m' = m := by
  rw [run_eq]
  exact ite_eq_error

/-- The bytes of a write are those of its value. -/
theorem bytes_put (h : addr + s.size ≤ m.len) :
    (m.put addr s.value.data).bytes addr s.size = s.value.data := by
  rw [← s.length_data] at h ⊢
  exact m.bytes_put_self h

end Results

/-- What a write at an address is to its caller. -/
structure Exact (s : Store) (addr : ℕ) (m : SharedMem) : Prop where
  succeeds : (∃ m', s.run addr m = .ok () m') ↔ addr + s.size ≤ m.len
  fails : ∀ {e m'}, s.run addr m = .error e m' →
    e = .err (.outOfBounds addr s.size m.len) ∧ m' = m
  /-- The value is read back. -/
  readBack : ∀ {m'}, s.run addr m = .ok () m' → s.load.run addr m' = .ok s.value m'
  /-- Its bytes are the little-endian encoding. -/
  encoded : ∀ {m'}, s.run addr m = .ok () m' → m'.bytes addr s.size = s.value.data
  /-- Every other byte is as before, -/
  others : ∀ {m'}, s.run addr m = .ok () m' →
    m'.len = m.len ∧ ∀ i, i < addr ∨ addr + s.size ≤ i → m'.buf[i]? = m.buf[i]?
  /-- and so is a read of other bytes. -/
  commutes : ∀ {m'}, s.run addr m = .ok () m' → ∀ (l : Load) (b : ℕ),
    b + l.size ≤ addr ∨ addr + s.size ≤ b → ∀ v, l.run b m' = .ok v m' ↔ l.run b m = .ok v m

theorem run_exact (s : Store) (addr : ℕ) (m : SharedMem) : s.Exact addr m where
  succeeds := by
    constructor
    · rintro ⟨m', hm'⟩
      exact (s.run_eq_ok.mp hm').1
    · intro h
      exact ⟨_, s.run_eq_ok.mpr ⟨h, rfl⟩⟩
  fails he := (s.run_eq_error.mp he).2
  readBack hm' := by
    -- the load of the same width reads just the stored bytes
    obtain ⟨h, rfl⟩ := s.run_eq_ok.mp hm'
    refine s.load.run_eq_ok.mpr ⟨?_, ?_, rfl⟩
    · rw [SharedMem.len_put]
      exact h
    · show _ = s.load.decode ((m.put addr s.value.data).bytes addr s.size)
      rw [s.bytes_put h, s.decode_data]
  encoded hm' := by
    obtain ⟨h, rfl⟩ := s.run_eq_ok.mp hm'
    exact s.bytes_put h
  others hm' := by
    obtain ⟨-, rfl⟩ := s.run_eq_ok.mp hm'
    refine ⟨m.len_put _ _, fun i hi => m.put_getElem? ?_⟩
    rw [s.length_data]
    exact hi
  commutes hm' l b hb v := by
    obtain ⟨-, rfl⟩ := s.run_eq_ok.mp hm'
    -- a load of other bytes does not see the store
    have hsame : (m.put addr s.value.data).SameOn m b (b + l.size) := by
      apply m.sameOn_put
      rw [s.length_data]
      exact hb
    rw [l.run_eq_ok, l.run_eq_ok, SharedMem.len_put, hsame.bytes_eq]
    simp only [and_true]

end Store

/-- A 64-bit read is two 32-bit reads. -/
theorem SharedMem.toNat_word64 (m : SharedMem) {a : ℕ} (h : a + 8 ≤ m.len) :
    (m.word64 a).toNat = (m.word32 a).toNat + 2 ^ 32 * (m.word32 (a + 4)).toNat := by
  have hlen : m.len = m.buf.length := rfl
  have hlo : (m.bytes a 4).length = 4 := length_slice (by omega)
  have hhi : (m.bytes (a + 4) 4).length = 4 := length_slice (by omega)
  have hlo_lt : fromLe (m.bytes a 4) < 2 ^ 32 := by simpa [hlo] using fromLe_lt (m.bytes a 4)
  have hhi_lt : fromLe (m.bytes (a + 4) 4) < 2 ^ 32 := by
    simpa [hhi] using fromLe_lt (m.bytes (a + 4) 4)
  have hsplit : fromLe (m.bytes a 8) =
      fromLe (m.bytes a 4) + 2 ^ 32 * fromLe (m.bytes (a + 4) 4) := by
    have hbytes : m.bytes a 8 = m.bytes a 4 ++ m.bytes (a + 4) 4 := slice_add m.buf a 4 4
    rw [hbytes, fromLe_append, hlo]
    rfl
  have hlt : fromLe (m.bytes a 8) < 2 ^ 64 := by
    rw [hsplit]
    omega
  rw [word64, word32, word32, UInt64.toNat_ofNat_of_lt' hlt, UInt32.toNat_ofNat_of_lt' hlo_lt,
    UInt32.toNat_ofNat_of_lt' hhi_lt, hsplit]

/-- The region is a little-endian byte memory with exact bounds. -/
theorem sharedMem_exact (m : SharedMem) (addr : ℕ) :
    (∀ l : Load, l.Exact addr m) ∧ (∀ s : Store, s.Exact addr m) ∧
      ∀ w m', MemM.readU64 addr m = .ok w m' →
        ∃ lo hi, MemM.readU32 addr m = .ok lo m ∧ MemM.readU32 (addr + 4) m = .ok hi m ∧
          w.toNat = lo.toNat + 2 ^ 32 * hi.toNat := by
  refine ⟨fun l => l.run_exact addr m, fun s => s.run_exact addr m, fun w m' hw => ?_⟩
  rw [MemM.readU64_eq, MemM.reading, m.readU64_eq] at hw
  by_cases h : addr + 8 ≤ m.len
  · rw [if_pos h] at hw
    cases hw
    refine ⟨m.word32 addr, m.word32 (addr + 4), ?_, ?_, m.toNat_word64 h⟩
    · rw [MemM.readU32_eq, MemM.reading, m.readU32_eq, if_pos (by omega)]
    · rw [MemM.readU32_eq, MemM.reading, m.readU32_eq, if_pos (by omega)]
  · rw [if_neg h] at hw
    cases hw

end SystemsStudy
