/-
SystemsStudy/Mem.lean

`mem.rs`: the memory both halves of a virtqueue live in.

A region is a vector of bytes indexed by guest physical address, and a
`GuestAddr` is a natural number.  The addresses the layout computes are exact;
the ones a descriptor carries are 64-bit fields, so an address plus a length
can leave the 64-bit range.  `GuestAddr.checkedAdd` is the one place where
that is tested, and `SharedMem.range` is the one bounds check that every
accessor goes through.

Each accessor is then characterised by a single equation (`readSlice_eq`,
`writeSlice_eq`, ...): it succeeds exactly when the range lies in the region,
and its effect is one of the total operations `bytes`, `put`, `word16`,
`word32`, `word64`.  The later modules reason about these only.

The last section is the shape of a method of either half: a program over the
half's own fields and the region, which stays as far as it was changed when an
access fails (`Half`).
-/
import SystemsStudy.Lib.Bytes
import SystemsStudy.Lib.Fallible

namespace SystemsStudy

open Bytes Fallible

/-! ### Addresses and errors -/

/-- Addition in the 64-bit range: `none` where it would wrap. -/
def GuestAddr.checkedAdd (a n : ℕ) : Option ℕ :=
  if a + n < 2 ^ 64 then some (a + n) else none

/-- Why an access of the region fails. -/
inductive MemError where
  /-- The access ran off the end of the region, or `addr + len` overflowed. -/
  | outOfBounds (addr len regionLen : ℕ)
  deriving DecidableEq, Repr

/-! ### The region -/

/-- A flat region of memory shared by the driver and the device.  The length
bound is the one every vector has. -/
structure SharedMem where
  buf : List UInt8
  len_lt : buf.length < 2 ^ 63
  deriving DecidableEq

namespace SharedMem

/-- A zeroed region. -/
def new (len : ℕ) (h : len < 2 ^ 63) : SharedMem :=
  ⟨List.replicate len 0, by simpa using h⟩

/-- How many bytes the region has. -/
def len (m : SharedMem) : ℕ := m.buf.length

/-- The one bounds check every accessor funnels through. -/
def range (m : SharedMem) (addr len : ℕ) : Except MemError (ℕ × ℕ) :=
  match GuestAddr.checkedAdd addr len with
  | none => .error (.outOfBounds addr len m.len)
  | some e => if e > m.len then .error (.outOfBounds addr len m.len) else .ok (addr, e)

/-- Copy `data` over the bytes from `start` on; the length stays. -/
def put (m : SharedMem) (start : ℕ) (data : List UInt8) : SharedMem :=
  ⟨overwrite m.buf start data, by simpa using m.len_lt⟩

/-- Read `len` bytes from `addr` on. -/
def readSlice (m : SharedMem) (addr len : ℕ) : Except MemError (List UInt8) := do
  let r ← m.range addr len
  return slice m.buf r.1 (r.2 - r.1)

/-- Write the bytes from `addr` on. -/
def writeSlice (m : SharedMem) (addr : ℕ) (data : List UInt8) :
    Except MemError SharedMem := do
  let r ← m.range addr data.length
  return m.put r.1 data

/-- Read two bytes as a little-endian number, -/
def readU16 (m : SharedMem) (addr : ℕ) : Except MemError UInt16 := do
  let r ← m.range addr 2
  return UInt16.ofNat (fromLe (slice m.buf r.1 2))

/-- four bytes, -/
def readU32 (m : SharedMem) (addr : ℕ) : Except MemError UInt32 := do
  let r ← m.range addr 4
  return UInt32.ofNat (fromLe (slice m.buf r.1 4))

/-- or eight bytes. -/
def readU64 (m : SharedMem) (addr : ℕ) : Except MemError UInt64 := do
  let r ← m.range addr 8
  return UInt64.ofNat (fromLe (slice m.buf r.1 8))

/-- Write a number as two little-endian bytes, -/
def writeU16 (m : SharedMem) (addr : ℕ) (v : UInt16) : Except MemError SharedMem :=
  m.writeSlice addr (toLe 2 v.toNat)

/-- or as four. -/
def writeU32 (m : SharedMem) (addr : ℕ) (v : UInt32) : Except MemError SharedMem :=
  m.writeSlice addr (toLe 4 v.toNat)

/-- Read an index field; the acquire fence has no effect on one thread. -/
def loadIdxAcquire (m : SharedMem) (addr : ℕ) : Except MemError UInt16 :=
  m.readU16 addr

/-- Write an index field; the release fence has no effect on one thread. -/
def storeIdxRelease (m : SharedMem) (addr : ℕ) (v : UInt16) :
    Except MemError SharedMem :=
  m.writeU16 addr v

/-- Read a notification hint, with no ordering requirement. -/
def loadRelaxed (m : SharedMem) (addr : ℕ) : Except MemError UInt16 :=
  m.readU16 addr

/-! ### What the accessors compute -/

/-- The `n` bytes from `a` on. -/
def bytes (m : SharedMem) (a n : ℕ) : List UInt8 := slice m.buf a n

/-- The number that two bytes of the region spell, -/
def word16 (m : SharedMem) (a : ℕ) : UInt16 := UInt16.ofNat (fromLe (m.bytes a 2))

/-- that four bytes spell, -/
def word32 (m : SharedMem) (a : ℕ) : UInt32 := UInt32.ofNat (fromLe (m.bytes a 4))

/-- and that eight bytes spell. -/
def word64 (m : SharedMem) (a : ℕ) : UInt64 := UInt64.ofNat (fromLe (m.bytes a 8))

theorem range_eq (m : SharedMem) (a n : ℕ) :
    m.range a n =
      if a + n ≤ m.len then .ok (a, a + n) else .error (.outOfBounds a n m.len) := by
  have hlen : m.len < 2 ^ 63 := m.len_lt
  unfold range GuestAddr.checkedAdd
  by_cases h : a + n ≤ m.len
  · have h64 : a + n < 2 ^ 64 := by omega
    have hle : ¬ a + n > m.len := by omega
    simp only [if_pos h64, if_neg hle, if_pos h]
  · have hgt : a + n > m.len := by omega
    by_cases h64 : a + n < 2 ^ 64
    · simp only [if_pos h64, if_pos hgt, if_neg h]
    · simp only [if_neg h64, if_neg h]

theorem readSlice_eq (m : SharedMem) (a n : ℕ) :
    m.readSlice a n =
      if a + n ≤ m.len then .ok (m.bytes a n) else .error (.outOfBounds a n m.len) := by
  unfold readSlice
  rw [range_eq]
  split
  · show Except.ok (slice m.buf a (a + n - a)) = _
    rw [Nat.add_sub_cancel_left]
    rfl
  · rfl

theorem writeSlice_eq (m : SharedMem) (a : ℕ) (d : List UInt8) :
    m.writeSlice a d =
      if a + d.length ≤ m.len then .ok (m.put a d)
      else .error (.outOfBounds a d.length m.len) := by
  unfold writeSlice
  rw [range_eq]
  split <;> rfl

theorem readU16_eq (m : SharedMem) (a : ℕ) :
    m.readU16 a =
      if a + 2 ≤ m.len then .ok (m.word16 a) else .error (.outOfBounds a 2 m.len) := by
  unfold readU16
  rw [range_eq]
  split <;> rfl

theorem readU32_eq (m : SharedMem) (a : ℕ) :
    m.readU32 a =
      if a + 4 ≤ m.len then .ok (m.word32 a) else .error (.outOfBounds a 4 m.len) := by
  unfold readU32
  rw [range_eq]
  split <;> rfl

theorem readU64_eq (m : SharedMem) (a : ℕ) :
    m.readU64 a =
      if a + 8 ≤ m.len then .ok (m.word64 a) else .error (.outOfBounds a 8 m.len) := by
  unfold readU64
  rw [range_eq]
  split <;> rfl

/-! ### Reading back and framing -/

@[simp] theorem len_put (m : SharedMem) (a : ℕ) (d : List UInt8) :
    (m.put a d).len = m.len :=
  length_overwrite _ _ _

/-- The two regions hold the same bytes at the addresses `lo ≤ i < hi`. -/
def SameOn (m m' : SharedMem) (lo hi : ℕ) : Prop :=
  ∀ i, lo ≤ i → i < hi → m.buf[i]? = m'.buf[i]?

theorem SameOn.symm {m m' : SharedMem} {lo hi : ℕ} (h : SameOn m m' lo hi) :
    SameOn m' m lo hi :=
  fun i h₁ h₂ => (h i h₁ h₂).symm

theorem SameOn.trans {m₁ m₂ m₃ : SharedMem} {lo hi : ℕ} (h : SameOn m₁ m₂ lo hi)
    (h' : SameOn m₂ m₃ lo hi) : SameOn m₁ m₃ lo hi :=
  fun i h₁ h₂ => (h i h₁ h₂).trans (h' i h₁ h₂)

theorem SameOn.mono {m m' : SharedMem} {lo hi lo' hi' : ℕ} (h : SameOn m m' lo hi)
    (h₁ : lo ≤ lo') (h₂ : hi' ≤ hi) : SameOn m m' lo' hi' :=
  fun i hi₁ hi₂ => h i (h₁.trans hi₁) (hi₂.trans_le h₂)

theorem SameOn.bytes_eq {m m' : SharedMem} {a n : ℕ} (h : SameOn m m' a (a + n)) :
    m.bytes a n = m'.bytes a n :=
  slice_congr h

theorem SameOn.word16_eq {m m' : SharedMem} {a : ℕ} (h : SameOn m m' a (a + 2)) :
    m.word16 a = m'.word16 a := by
  rw [word16, word16, h.bytes_eq]

theorem SameOn.word32_eq {m m' : SharedMem} {a : ℕ} (h : SameOn m m' a (a + 4)) :
    m.word32 a = m'.word32 a := by
  rw [word32, word32, h.bytes_eq]

theorem SameOn.word64_eq {m m' : SharedMem} {a : ℕ} (h : SameOn m m' a (a + 8)) :
    m.word64 a = m'.word64 a := by
  rw [word64, word64, h.bytes_eq]

theorem put_getElem? (m : SharedMem) {a i : ℕ} {d : List UInt8}
    (h : i < a ∨ a + d.length ≤ i) : (m.put a d).buf[i]? = m.buf[i]? :=
  getElem?_overwrite_of_not_mem h

theorem sameOn_put (m : SharedMem) {a lo hi : ℕ} {d : List UInt8}
    (h : hi ≤ a ∨ a + d.length ≤ lo) : SameOn (m.put a d) m lo hi :=
  fun _ _ _ => m.put_getElem? (by omega)

theorem bytes_put_self (m : SharedMem) {a : ℕ} {d : List UInt8}
    (h : a + d.length ≤ m.len) : (m.put a d).bytes a d.length = d :=
  slice_overwrite_self h

theorem word16_put_self (m : SharedMem) {a : ℕ} (v : UInt16) (h : a + 2 ≤ m.len) :
    (m.put a (toLe 2 v.toNat)).word16 a = v := by
  have hb := m.bytes_put_self (a := a) (d := toLe 2 v.toNat) (by simpa using h)
  rw [length_toLe] at hb
  rw [word16, hb, fromLe_toLe_of_lt (UInt16.toNat_lt v), UInt16.ofNat_toNat]

theorem word32_put_self (m : SharedMem) {a : ℕ} (v : UInt32) (h : a + 4 ≤ m.len) :
    (m.put a (toLe 4 v.toNat)).word32 a = v := by
  have hb := m.bytes_put_self (a := a) (d := toLe 4 v.toNat) (by simpa using h)
  rw [length_toLe] at hb
  rw [word32, hb, fromLe_toLe_of_lt (UInt32.toNat_lt v), UInt32.ofNat_toNat]

theorem word64_put_self (m : SharedMem) {a : ℕ} (v : UInt64) (h : a + 8 ≤ m.len) :
    (m.put a (toLe 8 v.toNat)).word64 a = v := by
  have hb := m.bytes_put_self (a := a) (d := toLe 8 v.toNat) (by simpa using h)
  rw [length_toLe] at hb
  rw [word64, hb, fromLe_toLe_of_lt (UInt64.toNat_lt v), UInt64.ofNat_toNat]

theorem writeU16_eq (m : SharedMem) (a : ℕ) (v : UInt16) :
    m.writeU16 a v =
      if a + 2 ≤ m.len then .ok (m.put a (toLe 2 v.toNat))
      else .error (.outOfBounds a 2 m.len) := by
  rw [writeU16, writeSlice_eq, length_toLe]

theorem writeU32_eq (m : SharedMem) (a : ℕ) (v : UInt32) :
    m.writeU32 a v =
      if a + 4 ≤ m.len then .ok (m.put a (toLe 4 v.toNat))
      else .error (.outOfBounds a 4 m.len) := by
  rw [writeU32, writeSlice_eq, length_toLe]

end SharedMem

/-! ### Methods of one half -/

/-- How a memory error becomes an error of the method it happens in. -/
class FromMemError (ε : Type) where
  fromMem : MemError → ε

instance : FromMemError MemError := ⟨id⟩

/-- A method of a half with fields `σ`: it may change its own fields and the
region, and it may return early. -/
abbrev Half (σ ε α : Type) := EStateM (Fault ε) (σ × SharedMem) α

namespace Half

variable {σ ε α β : Type}

/-- `self`, as it is now. -/
def self : Half σ ε σ := fun s => .ok s.1 s

/-- Assign to `self`. -/
def modifySelf (f : σ → σ) : Half σ ε Unit := fun s => .ok () (f s.1, s.2)

/-- Return early with an error of the method. -/
def fail (e : ε) : Half σ ε α := throw (.err e)

/-- A failed assertion, `unwrap` or `expect`, or an arithmetic overflow. -/
def panic : Half σ ε α := throw .panic

/-- Read the region, with `?` on the result. -/
def load [FromMemError ε] (f : SharedMem → Except MemError α) : Half σ ε α := fun s =>
  match f s.2 with
  | .ok a => .ok a s
  | .error e => .error (.err (FromMemError.fromMem e)) s

/-- Write the region, with `?` on the result. -/
def store [FromMemError ε] (f : SharedMem → Except MemError SharedMem) : Half σ ε Unit :=
  fun s =>
    match f s.2 with
    | .ok m => .ok () (s.1, m)
    | .error e => .error (.err (FromMemError.fromMem e)) s

@[simp] theorem self_run (s : σ × SharedMem) : (self : Half σ ε σ) s = .ok s.1 s := rfl

@[simp] theorem modifySelf_run (f : σ → σ) (s : σ × SharedMem) :
    (modifySelf f : Half σ ε Unit) s = .ok () (f s.1, s.2) := rfl

variable [FromMemError ε]

theorem load_ok {f : SharedMem → Except MemError α} {s : σ × SharedMem} {a : α}
    (h : f s.2 = .ok a) : (load f : Half σ ε α) s = .ok a s := by
  simp only [load, h]

theorem load_error {f : SharedMem → Except MemError α} {s : σ × SharedMem} {e : MemError}
    (h : f s.2 = .error e) :
    (load f : Half σ ε α) s = .error (.err (FromMemError.fromMem e)) s := by
  simp only [load, h]

theorem store_ok {f : SharedMem → Except MemError SharedMem} {s : σ × SharedMem}
    {m : SharedMem} (h : f s.2 = .ok m) : (store f : Half σ ε Unit) s = .ok () (s.1, m) := by
  simp only [store, h]

theorem store_error {f : SharedMem → Except MemError SharedMem} {s : σ × SharedMem}
    {e : MemError} (h : f s.2 = .error e) :
    (store f : Half σ ε Unit) s = .error (.err (FromMemError.fromMem e)) s := by
  simp only [store, h]

/-- A read leaves everything as it was, also when it fails. -/
theorem ends_load {I : σ × SharedMem → Prop} {f : SharedMem → Except MemError α}
    {s : σ × SharedMem} (h : I s) : Ends I ((load f : Half σ ε α) s) := by
  unfold load
  split
  · exact h
  · exact h

/-- A write that fails leaves everything as it was. -/
theorem ends_store_of_ok {I : σ × SharedMem → Prop} {f : SharedMem → Except MemError SharedMem}
    {s : σ × SharedMem} (h : I s) (hok : ∀ m, f s.2 = .ok m → I (s.1, m)) :
    Ends I ((store f : Half σ ε Unit) s) := by
  unfold store
  split
  · exact hok _ ‹_›
  · exact h

/-- A write changes the region only. -/
theorem ends_store {I : σ × SharedMem → Prop} {f : SharedMem → Except MemError SharedMem}
    {s : σ × SharedMem} (h : ∀ m, I (s.1, m)) : Ends I ((store f : Half σ ε Unit) s) :=
  ends_store_of_ok (h s.2) fun m _ => h m

end Half

end SystemsStudy
