/-
SystemsStudy/Kvm/Load.lean

`vmm.rs`: copying bytes into guest RAM, `Vm::load`.

Guest RAM is a mapping of the process, and the copy is a raw one: it stores to
host addresses, wherever they are, and the process dies if one of them cannot be
written (`none`).  So all of the process's memory is part of the model, and the
only thing between the copy and the rest of it is the bounds check.

The check adds an address and a length with `+`, which wraps in a release build.
It is exact as long as the sum does not wrap, or wraps to something that is
still too large (`Vm.load_exact_iff`).
-/
import SystemsStudy.Mem
import SystemsStudy.Kvm.Run

namespace SystemsStudy.Kvm

/-- A slice of bytes.  No slice is longer than `isize::MAX`. -/
structure ByteSlice where
  bytes : List UInt8
  len_lt : bytes.length < 2 ^ 63

/-- The length of a slice, below `isize::MAX`. -/
def ByteSlice.len (s : ByteSlice) : ℕ := s.bytes.length

/-- A virtual machine inside its process. -/
structure Vm where
  /-- where guest RAM is mapped -/
  ptr : UInt64
  memSize : ℕ
  /-- the process, by host address -/
  memory : UInt64 → UInt8
  writable : UInt64 → Bool
  -- what `Vm::new` asserts
  memSize_aligned : memSize % 4096 = 0
  memSize_pos : 0 < memSize
  -- what `mmap` returns
  memSize_lt : memSize < 2 ^ 63
  end_le : ptr.toNat + memSize ≤ 2 ^ 64
  ram_writable : ∀ i < memSize, writable (ptr + UInt64.ofNat i) = true

namespace Vm

/-- Byte `i` of guest RAM. -/
def ram (vm : Vm) (i : ℕ) : UInt8 := vm.memory (vm.ptr + UInt64.ofNat i)

/-- The raw copy, to the `bytes.len` host addresses from `dst` on. -/
def copyNonoverlapping (vm : Vm) (dst : UInt64) (bytes : ByteSlice) : Option Vm :=
  if ∀ i < bytes.len, vm.writable (dst + UInt64.ofNat i) = true then
    some { vm with
      memory := fun a =>
        if (a - dst).toNat < bytes.len then bytes.bytes.getD (a - dst).toNat 0
        else vm.memory a }
  else none

/-- Copy bytes into guest physical memory. -/
def load (vm : Vm) (gpa : UInt64) (bytes : ByteSlice) : Option (Except RunError Unit × Vm) :=
  let stop := gpa + UInt64.ofNat bytes.len
  if stop.toNat > vm.memSize then
    some (.error (.other ("load of " ++ toString bytes.len ++ " bytes at 0x" ++
      String.ofList (Nat.toDigits 16 gpa.toNat) ++ " exceeds " ++ toString vm.memSize ++
      " bytes of guest RAM")), vm)
  else (vm.copyNonoverlapping (vm.ptr + gpa) bytes).map fun vm => (.ok (), vm)

/-! ### What a load should do -/

/-- The slice was stored at `gpa`, and nothing else in the process changed. -/
structure Loaded (vm vm' : Vm) (gpa : UInt64) (bytes : ByteSlice) : Prop where
  ptr : vm'.ptr = vm.ptr
  memSize : vm'.memSize = vm.memSize
  stored : ∀ i < bytes.len, vm'.ram (gpa.toNat + i) = bytes.bytes.getD i 0
  kept : ∀ a, (∀ i < bytes.len, a ≠ vm.ptr + UInt64.ofNat (gpa.toNat + i)) →
    vm'.memory a = vm.memory a

/-- The load succeeds exactly if the range lies in guest RAM, and changes the
range or nothing.  It agrees with the bounds check of the shared region. -/
structure LoadsExactly (vm : Vm) (gpa : UInt64) (bytes : ByteSlice) : Prop where
  inside : gpa.toNat + bytes.len ≤ vm.memSize →
    ∃ vm', vm.load gpa bytes = some (.ok (), vm') ∧ Loaded vm vm' gpa bytes
  outside : vm.memSize < gpa.toNat + bytes.len →
    ∃ e, vm.load gpa bytes = some (.error e, vm)
  agrees : ∀ m : SharedMem, m.len = vm.memSize →
    ((∃ vm', vm.load gpa bytes = some (.ok (), vm')) ↔
      ∃ r, m.range gpa.toNat bytes.len = .ok r)

section Loads

variable {vm : Vm} {gpa : UInt64} {bytes : ByteSlice}

/-- The sum in the check, as an exact number. -/
theorem toNat_stop (gpa : UInt64) (bytes : ByteSlice) :
    (gpa + UInt64.ofNat bytes.len).toNat =
      if gpa.toNat + bytes.len < 2 ^ 64 then gpa.toNat + bytes.len
      else gpa.toNat + bytes.len - 2 ^ 64 := by
  have hgpa := gpa.toNat_lt
  have hlen : bytes.len < 2 ^ 63 := bytes.len_lt
  rw [UInt64.toNat_add, UInt64.toNat_ofNat']
  split <;> omega

/-- A range of guest RAM is stored as it should be. -/
theorem loaded_copy (hin : gpa.toNat + bytes.len ≤ vm.memSize) :
    ∃ vm', vm.copyNonoverlapping (vm.ptr + gpa) bytes = some vm' ∧ Loaded vm vm' gpa bytes := by
  have hend := vm.end_le
  have hlen : bytes.len < 2 ^ 63 := bytes.len_lt
  have haddr : ∀ i, vm.ptr + UInt64.ofNat (gpa.toNat + i) = vm.ptr + gpa + UInt64.ofNat i := by
    intro i
    rw [UInt64.ofNat_add, UInt64.ofNat_toNat, UInt64.add_assoc]
  have hwritable : ∀ i < bytes.len, vm.writable (vm.ptr + gpa + UInt64.ofNat i) = true := by
    intro i hi
    rw [← haddr]
    exact vm.ram_writable _ (by omega)
  refine ⟨_, if_pos hwritable, rfl, rfl, ?_, ?_⟩
  · -- inside the destination the offset of an address is its index
    intro i hi
    have hoff : (vm.ptr + UInt64.ofNat (gpa.toNat + i) - (vm.ptr + gpa)).toNat = i := by
      rw [haddr, UInt64.add_comm (vm.ptr + gpa), UInt64.add_sub_cancel, UInt64.toNat_ofNat',
        Nat.mod_eq_of_lt (by omega)]
    show (if (vm.ptr + UInt64.ofNat (gpa.toNat + i) - (vm.ptr + gpa)).toNat < bytes.len then
      bytes.bytes.getD (vm.ptr + UInt64.ofNat (gpa.toNat + i) - (vm.ptr + gpa)).toNat 0 else _) = _
    rw [hoff, if_pos hi]
  · -- an address that is no destination is at an offset past the bytes
    intro a ha
    have hmiss : ¬ (a - (vm.ptr + gpa)).toNat < bytes.len := by
      intro hlt
      apply ha _ hlt
      rw [haddr, UInt64.ofNat_toNat, UInt64.add_comm, UInt64.sub_add_cancel]
    exact if_neg hmiss

/-- A load inside guest RAM succeeds. -/
theorem load_of_inside (hin : gpa.toNat + bytes.len ≤ vm.memSize) :
    ∃ vm', vm.load gpa bytes = some (.ok (), vm') ∧ Loaded vm vm' gpa bytes := by
  have hmem := vm.memSize_lt
  obtain ⟨vm', hcopy, hloaded⟩ := loaded_copy hin
  have hload : vm.load gpa bytes =
      if vm.memSize < (gpa + UInt64.ofNat bytes.len).toNat then _ else _ := rfl
  have hcheck : ¬ vm.memSize < (gpa + UInt64.ofNat bytes.len).toNat := by
    rw [toNat_stop, if_pos (by omega)]
    omega
  rw [if_neg hcheck, hcopy] at hload
  exact ⟨vm', hload, hloaded⟩

/-- When the check is the exact one. -/
theorem check_exact_iff :
    (vm.memSize < (gpa + UInt64.ofNat bytes.len).toNat ↔ vm.memSize < gpa.toNat + bytes.len) ↔
      gpa.toNat + bytes.len < 2 ^ 64 ∨ vm.memSize < gpa.toNat + bytes.len - 2 ^ 64 := by
  have hmem := vm.memSize_lt
  rw [toNat_stop]
  split
  next h => exact iff_of_true Iff.rfl (.inl h)
  next h => omega

/-- For every machine, address and slice: the load is exact if and only if the
64-bit sum of address and length does not wrap, or wraps to something past the
end of guest RAM. -/
theorem load_exact_iff (vm : Vm) (gpa : UInt64) (bytes : ByteSlice) :
    vm.LoadsExactly gpa bytes ↔
      gpa.toNat + bytes.len < 2 ^ 64 ∨ vm.memSize < gpa.toNat + bytes.len - 2 ^ 64 := by
  have hload : vm.load gpa bytes =
      if vm.memSize < (gpa + UInt64.ofNat bytes.len).toNat then _ else _ := rfl
  rw [← check_exact_iff]
  constructor
  · intro h
    by_contra hno
    -- the check passes for a range that is not in guest RAM
    have hwrong : vm.memSize < gpa.toNat + bytes.len ∧
        ¬ vm.memSize < (gpa + UInt64.ofNat bytes.len).toNat := by
      have hle : (gpa + UInt64.ofNat bytes.len).toNat ≤ gpa.toNat + bytes.len := by
        rw [toNat_stop]
        split <;> omega
      omega
    obtain ⟨e, he⟩ := h.outside hwrong.1
    rw [hload, if_neg hwrong.2] at he
    obtain ⟨vm', -, hvm'⟩ := Option.map_eq_some_iff.mp he
    cases hvm'
  · intro hcheck
    by_cases hin : gpa.toNat + bytes.len ≤ vm.memSize
    · obtain ⟨vm', hok, hloaded⟩ := load_of_inside hin
      refine ⟨fun _ => ⟨vm', hok, hloaded⟩, fun hout => absurd hin (Nat.not_le.mpr hout), ?_⟩
      intro m hm
      exact iff_of_true ⟨vm', hok⟩ ⟨_, by rw [m.range_eq, if_pos (hm ▸ hin)]⟩
    · have herr := hload
      rw [if_pos (hcheck.mpr (Nat.not_le.mp hin))] at herr
      refine ⟨fun h => absurd h hin, fun _ => ⟨_, herr⟩, ?_⟩
      intro m hm
      rw [herr, m.range_eq, if_neg (hm ▸ hin)]
      apply iff_of_false
      · rintro ⟨_, h⟩
        cases h
      · rintro ⟨_, h⟩
        cases h

end Loads

/-- One page of guest RAM, in a process that can write everywhere. -/
def onePageVm : Vm where
  ptr := 0x10000
  memSize := 4096
  memory _ := 0
  writable _ := true
  memSize_aligned := rfl
  memSize_pos := by decide
  memSize_lt := by decide
  end_le := by decide
  ram_writable _ _ := rfl

/-- The last 64-bit address and one byte wrap to zero.  The byte is stored just
below guest RAM, and the load succeeds. -/
theorem load_escapes :
    (∃ vm', onePageVm.load 0xffffffffffffffff ⟨[7], by decide⟩ = some (.ok (), vm') ∧
      vm'.memory 0xffff = 7) ∧
    ¬ onePageVm.LoadsExactly 0xffffffffffffffff ⟨[7], by decide⟩ := by
  constructor
  · exact ⟨_, rfl, rfl⟩
  · intro h
    obtain ⟨e, he⟩ := h.outside (by decide)
    cases he

end Vm

end SystemsStudy.Kvm
