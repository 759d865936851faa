/-
SystemsStudy/Placement.lean

Where `VirtqLayout::new` puts the fields of the rings.

A `Field` is one of the things the accessors give the address of: a descriptor,
a slot, half a used element, or one of the six 16-bit words around the slots.
Two of them that share a byte are the same field (`Field.eq_of_overlap`), for
every base address and every queue size.

The slots are numbered by position in the ring here, below the queue size.  The
accessors take the free-running counter instead; a queue size that divides
`2 ^ 16` makes the slot of a counter the one of its unbounded publication
number, so publications less than a turn apart never share a slot.
-/
import SystemsStudy.Driver

namespace SystemsStudy

namespace VirtqLayout

variable {l : VirtqLayout}

/-- A field of the layout. -/
inductive Field (l : VirtqLayout) where
  | desc (i : ℕ) (hi : i < l.qs)
  | availFlags
  | availIdx
  | availSlot (i : ℕ) (hi : i < l.qs)
  | usedEvent
  | usedFlags
  | usedIdx
  | usedId (i : ℕ) (hi : i < l.qs)
  | usedLen (i : ℕ) (hi : i < l.qs)
  | availEvent

/-- The parts of the layout, in order. -/
inductive Part where
  | table
  | avail
  | used

namespace Part

/-- The first address of a part. -/
def first (l : VirtqLayout) : Part → ℕ
  | table => l.descTable
  | avail => l.availRing
  | used => l.usedRing

/-- The first address after a part. -/
def last (l : VirtqLayout) : Part → ℕ
  | table => l.descTable + 16 * l.qs
  | avail => l.availRing + 6 + 2 * l.qs
  | used => l.endAddr

theorem inside (p : Part) : l.descTable ≤ p.first l ∧ p.last l ≤ l.endAddr := by
  have hlay := l.bounds
  cases p <;> simp only [first, last] <;> omega

theorem apart {p q : Part} (h : p ≠ q) : p.last l ≤ q.first l ∨ q.last l ≤ p.first l := by
  have hlay := l.bounds
  cases p <;> cases q <;> first | exact absurd rfl h | (simp only [first, last]; omega)

end Part

namespace Field

/-- The part of the queue a field belongs to. -/
def part : Field l → Part
  | desc _ _ => .table
  | availFlags | availIdx | availSlot _ _ | usedEvent => .avail
  | usedFlags | usedIdx | usedId _ _ | usedLen _ _ | availEvent => .used

/-- The address the accessor returns. -/
def start : Field l → ℕ
  | desc i _ => l.descAddr (UInt16.ofNat i)
  | availFlags => l.availFlags
  | availIdx => l.availIdx
  | availSlot i _ => l.availSlot (UInt16.ofNat i)
  | usedEvent => l.usedEvent
  | usedFlags => l.usedFlags
  | usedIdx => l.usedIdx
  | usedId i _ => (l.usedSlot (UInt16.ofNat i)).1
  | usedLen i _ => (l.usedSlot (UInt16.ofNat i)).2
  | availEvent => l.availEvent

/-- How many bytes a field has. -/
def size : Field l → ℕ
  | desc _ _ => descSize
  | usedId _ _ => 4
  | usedLen _ _ => 4
  | _ => 2

/-- The alignment the specification requires. -/
def align : Field l → ℕ
  | desc _ _ => 16
  | usedId _ _ => 4
  | usedLen _ _ => 4
  | _ => 2

/-- The first address after the field. -/
def stop (f : Field l) : ℕ := f.start + f.size

/-! ### The addresses -/

theorem toNat_index {i : ℕ} (hi : i < l.qs) : (UInt16.ofNat i).toNat = i := by
  have hqs := l.qs_le
  rw [UInt16.toNat_ofNat', Nat.mod_eq_of_lt (by omega)]

@[simp] theorem start_desc (i : ℕ) (hi : i < l.qs) :
    (desc i hi).start = l.descTable + 16 * i := by
  rw [start, descAddr, toNat_index hi]

@[simp] theorem start_availFlags : (availFlags : Field l).start = l.availRing := rfl

@[simp] theorem start_availIdx : (availIdx : Field l).start = l.availRing + 2 := rfl

@[simp] theorem start_availSlot (i : ℕ) (hi : i < l.qs) :
    (availSlot i hi).start = l.availRing + 4 + 2 * i := by
  rw [start, availSlot_ofNat, Nat.mod_eq_of_lt hi]

@[simp] theorem start_usedEvent : (usedEvent : Field l).start = l.availRing + 4 + l.qs * 2 := rfl

@[simp] theorem start_usedFlags : (usedFlags : Field l).start = l.usedRing := rfl

@[simp] theorem start_usedIdx : (usedIdx : Field l).start = l.usedRing + 2 := rfl

@[simp] theorem start_usedId (i : ℕ) (hi : i < l.qs) :
    (usedId i hi).start = l.usedRing + 4 + 8 * i := by
  rw [start, usedSlot_ofNat, Nat.mod_eq_of_lt hi]

@[simp] theorem start_usedLen (i : ℕ) (hi : i < l.qs) :
    (usedLen i hi).start = l.usedRing + 8 + 8 * i := by
  rw [start, usedSlot_ofNat, Nat.mod_eq_of_lt hi]

@[simp] theorem start_availEvent : (availEvent : Field l).start = l.usedRing + 4 + l.qs * 8 := rfl

/-- Every field lies in its part. -/
theorem mem_part (f : Field l) : f.part.first l ≤ f.start ∧ f.stop ≤ f.part.last l := by
  have hlay := l.bounds
  cases f <;> simp [part, Part.first, Part.last, stop, size, descSize] <;> omega

theorem bounds (f : Field l) : l.descTable ≤ f.start ∧ f.stop ≤ l.endAddr :=
  ⟨f.part.inside.1.trans f.mem_part.1, f.mem_part.2.trans f.part.inside.2⟩

/-- The parts are aligned, and the fields keep the distance of their size. -/
theorem align_dvd (f : Field l) : f.align ∣ f.start := by
  have h₁ := l.table_aligned
  have h₂ := l.avail_aligned
  have h₃ := l.used_aligned
  cases f <;> simp only [align, start_desc, start_availFlags, start_availIdx, start_availSlot,
    start_usedEvent, start_usedFlags, start_usedIdx, start_usedId, start_usedLen,
    start_availEvent] <;> omega

/-- Fields that share a byte are in one part, and there the same. -/
theorem eq_of_overlap {f g : Field l} (h₁ : f.start < g.stop) (h₂ : g.start < f.stop) : f = g := by
  have hpart : f.part = g.part := by
    by_contra hne
    have hf := f.mem_part
    have hg := g.mem_part
    have hapart := Part.apart (l := l) hne
    omega
  cases f <;> cases g <;> cases hpart <;>
    simp [stop, size, descSize] at h₁ h₂ ⊢ <;> omega

end Field

theorem le_descTable_of_new {base : ℕ} {queueSize : UInt16}
    (h : VirtqLayout.new base queueSize = some l) :
    base ≤ l.descTable ∧ l.queueSize = queueSize := by
  unfold VirtqLayout.new at h
  split at h
  · dsimp only at h
    split at h
    · cases h
      exact ⟨le_alignUp (by decide), rfl⟩
    · cases h
  · cases h

/-- Publications less than a turn of the ring apart are in distinct slots. -/
theorem slots_ne {n i j : ℕ} (hij : i < j) (hj : j < l.qs) :
    l.availSlot (UInt16.ofNat (n + i)) ≠ l.availSlot (UInt16.ofNat (n + j)) ∧
      l.usedSlot (UInt16.ofNat (n + i)) ≠ l.usedSlot (UInt16.ofNat (n + j)) := by
  have hne : (n + i) % l.qs ≠ (n + j) % l.qs := Rolling.mod_ne_mod (by omega) (by omega)
  rw [availSlot_ofNat, availSlot_ofNat, usedSlot_ofNat, usedSlot_ofNat]
  refine ⟨by omega, fun h => ?_⟩
  have h₁ := congrArg Prod.fst h
  dsimp only at h₁
  omega

/-- For every base and queue size that `VirtqLayout::new` takes: the fields lie
between the descriptor table, which does not begin before the base, and the end
of the layout; they are aligned, and no two share a byte.  For every
publication number the slot of its 16-bit counter is the one of the number
modulo the queue size, and `queue_size` publications in a row have as many
slots. -/
theorem layout_sound {base : ℕ} {queueSize : UInt16}
    (h : VirtqLayout.new base queueSize = some l) :
    base ≤ l.descTable ∧ l.qs = queueSize.toNat ∧
    (∀ i (hi : i < l.qs), l.desc (UInt16.ofNat i) = some (Field.desc i hi).start) ∧
    (∀ f : Field l, l.descTable ≤ f.start ∧ f.stop ≤ l.endAddr ∧ f.align ∣ f.start) ∧
    (∀ f g : Field l, f ≠ g → f.stop ≤ g.start ∨ g.stop ≤ f.start) ∧
    (∀ n, l.availSlot (UInt16.ofNat n) =
        (Field.availSlot (n % l.qs) (Nat.mod_lt n l.qs_pos)).start ∧
      l.usedSlot (UInt16.ofNat n) =
        ((Field.usedId (n % l.qs) (Nat.mod_lt n l.qs_pos)).start,
          (Field.usedLen (n % l.qs) (Nat.mod_lt n l.qs_pos)).start)) ∧
    ∀ n i j, i < j → j < l.qs →
      l.availSlot (UInt16.ofNat (n + i)) ≠ l.availSlot (UInt16.ofNat (n + j)) ∧
      l.usedSlot (UInt16.ofNat (n + i)) ≠ l.usedSlot (UInt16.ofNat (n + j)) := by
  obtain ⟨hbase, hsize⟩ := le_descTable_of_new h
  refine ⟨hbase, by rw [qs, hsize], fun i hi => ?_, fun f => ⟨f.bounds.1, f.bounds.2, f.align_dvd⟩,
    fun f g hne => ?_, fun n => ⟨?_, ?_⟩, fun n i j => slots_ne⟩
  · exact l.desc_eq_some.mpr ⟨by rw [Field.toNat_index hi]; exact hi, by rw [Field.start, descAddr]⟩
  · -- two fields that overlap are one field
    by_contra hno
    rw [not_or, Nat.not_le, Nat.not_le] at hno
    exact hne (Field.eq_of_overlap hno.2 hno.1)
  · rw [Field.start_availSlot, availSlot_ofNat]
  · rw [Field.start_usedId, Field.start_usedLen, usedSlot_ofNat]

theorem layout_sound_pairQueue :
    VirtqLayout.new 0 2 = some pairQueue ∧
    (∀ f g : Field pairQueue, f ≠ g → f.stop ≤ g.start ∨ g.stop ≤ f.start) ∧
    pairQueue.availSlot (UInt16.ofNat 65535) ≠ pairQueue.availSlot (UInt16.ofNat 65536) := by
  have h : VirtqLayout.new 0 2 = some pairQueue := by decide
  obtain ⟨-, -, -, -, hapart, -, hslots⟩ := layout_sound h
  exact ⟨h, hapart, (hslots 65535 0 1 (by decide) (by decide)).1⟩

end VirtqLayout

end SystemsStudy
