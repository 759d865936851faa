/-
SystemsStudy/Abort.lean

What a failed operation of the device leaves behind.

`addUsed` advances both counters before its last store and `enableNotification`
stores before its last load, so either could fail half done.  Neither does, by
the order of the parts in the layout: the used index lies in front of every
used slot, and the avail index in front of everything the device writes.  An
access that comes late in an operation thus lies below one that succeeded, for
every queue and wherever the region ends.
-/
import SystemsStudy.Device

namespace SystemsStudy

open Bytes Fallible

namespace Device

open Half

variable {d : Device} {m : SharedMem} {f : Fault MemError} {s : Device × SharedMem}

theorem available_outside (h : m.len < d.layout.availIdx + 2) :
    ∃ e, available (d, m) = .error (.err e) (d, m) := by
  have hl := m.readU16_eq d.layout.availIdx
  rw [if_neg (Nat.not_le.mpr h)] at hl
  unfold available
  rw [bind_ok (self_run _), bind_error (load_error hl)]
  exact ⟨_, rfl⟩

/-- Popping reads the index and then the slot, and changes nothing before. -/
theorem popChainHead_error (h : popChainHead (d, m) = .error f s) : s = (d, m) := by
  by_cases hin : d.layout.availIdx + 2 ≤ m.len
  · unfold popChainHead at h
    rw [bind_ok (available_of_inside hin)] at h
    split at h
    · cases h
    · rw [bind_ok (self_run _)] at h
      rcases hl : m.readU16 (d.layout.availSlot d.nextAvail) with e | head
      · rw [bind_error (load_error hl)] at h
        cases h
        rfl
      · rw [bind_ok (load_ok hl)] at h
        cases h
  · obtain ⟨e, hav⟩ := available_outside (Nat.not_le.mp hin)
    unfold popChainHead at h
    rw [bind_error hav] at h
    cases h
    rfl

/-- The used index is in the region if the slot is, so a completion fails at
its slot or not at all. -/
theorem addUsed_aborts {head : UInt16} {len : UInt32} (h : addUsed head len (d, m) = .error f s) :
    s.1 = d ∧ (s.2 = m ∨
      s.2 = m.put (d.layout.usedSlot d.nextUsed).1 (toLe 4 head.toUInt32.toNat)) := by
  rcases Nat.lt_or_ge m.len (d.layout.usedBase d.nextUsed + 8) with hout | hin
  · obtain ⟨e, m', he, hm'⟩ := addUsed_fails hout head len
    cases he.symm.trans h
    exact ⟨rfl, hm'⟩
  · cases (addUsed_ok hin head len).symm.trans h

theorem needsNotification_error (h : needsNotification (d, m) = .error f s) : s = (d, m) := by
  unfold needsNotification at h
  rw [bind_ok (self_run _)] at h
  split at h
  · cases h
  · rcases hl : m.loadRelaxed d.layout.usedEvent with e | event
    · rw [bind_error (load_error hl)] at h
      cases h
      rfl
    · rw [bind_ok (load_ok hl)] at h
      cases h

/-- The avail index is in the region if what was stored to before is. -/
theorem enableNotification_error (h : enableNotification (d, m) = .error f s) : s = (d, m) := by
  have hlay := d.layout.bounds
  have hs := m.writeU16_eq d.layout.availEvent d.nextAvail
  have hl := m.readU16_eq d.layout.usedFlags
  have hs' := m.writeU16_eq d.layout.usedFlags
    (m.word16 d.layout.usedFlags &&& ~~~virtqUsedFNoNotify)
  unfold enableNotification at h
  rw [bind_ok (self_run _)] at h
  by_cases he : d.eventIdx = true
  · -- with EVENT_IDX one word is stored, and the load after it cannot fail
    rw [if_pos he] at h
    by_cases hin : d.layout.availEvent + 2 ≤ m.len
    · rw [if_pos hin] at hs
      have hav := available_of_inside (d := d)
        (m := m.put d.layout.availEvent (toLe 2 d.nextAvail.toNat)) (by
          rw [SharedMem.len_put]
          omega)
      rw [bind_ok (store_ok hs)] at h
      dsimp only at h
      rw [bind_ok hav] at h
      cases h
    · rw [if_neg hin] at hs
      rw [bind_error (store_error hs)] at h
      cases h
      rfl
  · -- without it the flag word is loaded and stored at the same place
    rw [if_neg he] at h
    by_cases hin : d.layout.usedFlags + 2 ≤ m.len
    · rw [if_pos hin] at hl hs'
      have hav := available_of_inside (d := d) (m := m.put d.layout.usedFlags
        (toLe 2 (m.word16 d.layout.usedFlags &&& ~~~virtqUsedFNoNotify).toNat)) (by
          rw [SharedMem.len_put]
          omega)
      rw [bind_ok (load_ok hl), bind_ok (store_ok hs')] at h
      dsimp only at h
      rw [bind_ok hav] at h
      cases h
    · rw [if_neg hin] at hl
      rw [bind_error (load_error hl)] at h
      cases h
      rfl

theorem disableNotification_error (h : disableNotification (d, m) = .error f s) : s = (d, m) := by
  have hl := m.readU16_eq d.layout.usedFlags
  have hs := m.writeU16_eq d.layout.usedFlags (m.word16 d.layout.usedFlags ||| virtqUsedFNoNotify)
  unfold disableNotification at h
  rw [bind_ok (self_run _)] at h
  split at h
  · cases h
  · by_cases hin : d.layout.usedFlags + 2 ≤ m.len
    · rw [if_pos hin] at hl hs
      rw [bind_ok (load_ok hl), store_ok hs] at h
      cases h
    · rw [if_neg hin] at hl
      rw [bind_error (load_error hl)] at h
      cases h
      rfl

/-- The used slots do not meet the used index. -/
theorem word16_usedIdx_put_id (v : UInt32) :
    (m.put (d.layout.usedSlot d.nextUsed).1 (toLe 4 v.toNat)).word16 d.layout.usedIdx =
      m.word16 d.layout.usedIdx := by
  refine SharedMem.SameOn.word16_eq (m.sameOn_put (.inl ?_))
  exact d.layout.usedIdx_add_le d.nextUsed

/-- Whatever the device, the region and its length: an operation that fails
leaves the counters as they were, and the region too, except that `addUsed` may
have written the id of the next used slot, which the used index does not
advertise. -/
theorem operations_atomic_on_error (d : Device) (m : SharedMem) :
    (∀ f s, popChainHead (d, m) = .error f s → s = (d, m)) ∧
    (∀ head len f s, addUsed head len (d, m) = .error f s →
      s.1 = d ∧ s.2.word16 d.layout.usedIdx = m.word16 d.layout.usedIdx ∧
      (s.2 = m ∨ s.2 = m.put (d.layout.usedSlot d.nextUsed).1 (toLe 4 head.toUInt32.toNat))) ∧
    (∀ f s, needsNotification (d, m) = .error f s → s = (d, m)) ∧
    (∀ f s, enableNotification (d, m) = .error f s → s = (d, m)) ∧
    ∀ f s, disableNotification (d, m) = .error f s → s = (d, m) := by
  refine ⟨fun f s => popChainHead_error, fun head len f s h => ?_,
    fun f s => needsNotification_error, fun f s => enableNotification_error,
    fun f s => disableNotification_error⟩
  obtain ⟨hd, hm⟩ := addUsed_aborts h
  refine ⟨hd, ?_, hm⟩
  rcases hm with hm | hm
  · rw [hm]
  · rw [hm, word16_usedIdx_put_id]

end Device

end SystemsStudy
