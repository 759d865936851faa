/-
SystemsStudy/Violation.lean

Which error names which violation.

`ChainError::TooLong` says that the chain contains a cycle, and
`IndexOutOfRange` carries the index that is not in the table.  The iterator
tests the ttl first.  A path that uses every slot of the table has used up the
ttl when its last `next` is looked at, so if that one points outside the table
the iterator reports a cycle where there is none.

This is the only such path (`namesViolation_iff`).
-/
import SystemsStudy.Path

namespace SystemsStudy

open Fallible

/-- The destination is tested only while the ttl lasts. -/
theorem ChainIter.Fails.ttl_ne_zero {it : ChainIter} {i q : UInt16}
    (h : it.Fails (.indexOutOfRange i q)) : it.ttl ≠ 0 := by
  cases h
  assumption

namespace VirtqLayout

variable {l : VirtqLayout} {m : SharedMem} {head : UInt16} {n : ℕ}

/-- The path comes back to an index it has visited. -/
def Revisits (l : VirtqLayout) (m : SharedMem) (head : UInt16) : Prop :=
  ∃ i j a, i < j ∧ l.pathIndex m head i = some a ∧ l.pathIndex m head j = some a

/-- After `n` descriptors with nothing wrong the path names the index `j`, which
is not in the table. -/
structure LeavesTable (l : VirtqLayout) (m : SharedMem) (head : UInt16) (n : ℕ) (j : UInt16) :
    Prop where
  admits : l.Admits m head n
  index : l.pathIndex m head n = some j
  outside : l.qs ≤ j.toNat

/-- The walk from `head` reports `TooLong` only for a path that comes back, and
an index outside the table if that is the first thing wrong. -/
def NamesViolation (l : VirtqLayout) (m : SharedMem) (head : UInt16) : Prop :=
  (∀ ds limit, (ChainIter.new m l head).collect (l.qs + 1) = .ok (ds, some (.tooLong limit)) →
    l.Revisits m head) ∧
  ∀ n j, l.LeavesTable m head n j → ∃ ds, (ChainIter.new m l head).collect (l.qs + 1) =
    .ok (ds, some (.indexOutOfRange j l.queueSize))

/-- A path that leaves the table ends the longest admitted prefix. -/
theorem LeavesTable.eq_of_endsAt {j : UInt16} (h : l.LeavesTable m head n j) {k : ℕ}
    {it : ChainIter} {err : Option ChainError} (he : ChainIter.EndsAt l m head k it err) :
    k = n := by
  refine le_antisymm ?_ (he.longest n h.admits)
  by_contra hlt
  obtain ⟨i, hi, hin⟩ := he.at_.admits.inTable n (Nat.lt_of_not_le hlt)
  obtain rfl := Option.some.inj (h.index.symm.trans hi)
  have := h.outside
  omega

/-- The right violation is named exactly if the path does not use every slot of
the table before it leaves it. -/
theorem namesViolation_iff (htable : l.descTable + 16 * l.qs ≤ m.len) :
    l.NamesViolation m head ↔ ∀ j, ¬ l.LeavesTable m head l.qs j := by
  obtain ⟨k, it, err, he⟩ := ChainIter.exists_endsAt htable head
  have hcollect : (ChainIter.new m l head).collect _ = _ :=
    (ChainIter.collect_eq_ok (Nat.lt_succ_self _)).mpr he.walks
  constructor
  · rintro ⟨-, hindex⟩ j hj
    obtain rfl := hj.eq_of_endsAt he
    -- the ttl is used up, so the walk reports the length and not the index
    obtain ⟨ds, hds⟩ := hindex l.qs j hj
    obtain ⟨-, rfl⟩ := he.walks.unique ((ChainIter.collect_eq_ok (Nat.lt_succ_self _)).mp hds)
    obtain ⟨hdone, hf⟩ := he.failed _ rfl
    have httl := he.at_.ttl hdone
    exact hf.ttl_ne_zero (UInt16.toNat_inj.mp (by rw [UInt16.toNat_zero]; omega))
  · intro hno
    refine ⟨?_, ?_⟩
    · intro ds limit hds
      obtain ⟨-, rfl⟩ := he.walks.unique ((ChainIter.collect_eq_ok (Nat.lt_succ_self _)).mp hds)
      obtain ⟨rfl, j, hj⟩ := he.of_tooLong
      have hin : j.toNat < l.qs := by
        by_contra hout
        exact hno j ⟨he.at_.admits, hj, Nat.le_of_not_lt hout⟩
      obtain ⟨a, b, c, hab, -, ha, hb⟩ := exists_revisit (Nat.lt_succ_self l.qs) fun i hi => by
        rcases Nat.lt_succ_iff_lt_or_eq.mp hi with hi | rfl
        · exact he.at_.admits.inTable i hi
        · exact ⟨j, hj, hin⟩
      exact ⟨a, b, c, hab, ha, hb⟩
    · intro n j hj
      obtain rfl := hj.eq_of_endsAt he
      have hlt : k < l.qs := by
        refine lt_of_le_of_ne he.at_.admits.length_le ?_
        rintro rfl
        exact hno j hj
      rcases err with - | e
      · have hend := he.at_.ended (he.finished rfl)
        rw [hj.index] at hend
        cases hend
      · obtain ⟨hdone, hf⟩ := he.failed e rfl
        have httl := he.at_.ttl hdone
        obtain rfl : j = it.nextIndex :=
          Option.some.inj (hj.index.symm.trans (he.at_.index hdone))
        have hindex : it.Fails (.indexOutOfRange it.nextIndex it.layout.queueSize) := by
          refine .indexOutOfRange ?_ ?_
          · intro hz
            rw [hz, UInt16.toNat_zero] at httl
            omega
          · rw [he.at_.layout]
            exact hj.outside
        obtain rfl := hf.unique hindex
        exact ⟨_, by rw [← he.at_.layout] at hcollect ⊢; exact hcollect⟩

theorem namesViolation_iff_escaping :
    unitQueue.NamesViolation escaping 0 ↔ ∀ j, ¬ unitQueue.LeavesTable escaping 0 unitQueue.qs j :=
  namesViolation_iff (by decide)

/-- The path uses the only slot and then leaves the table for the index 60000;
the walk reports a cycle. -/
theorem full_path_is_called_a_cycle :
    unitQueue.LeavesTable escaping 0 1 60000 ∧
    (ChainIter.new escaping unitQueue 0).collect 2 =
      .ok ([unitQueue.entry escaping 0], some (.tooLong 1)) ∧
    ¬ unitQueue.Revisits escaping 0 ∧ ¬ unitQueue.NamesViolation escaping 0 := by
  have hzero : unitQueue.pathIndex escaping 0 0 = some 0 := rfl
  have hone : unitQueue.pathIndex escaping 0 1 = some 60000 := by decide +kernel
  have htwo : unitQueue.pathIndex escaping 0 2 = none := by decide +kernel
  have hleaves : unitQueue.LeavesTable escaping 0 1 60000 := by
    refine ⟨⟨le_rfl, fun i hi => ?_, ?_, ?_, ?_⟩, hone, by decide⟩
    · obtain rfl : i = 0 := by omega
      exact ⟨0, hzero, by decide⟩
    · decide +kernel
    · decide +kernel
    · exact List.pairwise_singleton _ _
  have hwalk : (ChainIter.new escaping unitQueue 0).collect 2 =
      .ok ([unitQueue.entry escaping 0], some (.tooLong 1)) := by decide +kernel
  refine ⟨hleaves, hwalk, ?_, fun h => ?_⟩
  · -- a path that revisits never ends, and this one ends after two indices
    rintro ⟨i, j, a, hij, hi, hj⟩
    exact Chase.ne_none_of_repeat hij hi hj 2 htwo
  · obtain ⟨ds, hds⟩ := h.2 1 60000 hleaves
    cases hwalk.symm.trans hds

end VirtqLayout

end SystemsStudy
