/-
SystemsStudy/RoundTrip.lean

Encoding and decoding in the states the halves can reach.

Two facts about a call of `addChain` that returned a head.  Over any region
that covers the layout, whatever order the free list is in, the chain at that
head reads back as the buffers.  And in a system whose buffers stay clear of
the queue, the chains that were outstanding before decode as they did.
-/
import SystemsStudy.Exchange

namespace SystemsStudy

open Fallible

namespace Driver

variable {d : Driver} {m : SharedMem} {bufs : List Buffer} {head : UInt16}
  {t : Driver × SharedMem}

/-- What a successful `addChain` leaves in the table: the new chain, at indices
that were free. -/
theorem encoded_of_addChain (h : d.Owned) (hcov : d.layout.Covered m)
    (hok : addChain bufs (d, m) = .ok head t) :
    ∃ rest pos, Encoded d.layout t.2 (head :: rest) bufs ∧
      t.2 = putChain d.layout m pos head (chainEntries (head :: rest) bufs) ∧
      ∀ i ∈ head :: rest, i ∈ d.freeDescs := by
  obtain ⟨rest, free, hne, hord, hlen, hfree, rfl⟩ := addChain_inv h hcov hok
  have hmem : ∀ i ∈ head :: rest, i ∈ d.freeDescs := fun i hi => mem_of_popped hfree hi
  have hshort : (head :: rest).length ≤ d.layout.qs := by
    have hpool := h.length_keys_le
    rw [VirtqLayout.length_indices] at hpool
    have hlen' : d.pool.free.length = free.length + (head :: rest).length := by
      show d.freeDescs.length = _
      rw [hfree, List.length_append, List.length_reverse]
    omega
  exact ⟨rest, d.availIdx, encoded_putChain hcov hlen hne hord
    (fun i hi => h.lt_of_free (hmem i hi)) (h.nodup_popped hfree) hshort, rfl, hmem⟩

end Driver

/-- The chain `addChain` published reads back as its buffers; and in a system
whose buffers never overlap the queue, the chains outstanding before the call
still decode to what they decoded to. -/
theorem addChain_round_trip {l : VirtqLayout} {arenaEnd : ℕ} {eventIdx : Bool}
    {d₀ : Driver} (hnew : Driver.new l arenaEnd eventIdx = some d₀) :
    (∀ (script : List (DriverOp × SharedMem)), (∀ o ∈ script, o.1.Asserts) →
      ∀ m, l.Covered m → ∀ bufs head t,
        Driver.addChain bufs (d₀.runScript script, m) = .ok head t →
        ReadsBack bufs ((ChainIter.new t.2 l head).collect (l.qs + 1))) ∧
    (∀ m, l.Covered m → m.word16 l.availIdx = 0 → m.word16 l.usedIdx = 0 →
      ∀ (ops : List Op) (eventIdx' : Bool), (∀ o ∈ ops, o.Admissible l) →
      let s := (Relay.execAll System.exec (System.init m d₀ eventIdx') ops).1
      ∀ bufs head t, Driver.addChain bufs (s.driver, s.mem) = .ok head t →
        ∀ k ∈ s.driver.outstanding,
          (ChainIter.new t.2 l k).collect (l.qs + 1) =
            (ChainIter.new s.mem l k).collect (l.qs + 1)) := by
  constructor
  · intro script hscript m hcov bufs head t hok
    obtain ⟨h₀, hl₀⟩ := Driver.owned_of_new hnew
    obtain ⟨h, hl⟩ := h₀.runScript hscript
    have hl' : (d₀.runScript script).layout = l := hl.trans hl₀
    obtain ⟨rest, pos, henc, heq, -⟩ := Driver.encoded_of_addChain h (by rwa [hl']) hok
    have hcov' : l.Covered t.2 := by
      rw [VirtqLayout.Covered, heq, Driver.len_putChain]
      exact hcov
    rw [hl'] at henc
    exact henc.readsBack hcov'
  · intro m hcov havail hused ops eventIdx' hops s bufs head t hok k hk
    obtain ⟨q, -, hrep⟩ := @exists_represented l m arenaEnd eventIdx eventIdx' d₀ hnew hcov havail
      hused ops hops
    obtain ⟨rest, pos, henc, heq, hfree⟩ :=
      Driver.encoded_of_addChain hrep.owned hrep.driverCovered hok
    rw [hrep.driverLayout] at henc heq
    obtain ⟨rest', hlook⟩ := hrep.exists_indices (hrep.keys.mem_iff.mpr (AList.mem_keys.mp hk))
    obtain ⟨bufs', henc', -⟩ := hrep.chains k _ hlook
    -- the descriptors written were free, those of an outstanding chain are not
    have hstay : Encoded l t.2 (k :: rest') bufs' := by
      rw [heq]
      apply Driver.encoded_putChain_of_disjoint henc' henc.len_eq
      intro i hi hi'
      exact hrep.owned.not_mem_of_free VirtqLayout.nodup_indices (hfree i hi) hlook hi'
    have hcov' : l.Covered t.2 := by
      rw [VirtqLayout.Covered, heq, Driver.len_putChain]
      exact hrep.covered
    rw [hstay.collect hcov', henc'.collect hrep.covered]

/-- Two chains of a fresh driver: the second leaves the first as it was. -/
theorem addChain_round_trip_pairQueue :
    (∃ t, Driver.addChain [⟨80, 1, false⟩, ⟨81, 2, true⟩] (pairDriver, emptyRegion) = .ok 0 t ∧
      ReadsBack [⟨80, 1, false⟩, ⟨81, 2, true⟩] ((ChainIter.new t.2 pairQueue 0).collect 3)) ∧
    (let s := (Relay.execAll System.exec (System.init emptyRegion pairDriver true)
        [.addChain [⟨80, 1, false⟩]]).1
      ∃ t, Driver.addChain [⟨81, 2, true⟩] (s.driver, s.mem) = .ok 1 t ∧
        (ChainIter.new t.2 pairQueue 0).collect 3 = (ChainIter.new s.mem pairQueue 0).collect 3 ∧
        (ChainIter.new s.mem pairQueue 0).collect 3 = .ok ([⟨80, 1, 0, 0⟩], none)) := by
  obtain ⟨hread, hstay⟩ := addChain_round_trip new_pairQueue
  have hadmissible : ∀ o ∈ [Op.addChain [⟨80, 1, false⟩]], o.Admissible pairQueue := by
    intro o ho
    obtain rfl := List.mem_singleton.mp ho
    exact ⟨by decide, by decide, fun b hb => .inr (by rw [List.mem_singleton.mp hb]; decide)⟩
  have hnext := hstay emptyRegion (by decide) (by decide) (by decide) _ true hadmissible
    [⟨81, 2, true⟩] 1
  constructor
  · obtain ⟨t, ht⟩ : ∃ t, Driver.addChain [⟨80, 1, false⟩, ⟨81, 2, true⟩]
        (pairDriver, emptyRegion) = .ok 0 t := ⟨_, rfl⟩
    exact ⟨t, ht, hread [] (fun o ho => by cases ho) emptyRegion (by decide) _ 0 t ht⟩
  · intro s
    obtain ⟨t, ht⟩ : ∃ t, Driver.addChain [⟨81, 2, true⟩] (s.driver, s.mem) = .ok 1 t := ⟨_, rfl⟩
    exact ⟨t, ht, hnext t ht 0 (by decide +kernel), by decide +kernel⟩

end SystemsStudy
