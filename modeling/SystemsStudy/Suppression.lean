/-
SystemsStudy/Suppression.lean

Reading a stale notification threshold.

`needsKick` reads the device's threshold with no fence between the publication
of `avail.idx` and the load, so the load may return a value the device has
since replaced.  The predicate is true for the thresholds that lie in the batch,
from `lastKick` to `availIdx`.  A threshold older than the last decision lies
outside, so the stale value suppresses a kick that the current one asks for.

`staleThreshold_iff` says exactly when an older threshold is as good as the
latest one, and `staleThreshold_loses_kick` is a run in which it is not: the
device sleeps, one chain is waiting, and the driver does not kick.
-/
import SystemsStudy.Exchange

namespace SystemsStudy

open Bytes Fallible

namespace Driver

/-- What `needsKick` answers if its load of `avail_event` returns `event`. -/
def kicks (d : Driver) (m : SharedMem) (event : UInt16) : Bool :=
  match needsKick (d, m.put d.layout.availEvent (toLe 2 event.toNat)) with
  | .ok b _ => b
  | .error _ _ => false

/-- The position `event` is one of those published since the last decision. -/
def InBatch (d : Driver) (event : UInt16) : Prop :=
  ∃ n < (d.availIdx - d.lastKick).toNat, event = d.lastKick + UInt16.ofNat n

variable {d : Driver} {m : SharedMem}

/-- The driver kicks for the thresholds in the batch. -/
theorem kicks_iff (hcov : d.layout.Covered m) (event : UInt16) :
    d.kicks m event = true ↔ d.eventIdx = false ∨ d.InBatch event := by
  have hcov' : d.layout.Covered (m.put d.layout.availEvent (toLe 2 event.toNat)) := by
    rw [VirtqLayout.Covered, SharedMem.len_put]
    exact hcov
  rw [kicks, needsKick_ok hcov', SharedMem.word16_put_self _ _ hcov.availEvent]
  rw [Bool.or_eq_true, Bool.not_eq_true', needEvent_iff, Rolling.sub_lt_iff_exists]
  rfl

/-- A kick asked for by the latest threshold is also given for every earlier
one exactly if the latest does not lie in the batch or all of them do. -/
theorem staleThreshold_iff (hcov : d.layout.Covered m) (earlier : List UInt16)
    (latest : UInt16) :
    (d.kicks m latest = true → ∀ a ∈ earlier, d.kicks m a = true) ↔
      d.eventIdx = false ∨ ¬ d.InBatch latest ∨ ∀ a ∈ earlier, d.InBatch a := by
  simp only [kicks_iff hcov]
  by_cases he : d.eventIdx = false
  · exact iff_of_true (fun _ a _ => .inl he) (.inl he)
  constructor
  · intro h
    by_cases hlatest : d.InBatch latest
    · exact .inr (.inr fun a ha => (h (.inr hlatest) a ha).resolve_left he)
    · exact .inr (.inl hlatest)
  · rintro (he' | hlatest | hall)
    · exact absurd he' he
    · intro hkick
      exact absurd (hkick.resolve_left he) hlatest
    · exact fun _ a ha => .inr (hall a ha)

end Driver

/-! ### A kick that is lost -/

/-- The device serves one chain, sets its threshold and goes to sleep; then the
driver publishes a second chain. -/
def secondChain : System :=
  (Relay.execAll System.exec (System.init emptyRegion unitDriver true)
    [.addChain [⟨40, 1, true⟩], .needsKick, .serve fun _ => [7], .enableNotification,
      .collectUsed, .addChain [⟨40, 1, true⟩]]).1

theorem staleThreshold_iff_secondChain :
    (secondChain.driver.kicks secondChain.mem 1 = true →
      ∀ a ∈ [(0 : UInt16)], secondChain.driver.kicks secondChain.mem a = true) ↔
    secondChain.driver.eventIdx = false ∨ ¬ secondChain.driver.InBatch 1 ∨
      ∀ a ∈ [(0 : UInt16)], secondChain.driver.InBatch a :=
  Driver.staleThreshold_iff (by decide +kernel) [0] 1

/-- The thresholds so far are 0, from the zeroed ring, and 1.  With the latest
one the driver kicks for the chain that is waiting; with the first it does
not. -/
theorem staleThreshold_loses_kick :
    secondChain.mem.word16 unitQueue.availEvent = 1 ∧
    secondChain.device.nextAvail = 1 ∧
    secondChain.device.pending secondChain.mem = 1 ∧
    secondChain.driver.availIdx - secondChain.driver.lastKick = 1 ∧
    secondChain.driver.kicks secondChain.mem 1 = true ∧
    secondChain.driver.kicks secondChain.mem 0 = false := by
  decide +kernel

end SystemsStudy
