/-
SystemsStudy/Lib/Doorbell.lean

Ringing a sleeping consumer only when it asked.

A producer publishes items and now and then decides whether to ring.  A
consumer that has taken everything stores the position it stopped at, the
`event`, checks once more that nothing is left, and only then sleeps.  The
producer rings at least whenever the event lies among the items published
since its previous decision; it may ring more often.

`Sound` is what every interleaving preserves, and `Waiting.awaited` is what it
is for: when the consumer sleeps next to an untaken item with no ring pending,
the next decision rings.  The positions are unbounded; a program that keeps
only their lowest bits has to show that they suffice.
-/
import Mathlib.Tactic

/-- Where the consumer stands. -/
inductive Doorbell.Phase where
  | awake
  /-- the event is stored, the second check still to come -/
  | armed
  | asleep
  deriving DecidableEq

/-- A producer, a consumer, and the event that decides about the ring. -/
structure Doorbell where
  published : ℕ := 0
  /-- `published` at the producer's previous decision -/
  asked : ℕ := 0
  taken : ℕ := 0
  event : ℕ := 0
  phase : Doorbell.Phase := .asleep
  /-- a ring the consumer has not woken on -/
  rung : Bool := false

namespace Doorbell

/-- The event lies in the batch published since the previous decision. -/
def Awaited (s : Doorbell) : Prop := s.asked ≤ s.event ∧ s.event < s.published

/-- Everything but the producer's decision. -/
inductive Silent : Doorbell → Doorbell → Prop
  | publish {s} : Silent s { s with published := s.published + 1 }
  | take {s} : s.phase = .awake → s.taken < s.published → Silent s { s with taken := s.taken + 1 }
  | arm {s} : s.phase = .awake → Silent s { s with event := s.taken, phase := .armed }
  | sleep {s} : s.phase = .armed → s.taken = s.published → Silent s { s with phase := .asleep }
  | resume {s} : s.phase = .armed → Silent s { s with phase := .awake }
  | wake {s} : s.phase = .asleep → s.rung = true →
      Silent s { s with phase := .awake, rung := false }

/-- Any step: a silent one, or a decision of the producer.  All that is asked of the
decision is that it rings when the event is awaited. -/
inductive Step : Doorbell → Doorbell → Prop
  | silent {s s'} : Silent s s' → Step s s'
  | decide {s b} : (s.Awaited → b = true) →
      Step s { s with asked := s.published, rung := s.rung || b }

/-- The invariant: nothing is taken that was not published, and a consumer that sleeps was
rung or had nothing to wait for. -/
structure Sound (s : Doorbell) : Prop where
  asked_le : s.asked ≤ s.published
  taken_le : s.taken ≤ s.published
  /-- a stored event is where the consumer stopped -/
  event_eq : s.phase ≠ .awake → s.event = s.taken
  /-- a sleeping consumer is about to be woken, or had taken everything at the
  previous decision -/
  asleep : s.phase = .asleep → s.rung = true ∨ s.asked ≤ s.taken

variable {s s' : Doorbell}

theorem sound_init : Sound {} where
  asked_le := le_rfl
  taken_le := le_rfl
  event_eq _ := rfl
  asleep _ := .inr le_rfl

theorem Sound.silent (h : s.Sound) (hstep : Silent s s') : s'.Sound := by
  cases hstep with
  | publish => exact { h with asked_le := h.asked_le.step, taken_le := h.taken_le.step }
  | take hphase hlt =>
      refine { h with taken_le := hlt, event_eq := fun hne => absurd hphase hne, asleep := ?_ }
      exact fun hsleep => by rw [hphase] at hsleep; cases hsleep
  | arm => exact { h with event_eq := fun _ => rfl, asleep := fun hsleep => nomatch hsleep }
  | sleep hphase hall =>
      refine { h with event_eq := fun _ => h.event_eq (by rw [hphase]; decide), asleep := ?_ }
      exact fun _ => .inr (hall ▸ h.asked_le)
  | resume => exact { h with event_eq := fun hne => absurd rfl hne, asleep := fun hs => nomatch hs }
  | wake => exact { h with event_eq := fun hne => absurd rfl hne, asleep := fun hs => nomatch hs }

theorem Sound.step (h : s.Sound) (hstep : Step s s') : s'.Sound := by
  cases hstep with
  | silent hstep => exact h.silent hstep
  | @decide b hb =>
      refine { h with asked_le := le_rfl, asleep := fun hsleep => ?_ }
      -- only a sleeping consumer is in question; a pending ring stays
      have hev := h.event_eq (by rw [hsleep]; decide)
      rcases h.asleep hsleep with hrung | hasked
      · exact .inl (by rw [hrung, Bool.true_or])
      rcases Nat.lt_or_ge s.taken s.published with hlt | hge
      · -- an item is untaken: the event lies in the batch
        left
        rw [hb ⟨by omega, by omega⟩, Bool.or_true]
      · exact .inr hge

/-- The consumer sleeps next to an untaken item, and no ring will wake it. -/
structure Waiting (s : Doorbell) : Prop where
  asleep : s.phase = .asleep
  rung : s.rung = false
  untaken : s.taken < s.published

/-- Only a decision ends the wait. -/
theorem Waiting.silent (h : s.Waiting) (hstep : Silent s s') : s'.Waiting := by
  obtain ⟨hasleep, hrung, hlt⟩ := h
  cases hstep with
  | publish => exact ⟨hasleep, hrung, Nat.lt_succ_of_lt hlt⟩
  | wake _ hrung' => rw [hrung] at hrung'; cases hrung'
  | take hphase => rw [hasleep] at hphase; cases hphase
  | arm hphase => rw [hasleep] at hphase; cases hphase
  | sleep hphase => rw [hasleep] at hphase; cases hphase
  | resume hphase => rw [hasleep] at hphase; cases hphase

/-- No ring is lost: the next decision rings. -/
theorem Waiting.awaited (h : s.Waiting) (hs : s.Sound) : s.Awaited := by
  have hev := hs.event_eq (by rw [h.asleep]; decide)
  have hasked := (hs.asleep h.asleep).resolve_left (by rw [h.rung]; decide)
  have hlt := h.untaken
  exact ⟨by omega, by omega⟩

end Doorbell
