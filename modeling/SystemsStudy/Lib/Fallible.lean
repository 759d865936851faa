/-
SystemsStudy/Lib/Fallible.lean

Stateful programs that can stop short.

A function with a mutable receiver that returns a `Result` and may panic is an
`EStateM (Fault ε) σ`: it ends with a value or with a fault, and in both cases
with a state, because what was mutated before the early return stays mutated.

`Fault.err e` is the value the function returned as its error, `Fault.panic`
is a failed assertion or an arithmetic overflow, and `Fault.fuel` only occurs
in a loop that is given an iteration bound: it says the bound was too small.

The rules here are the ones every proof below uses: running a `bind`
(`bind_ok`, `bind_error`, and the inversion `bind_eq_ok`), what the outcome of a
single check says (`ite_eq_ok`, `ite_eq_error`), carrying an invariant through the
regular exits of a program (`Ends`), and running a program on a part of a larger
state (`zoom`).
-/
import Mathlib.Tactic

namespace Fallible

/-- Why a program ended without a value. -/
inductive Fault (ε : Type) where
  | err (e : ε)
  | panic
  | fuel
  deriving DecidableEq, Repr

variable {ε σ τ α β : Type}

/-! ### Running -/

theorem bind_ok {x : EStateM ε σ α} {f : α → EStateM ε σ β} {s s' : σ} {a : α}
    (h : x s = .ok a s') : (x >>= f) s = f a s' := by
  show EStateM.bind x f s = f a s'
  simp only [EStateM.bind, h]

theorem bind_error {x : EStateM ε σ α} {f : α → EStateM ε σ β} {s s' : σ} {e : ε}
    (h : x s = .error e s') : (x >>= f) s = .error e s' := by
  show EStateM.bind x f s = .error e s'
  simp only [EStateM.bind, h]

/-- A sequence that returned a value went through a middle state. -/
theorem bind_eq_ok {x : EStateM ε σ α} {f : α → EStateM ε σ β} {s s'' : σ} {b : β} :
    (x >>= f) s = .ok b s'' ↔ ∃ a s', x s = .ok a s' ∧ f a s' = .ok b s'' := by
  rcases e : x s with ⟨a, s'⟩ | ⟨e', s'⟩
  · simp [bind_ok e]
  · simp [bind_error e]

section Checked

variable {p : Prop} [Decidable p] {a b : α} {e e' : ε} {s s' t : σ}

/-- How a program that is one check returned a value, -/
theorem ite_eq_ok : (if p then EStateM.Result.ok a s else .error e s') = .ok b t ↔
    p ∧ b = a ∧ t = s := by
  by_cases h : p
  · rw [if_pos h, EStateM.Result.ok.injEq, eq_comm (a := a), eq_comm (a := s)]
    exact (and_iff_right h).symm
  · rw [if_neg h]
    exact ⟨nofun, fun hp => absurd hp.1 h⟩

/-- and how it failed. -/
theorem ite_eq_error : (if p then EStateM.Result.ok a s else .error e s') = .error e' t ↔
    ¬ p ∧ e' = e ∧ t = s' := by
  by_cases h : p
  · rw [if_pos h]
    exact ⟨nofun, fun hp => absurd h hp.1⟩
  · rw [if_neg h, EStateM.Result.error.injEq, eq_comm (a := e), eq_comm (a := s')]
    exact (and_iff_right h).symm

end Checked

/-! ### Invariants at every exit -/

/-- The state a program leaves behind, however it ended. -/
def final : EStateM.Result ε σ α → σ
  | .ok _ s => s
  | .error _ s => s

@[simp] theorem final_ok (a : α) (s : σ) : final (.ok a s : EStateM.Result ε σ α) = s := rfl

@[simp] theorem final_error (e : ε) (s : σ) :
    final (.error e s : EStateM.Result ε σ α) = s := rfl

/-- What the first program leaves and the second keeps holds at the end,
whatever either returned. -/
theorem final_bind {I : σ → Prop} {x : EStateM ε σ α} {f : α → EStateM ε σ β} {s : σ}
    (hx : I (final (x s))) (hf : ∀ a s', I s' → I (final (f a s'))) :
    I (final ((x >>= f) s)) := by
  rcases e : x s with ⟨a, s'⟩ | ⟨e', s'⟩
  · rw [bind_ok e]
    rw [e] at hx
    exact hf a s' hx
  · rw [bind_error e]
    rw [e] at hx
    exact hx

/-- The program returned, a value or its own error, and left a state of `I`. -/
def Ends (I : σ → Prop) : EStateM.Result (Fault ε) σ α → Prop
  | .ok _ s => I s
  | .error (.err _) s => I s
  | .error _ _ => False

namespace Ends

variable {I J : σ → Prop} {r : EStateM.Result (Fault ε) σ α}

theorem final (h : Ends I r) : I (final r) := by
  rcases r with ⟨a, s⟩ | ⟨e | - | -, s⟩
  · exact h
  · exact h
  · exact h.elim
  · exact h.elim

theorem ne_panic (h : Ends I r) (s : σ) : r ≠ .error .panic s := by
  rintro rfl
  exact h

theorem ne_fuel (h : Ends I r) (s : σ) : r ≠ .error .fuel s := by
  rintro rfl
  exact h

/-- Sequencing: the second program starts where the first left off, and an
early exit of the first has to satisfy the final invariant already. -/
theorem bind_of_imp {x : EStateM (Fault ε) σ α} {f : α → EStateM (Fault ε) σ β} {s : σ}
    (hx : Ends I (x s)) (hIJ : ∀ s, I s → J s) (hf : ∀ a s', I s' → Ends J (f a s')) :
    Ends J ((x >>= f) s) := by
  rcases e : x s with ⟨a, s'⟩ | ⟨e', s'⟩
  · rw [bind_ok e]
    rw [e] at hx
    exact hf a s' hx
  · rw [bind_error e]
    rw [e] at hx
    rcases e' with e' | - | -
    · exact hIJ s' hx
    · exact hx.elim
    · exact hx.elim

theorem bind {x : EStateM (Fault ε) σ α} {f : α → EStateM (Fault ε) σ β} {s : σ}
    (hx : Ends I (x s)) (hf : ∀ a s', I s' → Ends I (f a s')) : Ends I ((x >>= f) s) :=
  bind_of_imp hx (fun _ h => h) hf

end Ends

/-! ### Running on a part of the state -/

/-- Run a program on the part `get t` of a larger state `t`. -/
def zoom (get : τ → σ) (put : σ → τ → τ) (x : EStateM ε σ α) : EStateM ε τ α := fun t =>
  match x (get t) with
  | .ok a s => .ok a (put s t)
  | .error e s => .error e (put s t)

theorem final_zoom (get : τ → σ) (put : σ → τ → τ) (x : EStateM ε σ α) (t : τ) :
    final (zoom get put x t) = put (final (x (get t))) t := by
  unfold zoom
  rcases x (get t) with ⟨a, s⟩ | ⟨e, s⟩
  · rfl
  · rfl

end Fallible
