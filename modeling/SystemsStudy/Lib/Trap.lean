/-
SystemsStudy/Lib/Trap.lean

Programs that call a server, wired to it or run through traps.

A program is a transition function: from a state it makes a step of its own,
calls out and goes on with the answer, halts, or is stuck (`Act`).  Wired to a
server the two are one deterministic machine, which also keeps the log of the
calls (`wire`).  Trapped, the program is entered and comes back (`Enter`):
because it was interrupted between two steps of its own, or because it cannot
go on without whoever entered it.  Then it is parked, and an answer resumes it.

`runs_interrupted` and `runs_call` say that an entry, answered as the
server would, is a run of the wired machine, so interruptions leave no trace in
it.  Since the wired machine is deterministic, a log is a prefix of that of any
run that has come to an end (`log_prefix`).
-/
import Mathlib.Computability.StateTransition

namespace SystemsStudy.Trap

open StateTransition

variable {σ δ Req Ans : Type*}

/-- What a program does next. -/
inductive Act (σ Req Ans : Type*) where
  | quiet (s : σ)
  | call (q : Req) (k : Ans → σ)
  | halt (s : σ)
  | stuck

/-- What a program does next in each of its states. -/
abbrev Program (σ Req Ans : Type*) := σ → Act σ Req Ans

/-- The next state and the answer, or a refusal. -/
abbrev Server (δ Req Ans : Type*) := δ → Req → Option (δ × Ans)

/-! ### Wired -/

/-- A program and its server, with the calls so far. -/
structure Config (σ δ Req : Type*) where
  state : σ
  server : δ
  log : List Req := []

/-- One step of both. -/
def wire (prog : Program σ Req Ans) (serve : Server δ Req Ans) (c : Config σ δ Req) :
    Option (Config σ δ Req) :=
  match prog c.state with
  | .quiet s => some { c with state := s }
  | .call q k => (serve c.server q).map fun r => ⟨k r.2, r.1, c.log ++ [q]⟩
  | .halt _ => none
  | .stuck => none

/-- A run of the wired machine. -/
abbrev Runs (prog : Program σ Req Ans) (serve : Server δ Req Ans) :
    Config σ δ Req → Config σ δ Req → Prop :=
  Reaches (wire prog serve)

variable {prog : Program σ Req Ans} {serve : Server δ Req Ans} {c₀ c c' : Config σ δ Req}
variable {s t u : σ} {d d' : δ} {log : List Req} {q : Req} {k : Ans → σ} {a : Ans}

theorem wire_quiet (h : prog s = .quiet t) : wire prog serve ⟨s, d, log⟩ = some ⟨t, d, log⟩ := by
  simp only [wire, h]

theorem wire_call (h : prog s = .call q k) (hserve : serve d q = some (d', a)) :
    wire prog serve ⟨s, d, log⟩ = some ⟨k a, d', log ++ [q]⟩ := by
  simp only [wire, h, hserve, Option.map_some]

theorem wire_refused (h : prog s = .call q k) (hserve : serve d q = none) :
    wire prog serve ⟨s, d, log⟩ = none := by
  simp only [wire, h, hserve, Option.map_none]

theorem wire_halt (h : prog s = .halt t) : wire prog serve ⟨s, d, log⟩ = none := by
  simp only [wire, h]

theorem wire_stuck (h : prog s = .stuck) : wire prog serve ⟨s, d, log⟩ = none := by
  simp only [wire, h]

/-- The log only grows. -/
theorem log_prefix_of_wire (h : wire prog serve c = some c') : c.log <+: c'.log := by
  unfold wire at h
  split at h
  · cases h
    exact List.prefix_rfl
  · obtain ⟨r, -, rfl⟩ := Option.map_eq_some_iff.mp h
    exact List.prefix_append _ _
  · cases h
  · cases h

theorem log_prefix_of_runs (h : Runs prog serve c c') : c.log <+: c'.log := by
  induction h with
  | refl => exact List.prefix_rfl
  | tail _ hstep ih => exact ih.trans (log_prefix_of_wire hstep)

/-- Whatever is reached lies on the way to where the machine stops. -/
theorem runs_to_stop (h : Runs prog serve c₀ c)
    (h' : Runs prog serve c₀ c') (hstop : wire prog serve c' = none) :
    Runs prog serve c c' := by
  rcases reaches_total h h' with h | h
  · exact h
  · rcases Relation.ReflTransGen.cases_head h with rfl | ⟨_, hstep, _⟩
    · exact .refl
    · rw [hstop] at hstep
      cases hstep

/-- The machine stops in one configuration only. -/
theorem stop_unique (h : Runs prog serve c₀ c) (hc : wire prog serve c = none)
    (h' : Runs prog serve c₀ c') (hc' : wire prog serve c' = none) : c = c' := by
  rcases Relation.ReflTransGen.cases_head (runs_to_stop h h' hc') with rfl | ⟨_, hstep, _⟩
  · rfl
  · rw [hc] at hstep
    cases hstep

theorem log_prefix (h : Runs prog serve c₀ c)
    (h' : Runs prog serve c₀ c') (hstop : wire prog serve c' = none) :
    c.log <+: c'.log :=
  log_prefix_of_runs (runs_to_stop h h' hstop)

/-! ### Trapped -/

/-- Steps of the program's own. -/
def Strolls (prog : Program σ Req Ans) : σ → σ → Prop :=
  Relation.ReflTransGen fun s t => prog s = .quiet t

/-- Why an entry came back. -/
inductive Back (Req : Type*) where
  | interrupted
  | call (q : Req)
  | halted
  | stuck

/-- A program between two entries. -/
inductive Parked (σ Ans : Type*) where
  | ready (s : σ)
  | waiting (k : Ans → σ)

/-- Where an answer resumes it. -/
def Parked.resume : Parked σ Ans → Ans → σ
  | ready s, _ => s
  | waiting k, a => k a

/-- One entry. -/
inductive Enter (prog : Program σ Req Ans) (s : σ) : Back Req → Parked σ Ans → Prop
  | interrupted {t : σ} : Strolls prog s t → Enter prog s .interrupted (.ready t)
  | call {t : σ} {q : Req} {k : Ans → σ} : Strolls prog s t → prog t = .call q k →
      Enter prog s (.call q) (.waiting k)
  | halted {t u : σ} : Strolls prog s t → prog t = .halt u → Enter prog s .halted (.ready u)
  | stuck {t : σ} : Strolls prog s t → prog t = .stuck → Enter prog s .stuck (.ready t)

section Entries

variable {p : Parked σ Ans}

theorem runs_strolls (h : Runs prog serve c₀ ⟨s, d, log⟩) (hs : Strolls prog s t) :
    Runs prog serve c₀ ⟨t, d, log⟩ := by
  induction hs with
  | refl => exact h
  | tail _ hq ih => exact ih.tail (wire_quiet hq)

/-- An interruption is nothing to the wired machine. -/
theorem runs_interrupted (h : Runs prog serve c₀ ⟨s, d, log⟩)
    (he : Enter prog s .interrupted p) (a : Ans) :
    Runs prog serve c₀ ⟨p.resume a, d, log⟩ := by
  cases he with
  | interrupted hs => exact runs_strolls h hs

/-- A call answered as the server would is a call of the wired machine. -/
theorem runs_call (h : Runs prog serve c₀ ⟨s, d, log⟩)
    (he : Enter prog s (.call q) p) (hserve : serve d q = some (d', a)) :
    Runs prog serve c₀ ⟨p.resume a, d', log ++ [q]⟩ := by
  cases he with
  | call hs hq => exact (runs_strolls h hs).tail (wire_call hq hserve)

/-- A call that the server refuses stops the wired machine. -/
theorem runs_refused (h : Runs prog serve c₀ ⟨s, d, log⟩)
    (he : Enter prog s (.call q) p) (hserve : serve d q = none) :
    ∃ t k, Runs prog serve c₀ ⟨t, d, log⟩ ∧ prog t = .call q k ∧
      wire prog serve ⟨t, d, log⟩ = none := by
  cases he with
  | call hs hq => exact ⟨_, _, runs_strolls h hs, hq, wire_refused hq hserve⟩

theorem runs_halted (h : Runs prog serve c₀ ⟨s, d, log⟩)
    (he : Enter prog s .halted p) :
    ∃ t u, Runs prog serve c₀ ⟨t, d, log⟩ ∧ prog t = .halt u ∧ p = .ready u := by
  cases he with
  | halted hs hu => exact ⟨_, _, runs_strolls h hs, hu, rfl⟩

theorem runs_stuck (h : Runs prog serve c₀ ⟨s, d, log⟩)
    (he : Enter prog s .stuck p) :
    ∃ t, Runs prog serve c₀ ⟨t, d, log⟩ ∧ prog t = .stuck := by
  cases he with
  | stuck hs ht => exact ⟨_, runs_strolls h hs, ht⟩

end Entries

end SystemsStudy.Trap
