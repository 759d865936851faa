/-
SystemsStudy/Lib/Relay.lean

Two first-in first-out queues in series.

A producer publishes requests, a server takes them in order and answers each,
and the producer collects the answers in order.  `Relay α β` is the content of
the two queues, with requests in `α` and answers in `β`; every step shows what
went through it as an `Event`.

Whatever the order of the steps, what was served is what was published up to
the requests still waiting (`Run.published_eq`), and what was collected is what
was answered up to the answers still waiting (`Run.answered_eq`).  A system
that simulates a relay step by step (`exists_run`) inherits both: nothing is
lost, repeated or taken out of order.
-/
import Mathlib.Tactic

/-- Requests not yet served, answers not yet collected, and how many answers
were collected before. -/
structure Relay (α β : Type) where
  requests : List α := []
  answers : List (α × β) := []
  collected : ℕ := 0

namespace Relay

variable {α β : Type}

/-- What holds of every entry of a queue, by position, and of a new one. -/
theorem forall_getElem?_snoc {xs : List α} {b : α} {P : ℕ → α → Prop}
    (hold : ∀ j a, xs[j]? = some a → P j a) (hnew : P xs.length b) :
    ∀ j a, (xs ++ [b])[j]? = some a → P j a := by
  intro j a h
  rcases Nat.lt_trichotomy j xs.length with hlt | rfl | hgt
  · rw [List.getElem?_append_left hlt] at h
    exact hold j a h
  · rw [List.getElem?_concat_length] at h
    cases h
    exact hnew
  · rw [List.getElem?_eq_none (by rw [List.length_append, List.length_singleton]; omega)] at h
    cases h

/-- How many requests were served so far. -/
def served (q : Relay α β) : ℕ := q.collected + q.answers.length

/-- How many requests were published so far. -/
def total (q : Relay α β) : ℕ := q.served + q.requests.length

/-- What is in either queue: published and not yet collected. -/
def underWay (q : Relay α β) : List α := q.answers.map Prod.fst ++ q.requests

/-- What happens to a relay in one step. -/
inductive Event (α β : Type) where
  | publish (a : α)
  | serve (a : α) (b : β)
  | collect (cs : List (α × β))
  | idle

/-- A request joins the end of its queue, the first request is answered, all answers are
collected, or nothing happens. -/
inductive Step : Relay α β → Event α β → Relay α β → Prop
  | publish {q a} : Step q (.publish a) { q with requests := q.requests ++ [a] }
  | serve {a rs cs n b} : Step ⟨a :: rs, cs, n⟩ (.serve a b) ⟨rs, cs ++ [(a, b)], n⟩
  | collect {rs cs n} : Step ⟨rs, cs, n⟩ (.collect cs) ⟨rs, [], n + cs.length⟩
  | idle {q} : Step q .idle q

/-- A run of the relay, with its events. -/
inductive Run : Relay α β → List (Event α β) → Relay α β → Prop
  | nil {q} : Run q [] q
  | cons {q e q' es q''} : Step q e q' → Run q' es q'' → Run q (e :: es) q''

/-! ### What went through -/

namespace Event

/-- The request of an event that publishes one. -/
def published : Event α β → List α
  | publish a => [a]
  | _ => []

/-- The request and the answer of an event that serves one. -/
def answered : Event α β → List (α × β)
  | serve a b => [(a, b)]
  | _ => []

/-- The answers of an event that collects them. -/
def collected : Event α β → List (α × β)
  | collect cs => cs
  | _ => []

end Event

/-- All requests published, in order. -/
def published (es : List (Event α β)) : List α := es.flatMap Event.published

/-- All requests answered, each with its answer, in order. -/
def answered (es : List (Event α β)) : List (α × β) := es.flatMap Event.answered

/-- The requests the server took. -/
def popped (es : List (Event α β)) : List α := (answered es).map Prod.fst

/-- All answers collected, in order. -/
def collectedIn (es : List (Event α β)) : List (α × β) := es.flatMap Event.collected

variable {q q' : Relay α β} {es : List (Event α β)}

theorem Run.published_eq (h : Run q es q') :
    q.requests ++ published es = popped es ++ q'.requests := by
  induction h with
  | nil => simp [published, popped, answered]
  | cons hstep _ ih =>
      cases hstep <;>
        simp_all [published, popped, answered, Event.published, Event.answered]

theorem Run.answered_eq (h : Run q es q') :
    q.answers ++ answered es = collectedIn es ++ q'.answers := by
  induction h with
  | nil => simp [answered, collectedIn]
  | cons hstep _ ih =>
      cases hstep <;> simp_all [answered, collectedIn, Event.answered, Event.collected]

theorem Run.collected_eq (h : Run q es q') :
    q'.collected = q.collected + (collectedIn es).length := by
  induction h with
  | nil => simp [collectedIn]
  | cons hstep _ ih =>
      cases hstep <;> simp_all [collectedIn, Event.collected]
      omega

theorem Run.popped_prefix (h : Run {} es q) : popped es <+: published es :=
  ⟨q.requests, by simpa using h.published_eq.symm⟩

theorem Run.collected_prefix (h : Run {} es q) : collectedIn es <+: answered es :=
  ⟨q.answers, by simpa using h.answered_eq.symm⟩

/-! ### Carrying something else -/

section Map

variable {γ δ : Type} (f : α → γ) (g : β → δ)

/-- The same queues with something else in them. -/
def map (q : Relay α β) : Relay γ δ where
  requests := q.requests.map f
  answers := q.answers.map (Prod.map f g)
  collected := q.collected

/-- An event with its requests and answers mapped. -/
def Event.map : Event α β → Event γ δ
  | publish a => .publish (f a)
  | serve a b => .serve (f a) (g b)
  | collect cs => .collect (cs.map (Prod.map f g))
  | idle => .idle

variable {f g} (q : Relay α β)

theorem map_publish (a : α) : map f g { q with requests := q.requests ++ [a] } =
    { map f g q with requests := (map f g q).requests ++ [f a] } := by
  simp only [map, List.map_append, List.map_cons, List.map_nil]

theorem map_serve (rs : List α) (a : α) (b : β) :
    map f g { q with requests := rs, answers := q.answers ++ [(a, b)] } =
      { map f g q with
        requests := rs.map f, answers := (map f g q).answers ++ [(f a, g b)] } := by
  simp only [map, List.map_append, List.map_cons, List.map_nil, Prod.map]

@[simp] theorem served_map : (map f g q).served = q.served := by
  rw [served, served, map, List.length_map]

/-- Serving moves a call from one queue to the other. -/
theorem underWay_serve {rs : List α} {a : α} (hq : q.requests = a :: rs) (b : β) :
    underWay { q with requests := rs, answers := q.answers ++ [(a, b)] } = q.underWay := by
  simp [underWay, hq]

end Map

/-! ### Systems that simulate a relay -/

section Simulation

variable {σ ι : Type}

/-- Execute the operations in order, recording the event of each. -/
def execAll (exec : σ → ι → σ × Event α β) : σ → List ι → σ × List (Event α β)
  | s, [] => (s, [])
  | s, o :: os =>
      let r := exec s o
      let r' := execAll exec r.1 os
      (r'.1, r.2 :: r'.2)

/-- If every admissible operation is a step of the relay, every sequence of
admissible operations is a run of it. -/
theorem exists_run {exec : σ → ι → σ × Event α β} {R : σ → Relay α β → Prop}
    {Admissible : ι → Prop}
    (hsim : ∀ {s o q}, R s q → Admissible o →
      ∃ q', Step q (exec s o).2 q' ∧ R (exec s o).1 q')
    {s : σ} (hR : R s q) {ops : List ι} (hops : ∀ o ∈ ops, Admissible o) :
    ∃ q', Run q (execAll exec s ops).2 q' ∧ R (execAll exec s ops).1 q' := by
  induction ops generalizing s q with
  | nil => exact ⟨q, .nil, hR⟩
  | cons o ops ih =>
      obtain ⟨q₁, hstep, hR₁⟩ := hsim hR (hops o List.mem_cons_self)
      obtain ⟨q₂, hrun, hR₂⟩ := ih hR₁ fun o' ho' => hops o' (List.mem_cons_of_mem _ ho')
      exact ⟨q₂, .cons hstep hrun, hR₂⟩

/-- The same where an operation may be admissible in some states only, where
the system shows less than goes through the relay, and where a step has a
meaning beyond it: the meaning holds at every step of the run. -/
theorem exists_run_along {γ δ : Type} {exec : σ → ι → σ × Event α β}
    {shown : Event γ δ → Event α β} {R : σ → Relay γ δ → Prop} {Admissible : σ → ι → Prop}
    {Meaning : σ → ι → Event γ δ → Prop}
    (hsim : ∀ {s o q}, R s q → Admissible s o →
      ∃ e q', Step q e q' ∧ (exec s o).2 = shown e ∧ Meaning s o e ∧ R (exec s o).1 q')
    {s : σ} {q : Relay γ δ} (hR : R s q) {ops : List ι}
    (hops : ∀ i o, ops[i]? = some o → Admissible (execAll exec s (ops.take i)).1 o) :
    ∃ es q', Run q es q' ∧ (execAll exec s ops).2 = es.map shown ∧
      (∀ i o e, ops[i]? = some o → es[i]? = some e →
        Meaning (execAll exec s (ops.take i)).1 o e) ∧
      R (execAll exec s ops).1 q' := by
  induction ops generalizing s q with
  | nil => exact ⟨[], q, .nil, rfl, nofun, hR⟩
  -- the head is the simulation's step; positions of the tail are shifted by one
  | cons o ops ih =>
      obtain ⟨e, q₁, hstep, hshown, hmeans, hR₁⟩ := hsim hR (hops 0 o rfl)
      obtain ⟨es, q₂, hrun, hall, hmeaning, hR₂⟩ := ih hR₁ fun i o' ho' => hops (i + 1) o' ho'
      refine ⟨e :: es, q₂, .cons hstep hrun, congrArg₂ List.cons hshown hall, ?_, hR₂⟩
      intro i o' e' ho' he'
      rcases i with - | i
      · obtain rfl := Option.some.inj ho'
        obtain rfl := Option.some.inj he'
        exact hmeans
      · exact hmeaning i o' e' ho' he'

end Simulation

end Relay
