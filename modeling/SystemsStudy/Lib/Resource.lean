/-
SystemsStudy/Lib/Resource.lean

Programs that call a host, and the resources they hold.

A program is a tree of calls: it returns, or calls and goes on with whatever the
host answers.  A host says which calls are legal in which state and how it may
answer, with failures among the answers.  `Ensures` is the weakest precondition:
no illegal call can be made, and where the program returns the postcondition
holds.  It is kept by every step (`Ensures.runs`), so it speaks about all runs.

A `Registry` is what a host knows of its resources: which are held, and within
which others each has to end.  A resource may be released if none that is held
has to end within it.  What was acquired last may always be released, and leaves
the registry as it was before (`ensures_owning`).
-/
import Mathlib.Logic.Function.Basic
import Mathlib.Logic.Relation
import Mathlib.Tactic.Common

namespace SystemsStudy.Resource

variable {Call Ans η α β ε : Type}

/-! ### Programs -/

/-- A program that calls out. -/
inductive Prog (Call Ans α : Type) where
  | ret (a : α)
  | call (c : Call) (k : Ans → Prog Call Ans α)

namespace Prog

/-- Sequential composition: go on with `f` where the program returns. -/
def bind : Prog Call Ans α → (α → Prog Call Ans β) → Prog Call Ans β
  | ret a, f => f a
  | call c k, f => call c fun x => (k x).bind f

instance : Monad (Prog Call Ans) where
  pure := ret
  bind := bind

/-- One call. -/
def perform (c : Call) : Prog Call Ans Ans := call c ret

end Prog

/-- A program that may return an error. -/
abbrev Attempt (Call Ans ε α : Type) := ExceptT ε (Prog Call Ans) α

/-- The rest of the scope that owns something: where it is left with an error,
that is released. -/
def owning (release : Call) (body : Attempt Call Ans ε α) : Attempt Call Ans ε α :=
  body.run.bind fun
    | .ok a => .ret (.ok a)
    | .error e => .call release fun _ => .ret (.error e)

/-! ### Hosts -/

/-- What may be called in a state of the host, and what can come back. -/
structure Host (Call Ans η : Type) where
  Legal : η → Call → Prop
  Answers : η → Call → Ans → η → Prop

namespace Host

variable {H : Host Call Ans η}

/-- A call, and its answer. -/
inductive Step (H : Host Call Ans η) : Prog Call Ans α × η → Prog Call Ans α × η → Prop
  | call {s s' : η} {c : Call} {k : Ans → Prog Call Ans α} {x : Ans} :
      H.Answers s c x s' → Step H (.call c k, s) (k x, s')

/-- Any number of calls, as the host answers them. -/
abbrev Runs (H : Host Call Ans η) : Prog Call Ans α × η → Prog Call Ans α × η → Prop :=
  Relation.ReflTransGen H.Step

/-- Every call made from here is legal, and every value returned is as wanted. -/
def Ensures (H : Host Call Ans η) : Prog Call Ans α → (α → η → Prop) → η → Prop
  | .ret a, Q, s => Q a s
  | .call c k, Q, s => H.Legal s c ∧ ∀ x s', H.Answers s c x s' → H.Ensures (k x) Q s'

variable {Q : α → η → Prop} {s s' : η} {p p' : Prog Call Ans α}

theorem Ensures.step (h : H.Ensures p Q s) (hstep : H.Step (p, s) (p', s')) :
    H.Ensures p' Q s' := by
  cases hstep with
  | call hans => exact h.2 _ _ hans

/-- What the program ensures it ensures wherever its runs lead. -/
theorem Ensures.runs (h : H.Ensures p Q s) (hruns : H.Runs (p, s) (p', s')) :
    H.Ensures p' Q s' := by
  generalize hb : (p', s') = b at hruns
  induction hruns generalizing p' s' with
  | refl =>
      cases hb
      exact h
  | tail _ hstep ih =>
      subst hb
      exact (ih rfl).step hstep

theorem ensures_bind {f : α → Prog Call Ans β} {Q : β → η → Prop} :
    H.Ensures (p.bind f) Q s ↔ H.Ensures p (fun a => H.Ensures (f a) Q) s := by
  induction p generalizing s with
  | ret a => rfl
  | call c k ih =>
      apply and_congr_right
      intro _
      exact forall_congr' fun x => forall_congr' fun s' => imp_congr_right fun _ => ih x

theorem Ensures.mono {Q' : α → η → Prop} (h : H.Ensures p Q s) (hQ : ∀ a s, Q a s → Q' a s) :
    H.Ensures p Q' s := by
  induction p generalizing s with
  | ret a => exact hQ a s h
  | call c k ih => exact ⟨h.1, fun x s' hans => ih x (h.2 x s' hans)⟩

/-! ### Errors -/

/-- What is ensured of a value or of an error. -/
def Either (Q : α → η → Prop) (E : ε → η → Prop) : Except ε α → η → Prop
  | .ok a => Q a
  | .error e => E e

variable {E : ε → η → Prop}

theorem Ensures.weaken {E' : ε → η → Prop} {p : Prog Call Ans (Except ε α)}
    (h : H.Ensures p (Either Q E) s) (hE : ∀ e s, E e s → E' e s) :
    H.Ensures p (Either Q E') s := by
  refine h.mono fun result s' hresult => ?_
  cases result with
  | ok a => exact hresult
  | error e => exact hE e s' hresult

/-- The question mark: an error is passed on. -/
theorem ensures_try {p : Attempt Call Ans ε α} {f : α → Attempt Call Ans ε β} {Q : β → η → Prop} :
    H.Ensures (p >>= f).run (Either Q E) s ↔
      H.Ensures p.run (Either (fun a => H.Ensures (f a).run (Either Q E)) E) s := by
  show H.Ensures (Prog.bind p.run (ExceptT.bindCont f)) _ s ↔ _
  rw [ensures_bind]
  have hcont : (fun r => H.Ensures (ExceptT.bindCont f r) (Either Q E)) =
      Either (fun a => H.Ensures (f a).run (Either Q E)) E := by
    funext r
    cases r with
    | ok a => rfl
    | error e => rfl
  rw [hcont]

end Host

/-! ### Registries -/

variable {ρ κ : Type} [DecidableEq ρ]

/-- A resource that is held. -/
structure Entry (ρ κ : Type) where
  kind : κ
  /-- the resources that must not be released before it -/
  within : List ρ

/-- The resources that are held, each with its entry. -/
structure Registry (ρ κ : Type) where
  held : ρ → Option (Entry ρ κ)

namespace Registry

/-- Whatever a resource has to end within is held. -/
def Valid (r : Registry ρ κ) : Prop :=
  ∀ x e, r.held x = some e → ∀ y ∈ e.within, r.held y ≠ none

/-- A resource that is held, and that no other has to end within. -/
def Releasable (r : Registry ρ κ) (x : ρ) : Prop :=
  r.held x ≠ none ∧ ∀ y e, r.held y = some e → x ∉ e.within

/-- The resource is held from now on. -/
def acquire (r : Registry ρ κ) (x : ρ) (e : Entry ρ κ) : Registry ρ κ :=
  ⟨Function.update r.held x (some e)⟩

/-- The resource is no longer held. -/
def release (r : Registry ρ κ) (x : ρ) : Registry ρ κ := ⟨Function.update r.held x none⟩

/-- From now on `x` has to end within `y`. -/
def confine (r : Registry ρ κ) (x y : ρ) : Registry ρ κ :=
  ⟨Function.update r.held x ((r.held x).map fun e => { e with within := y :: e.within })⟩

variable {r : Registry ρ κ} {x y : ρ} {e e' : Entry ρ κ}

@[simp] theorem held_acquire_self : (r.acquire x e).held x = some e := Function.update_self ..

theorem held_acquire_of_ne (h : y ≠ x) : (r.acquire x e).held y = r.held y :=
  Function.update_of_ne h _ _

theorem held_acquire_ne_none (h : r.held y ≠ none) : (r.acquire x e).held y ≠ none := by
  by_cases hyx : y = x
  · subst hyx
    rw [held_acquire_self]
    exact nofun
  · rwa [held_acquire_of_ne hyx]

/-- What is not in use is not what is held. -/
theorem ne_of_fresh (h : (r.acquire x e).held y = none) : y ≠ x := by
  rintro rfl
  cases held_acquire_self.symm.trans h

/-- What was new is gone. -/
theorem release_acquire (h : r.held x = none) : (r.acquire x e).release x = r := by
  show Registry.mk _ = _
  rw [acquire, Function.update_idem, ← h, Function.update_eq_self]

theorem release_acquire_of_ne (h : x ≠ y) :
    (r.acquire x e).release y = (r.release y).acquire x e := by
  show Registry.mk _ = Registry.mk _
  rw [acquire, release, Function.update_comm h]

theorem confine_acquire :
    (r.acquire x e).confine x y = r.acquire x { e with within := y :: e.within } := by
  show Registry.mk _ = Registry.mk _
  rw [held_acquire_self, acquire, Function.update_idem]
  rfl

theorem valid_acquire (hr : r.Valid) (he : ∀ y ∈ e.within, r.held y ≠ none) :
    (r.acquire x e).Valid := by
  intro z e' hz y hy
  apply held_acquire_ne_none
  by_cases hzx : z = x
  · subst hzx
    rw [held_acquire_self] at hz
    cases hz
    exact he y hy
  · rw [held_acquire_of_ne hzx] at hz
    exact hr z e' hz y hy

/-- A new resource may be released again. -/
theorem releasable_acquire (hr : r.Valid) (h : r.held x = none) (he : x ∉ e.within) :
    (r.acquire x e).Releasable x := by
  refine ⟨by rw [held_acquire_self]; exact nofun, fun y e' hy hx => ?_⟩
  by_cases hyx : y = x
  · subst hyx
    rw [held_acquire_self] at hy
    cases hy
    exact he hx
  · rw [held_acquire_of_ne hyx] at hy
    exact hr y e' hy x hx h

/-- A resource that does not have to end within `x` does not matter to it. -/
theorem releasable_acquire_of_ne (h : r.Releasable x) (hxy : x ≠ y) (he : x ∉ e.within) :
    (r.acquire y e).Releasable x := by
  refine ⟨by rw [held_acquire_of_ne hxy]; exact h.1, fun z e' hz hx => ?_⟩
  by_cases hzy : z = y
  · subst hzy
    rw [held_acquire_self] at hz
    cases hz
    exact he hx
  · rw [held_acquire_of_ne hzy] at hz
    exact h.2 z e' hz hx

end Registry

/-! ### Scopes -/

/-- A call that releases a resource of a kind. -/
structure Host.Releases (H : Host Call Ans (Registry ρ κ)) (c : Call) (x : ρ) (kind : κ) :
    Prop where
  legal : ∀ {r e}, r.Releasable x → r.held x = some e → e.kind = kind → H.Legal r c
  answers : ∀ {r a r'}, H.Answers r c a r' → r' = r.release x

variable {H : Host Call Ans (Registry ρ κ)} {c : Call} {r : Registry ρ κ} {x : ρ}
  {e : Entry ρ κ} {Q : α → Registry ρ κ → Prop}

theorem Host.Releases.ensures {k : Ans → Prog Call Ans α} (h : H.Releases c x e.kind)
    (hx : r.Releasable x) (he : r.held x = some e) (hk : ∀ a, H.Ensures (k a) Q (r.release x)) :
    H.Ensures (.call c k) Q r := by
  refine ⟨h.legal hx he rfl, fun a r' hans => ?_⟩
  rw [h.answers hans]
  exact hk a

/-- What was acquired last may be released. -/
theorem ensures_release {k : Ans → Prog Call Ans α} (h : H.Releases c x e.kind) (hr : r.Valid)
    (hx : r.held x = none) (he : x ∉ e.within) (hk : ∀ a, H.Ensures (k a) Q r) :
    H.Ensures (.call c k) Q (r.acquire x e) := by
  apply h.ensures (Registry.releasable_acquire hr hx he) Registry.held_acquire_self
  rwa [Registry.release_acquire hx]

/-- What was acquired before it may be, if the last does not have to end within it. -/
theorem ensures_release_under {k : Ans → Prog Call Ans α} (h : H.Releases c x e.kind)
    (hr : r.Valid) (hx : r.held x = none) (he : x ∉ e.within) {y : ρ} {e' : Entry ρ κ}
    (hxy : x ≠ y) (he' : x ∉ e'.within) (hk : ∀ a, H.Ensures (k a) Q (r.acquire y e')) :
    H.Ensures (.call c k) Q ((r.acquire x e).acquire y e') := by
  apply h.ensures
    (Registry.releasable_acquire_of_ne (Registry.releasable_acquire hr hx he) hxy he')
    ((Registry.held_acquire_of_ne hxy).trans Registry.held_acquire_self)
  rwa [Registry.release_acquire_of_ne hxy.symm, Registry.release_acquire hx]

/-- The scope of a resource: where its rest ends with an error and only the
resource is left, everything is as before. -/
theorem ensures_owning {body : Attempt Call Ans ε α} (h : H.Releases c x e.kind) (hr : r.Valid)
    (hx : r.held x = none)
    (hbody : H.Ensures body.run
      (Host.Either Q fun _ r' =>
        ∃ e', e'.kind = e.kind ∧ x ∉ e'.within ∧ r' = r.acquire x e') (r.acquire x e)) :
    H.Ensures (owning c body).run (Host.Either Q fun _ r' => r' = r) (r.acquire x e) := by
  refine Host.ensures_bind.mpr (hbody.mono fun result r' hresult => ?_)
  cases result with
  | ok a => exact hresult
  | error err =>
      obtain ⟨e', hkind, he', rfl⟩ := hresult
      rw [← hkind] at h
      exact ensures_release h hr hx he' fun _ => rfl

theorem ensures_owning_same {body : Attempt Call Ans ε α} (h : H.Releases c x e.kind)
    (hr : r.Valid) (hx : r.held x = none) (he : x ∉ e.within)
    (hbody : H.Ensures body.run (Host.Either Q fun _ r' => r' = r.acquire x e) (r.acquire x e)) :
    H.Ensures (owning c body).run (Host.Either Q fun _ r' => r' = r) (r.acquire x e) :=
  ensures_owning h hr hx (hbody.weaken fun _ _ hsame => ⟨e, rfl, he, hsame⟩)

end SystemsStudy.Resource
