/-
SystemsStudy/Uffd/Shared.lean

Several handlers on one userfaultfd, and several threads in the region.

`handler_loop` and `Uffd` are written for more than one handler thread: a read
that finds nothing because another thread got there first is not an error, and
a copy that finds the page there counts as a success of no bytes.  Here any
number of handlers serve any number of accessing threads.  A handler reads a
message in one step and installs its run in another; in between, others may
read, install, access and reset.

Each thread's accesses happen in its own order, and all of them together mean
what they mean to one eager memory, in the order in which they happened
(`Sound`).  A parked thread waits for an absent page, and its message is in the
queue or with a handler; so as long as a handler is left, somebody can move.
Nobody can move for ever: between two accesses that happen a thread faults at
most once, and each fault is read and served once (`Shared.work`).
-/
import Mathlib.Algebra.BigOperators.Group.Finset.Basic
import SystemsStudy.Uffd.Prefetch

namespace SystemsStudy.Uffd

/-! ### The system -/

/-- A thread that accesses the region. -/
structure Task where
  todo : List Access
  /-- the address the kernel has parked it at -/
  parked : Option ℕ

/-- A handler thread: about to read an event, with a message, or returned. -/
inductive Hand where
  | polling
  | serving (msg : UffdMsg)
  | ended
  deriving DecidableEq

/-- The kernel's `waiter` is unused: who waits is noted by thread. -/
structure Shared (τ η : Type*) where
  kernel : Kernel
  stats : HandlerStats
  task : τ → Task
  hand : η → Hand
  /-- the accesses that happened, in that order -/
  history : List (τ × Access)
  /-- what their reads returned -/
  reads : List UInt8

namespace Shared

variable {τ η : Type*} [DecidableEq τ] [DecidableEq η]

/-- Every thread at its first access, every handler polling. -/
def init (r : Region) (program : τ → List Access) : Shared τ η where
  kernel := .registered r
  stats := {}
  task t := { todo := program t, parked := none }
  hand _ := .polling
  history := []
  reads := []

/-- The system as thread `t` sees it: one thread and a kernel. -/
def view (s : Shared τ η) (t : τ) : Pager where
  kernel := { s.kernel with waiter := (s.task t).parked }
  stats := s.stats
  looping := true
  todo := (s.task t).todo
  reads := s.reads

/-- Thread `t` has done what it did to its view. -/
def put (s : Shared τ η) (t : τ) (p : Pager) : Shared τ η :=
  { s with
    kernel := { p.kernel with waiter := none }
    task := Function.update s.task t { todo := p.todo, parked := p.kernel.waiter }
    reads := p.reads
    -- the access, if it happened
    history := s.history ++
      ((s.task t).todo.take ((s.task t).todo.length - p.todo.length)).map (t, ·) }

/-- Thread `t` accesses the region, or faults. -/
def access (s : Shared τ η) (t : τ) : Option (Shared τ η) := (s.view t).thread.map (s.put t)

/-- Handler `j` reads a message. -/
def receive (s : Shared τ η) (j : η) : Option (Shared τ η) :=
  match s.hand j, s.kernel.queue with
  | .polling, msg :: queue =>
      some { s with
        kernel := { s.kernel with queue }
        hand := Function.update s.hand j (.serving msg) }
  | _, _ => none

/-- The threads whose page is there are woken. -/
def wake (k : Kernel) (task : τ → Task) : τ → Task := fun t =>
  { task t with parked := (task t).parked.filter fun a => !k.present (a / pageSize) }

/-- Handler `j` has served a message, and goes on or returns. -/
def served (s : Shared τ η) (j : η) (flow : Flow) (stats : HandlerStats) (kernel : Kernel) :
    Shared τ η :=
  { s with
    kernel, stats
    task := wake kernel s.task
    hand := Function.update s.hand j (if flow == .looping then .polling else .ended) }

/-- Handler `j` serves the message it has read. -/
def serve (h : Handler) (s : Shared τ η) (j : η) : Option (Shared τ η) :=
  match s.hand j with
  | .serving msg =>
      match h.iteration (.ok (some msg)) s.stats s.kernel with
      | some (flow, stats, kernel) => some (s.served j flow stats kernel)
      | none => some { s with hand := Function.update s.hand j .ended }
  | _ => none

/-- Interleavings of all threads, with the number of their steps. -/
inductive Run (h : Handler) : ℕ → Shared τ η → Shared τ η → Prop
  | refl (s) : Run h 0 s s
  | access {n s s' s'' t} : Run h n s s' → s'.access t = some s'' → Run h (n + 1) s s''
  | receive {n s s' s'' j} : Run h n s s' → s'.receive j = some s'' → Run h (n + 1) s s''
  | serve {n s s' s'' j} : Run h n s s' → s'.serve h j = some s'' → Run h (n + 1) s s''

/-- What every step keeps holds in every run. -/
theorem Run.invariant {h : Handler} {P : ℕ → Shared τ η → Prop}
    (haccess : ∀ {n s s' t}, P n s → s.access t = some s' → P (n + 1) s')
    (hreceive : ∀ {n s s' j}, P n s → s.receive j = some s' → P (n + 1) s')
    (hserve : ∀ {n s s' j}, P n s → s.serve h j = some s' → P (n + 1) s') {n : ℕ}
    {s s' : Shared τ η} (hrun : Run h n s s') (hinit : P 0 s) : P n s' := by
  induction hrun with
  | refl => exact hinit
  | access _ hstep ih => exact haccess (ih hinit) hstep
  | receive _ hstep ih => exact hreceive (ih hinit) hstep
  | serve _ hstep ih => exact hserve (ih hinit) hstep

/-! ### Steps -/

section Steps

variable {s s' : Shared τ η} {t : τ} {j : η} {p : Pager} {a : Access} {rest : List Access}
  {msg : UffdMsg}

/-- A message that nobody has served yet. -/
def Pending (s : Shared τ η) (msg : UffdMsg) : Prop :=
  msg ∈ s.kernel.queue ∨ ∃ j, s.hand j = .serving msg

omit [DecidableEq η] in
/-- A thread that faulted has not accessed anything. -/
theorem put_of_fault (hp : p.todo = (s.task t).todo) : (s.put t p).history = s.history := by
  show s.history ++ ((s.task t).todo.take ((s.task t).todo.length - p.todo.length)).map (t, ·) = _
  rw [hp, Nat.sub_self, List.take_zero, List.map_nil, List.append_nil]

omit [DecidableEq η] in
theorem put_of_hit (htodo : (s.task t).todo = a :: rest) (hp : p.todo = rest) :
    (s.put t p).history = s.history ++ [(t, a)] := by
  show s.history ++ ((s.task t).todo.take ((s.task t).todo.length - p.todo.length)).map (t, ·) = _
  rw [htodo, hp, List.length_cons, Nat.add_sub_cancel_left]
  rfl

omit [DecidableEq η] in
/-- Only a thread with accesses left that is not parked has a step. -/
theorem of_access (hstep : s.access t = some s') :
    (s.task t).parked = none ∧ ∃ a rest, (s.task t).todo = a :: rest := by
  obtain ⟨p, hp, -⟩ := Option.map_eq_some_iff.mp hstep
  obtain ⟨hw, hne⟩ := Pager.of_thread hp
  exact ⟨hw, List.exists_cons_of_ne_nil hne⟩

omit [DecidableEq τ] in
theorem receive_eq (hj : s.hand j = .polling) {queue : List UffdMsg}
    (hq : s.kernel.queue = msg :: queue) :
    s.receive j = some { s with
      kernel := { s.kernel with queue }
      hand := Function.update s.hand j (.serving msg) } := by
  unfold receive
  rw [hj, hq]

omit [DecidableEq τ] in
theorem of_receive (hstep : s.receive j = some s') :
    s.hand j = .polling ∧ ∃ msg queue, s.kernel.queue = msg :: queue ∧
      s' = { s with
        kernel := { s.kernel with queue }
        hand := Function.update s.hand j (.serving msg) } := by
  unfold receive at hstep
  split at hstep
  next msg queue hj hq =>
    cases hstep
    exact ⟨hj, msg, queue, hq, rfl⟩
  · cases hstep

omit [DecidableEq τ] in
/-- Reading a message leaves it pending. -/
theorem pending_receive (hstep : s.receive j = some s') : s'.Pending msg ↔ s.Pending msg := by
  obtain ⟨hj, m, queue, hq, rfl⟩ := of_receive hstep
  have hother : ∀ j', s.hand j' = .serving msg → j' ≠ j := by
    rintro j' hj' rfl
    cases hj.symm.trans hj'
  unfold Pending
  rw [hq, List.mem_cons]
  constructor
  · -- the message left the queue for the hand of `j`, and that is the only change
    rintro (hmem | ⟨j', hj'⟩)
    · exact .inl (.inr hmem)
    · by_cases hjj : j' = j
      · subst hjj
        dsimp only at hj'
        rw [Function.update_self] at hj'
        cases hj'
        exact .inl (.inl rfl)
      · dsimp only at hj'
        rw [Function.update_of_ne hjj] at hj'
        exact .inr ⟨j', hj'⟩
  · rintro ((rfl | hmem) | ⟨j', hj'⟩)
    · exact .inr ⟨j, Function.update_self ..⟩
    · exact .inl hmem
    · refine .inr ⟨j', ?_⟩
      dsimp only
      rw [Function.update_of_ne (hother j' hj')]
      exact hj'

omit [DecidableEq τ] in
theorem of_serve {h : Handler} (hstep : s.serve h j = some s') :
    ∃ msg, s.hand j = .serving msg := by
  unfold serve at hstep
  split at hstep
  next msg hj => exact ⟨msg, hj⟩
  · cases hstep

omit [DecidableEq τ] in
theorem serve_eq {h : Handler} (hj : s.hand j = .serving msg) {flow : Flow} {stats : HandlerStats}
    {kernel : Kernel}
    (hiter : h.iteration (.ok (some msg)) s.stats s.kernel = some (flow, stats, kernel)) :
    s.serve h j = some (s.served j flow stats kernel) := by
  unfold serve
  rw [hj]
  dsimp only
  rw [hiter]

end Steps

end Shared

/-! ### What holds of every state -/

/-- A message about an access of the region. -/
def Region.Reports (r : Region) (msg : UffdMsg) : Prop :=
  ∃ i w, i < r.len ∧ msg = Kernel.message (r.ptr + i) w

/-- Equal messages are about one page. -/
theorem Region.page_of_message (r : Region) {i j : ℕ} (hi : i < r.len) (hj : j < r.len)
    {v w : Bool} (h : Kernel.message (r.ptr + i) v = Kernel.message (r.ptr + j) w) :
    i / pageSize = j / pageSize := by
  have hi' := toNat_pagefaultAddress r hi v
  rw [h, toNat_pagefaultAddress r hj w] at hi'
  exact (Nat.eq_of_mul_eq_mul_right (by decide) (Nat.add_left_cancel hi')).symm

/-- The memory and the handlers' side, without the threads. -/
def Shared.pager {τ η : Type*} (s : Shared τ η) : Pager where
  kernel := s.kernel
  stats := s.stats
  looping := true
  todo := []
  reads := s.reads

/-- The accesses that happened, in the order in which they did, are those of the
threads, and mean what they mean to the eager memory `e`; `h` says which pages
are there.  A parked thread waits for a page that is not, and its message is
still pending. -/
structure Sound {τ η : Type*} [DecidableEq τ] (r : Region) (image : List UInt8)
    (program : τ → List Access) (s : Shared τ η) (e : Eager) (h : Ahead) : Prop where
  follows : Follows r image s.pager e h
  memory : (s.history.map Prod.snd).foldl (Eager.access image) (Eager.init image) = e
  order : ∀ t, (s.history.filter fun x => x.1 = t).map Prod.snd ++ (s.task t).todo = program t
  reports : ∀ msg, s.Pending msg → r.Reports msg
  parked : ∀ t a, (s.task t).parked = some a → ∃ i w b rest,
    (s.task t).todo = b :: rest ∧ b.target = some (i, w) ∧ i < r.len ∧ a = r.ptr + i ∧
      h.present (i / pageSize) = false ∧ s.Pending (Kernel.message (r.ptr + i) w)

namespace Sound

section Steps

variable {τ η : Type*} [DecidableEq τ] {r : Region} {image : List UInt8}
  {program : τ → List Access} {s s' : Shared τ η} {e : Eager} {h h' : Ahead} {t : τ} {a : Access}
  {rest : List Access} {p : Pager}

theorem init (r : Region) (image : List UInt8) (program : τ → List Access) :
    Sound r image program (Shared.init r program : Shared τ η) (Eager.init image) .fresh where
  follows := { Follows.init r image [] with }
  memory := rfl
  order _ := rfl
  reports msg hmsg := by
    rcases hmsg with hmem | ⟨j, hj⟩
    · cases hmem
    · cases hj
  parked _ _ hp := nomatch hp

/-- A thread sees the whole memory. -/
theorem view (hs : Sound r image program s e h) (t : τ) : Follows r image (s.view t) e h :=
  { hs.follows with }

theorem inRegion (hs : Sound r image program s e h) (has : ∀ t, ∀ a ∈ program t, a.InRegion r)
    (ha : a ∈ (s.task t).todo) : a.InRegion r := by
  apply has t
  rw [← hs.order t]
  exact List.mem_append_right _ ha

/-- A fault parks the thread, and its message is pending. -/
theorem fault (hs : Sound r image program s e h) {i : ℕ} {w : Bool}
    (htodo : (s.task t).todo = a :: rest) (ha : a.target = some (i, w)) (hi : i < r.len)
    (habs : h.present (i / pageSize) = false) :
    Sound r image program
      (s.put t { s.view t with kernel := (s.view t).kernel.fault (r.ptr + i) w }) e h := by
  set p : Pager := { s.view t with kernel := (s.view t).kernel.fault (r.ptr + i) w }
  have hhistory : (s.put t p).history = s.history := Shared.put_of_fault rfl
  have hpending : ∀ msg, (s.put t p).Pending msg ↔
      s.Pending msg ∨ msg = Kernel.message (r.ptr + i) w := by
    intro msg
    show (msg ∈ s.kernel.queue ++ [_] ∨ _) ↔ _
    rw [List.mem_append, List.mem_singleton]
    exact or_right_comm
  constructor
  · exact { hs.follows with }
  · rw [hhistory]
    exact hs.memory
  · intro u
    rw [hhistory]
    show _ ++ (Function.update s.task t _ u).todo = _
    by_cases hut : u = t
    · subst hut
      rw [Function.update_self]
      exact hs.order u
    · rw [Function.update_of_ne hut]
      exact hs.order u
  · intro msg hmsg
    rcases (hpending msg).mp hmsg with hmsg | rfl
    · exact hs.reports msg hmsg
    · exact ⟨i, w, hi, rfl⟩
  · -- thread `t` parks on the page just reported; the others stay as they were
    intro u b hb
    change (Function.update s.task t _ u).parked = _ at hb
    show ∃ i w b rest, (Function.update s.task t _ u).todo = _ ∧ _
    by_cases hut : u = t
    · subst hut
      rw [Function.update_self] at hb ⊢
      cases hb
      exact ⟨i, w, a, rest, htodo, ha, hi, rfl, habs, (hpending _).mpr (.inr rfl)⟩
    · rw [Function.update_of_ne hut] at hb ⊢
      obtain ⟨j, v, c, rest', htodo', hc, hin, rfl, hj, hmsg⟩ := hs.parked u b hb
      exact ⟨j, v, c, rest', htodo', hc, hin, rfl, hj, (hpending _).mpr (.inl hmsg)⟩

/-- An access that happens is the next of the eager memory. -/
theorem hit (hs : Sound r image program s e h) (htodo : (s.task t).todo = a :: rest)
    (hf : Follows r image p (e.access image a) h') (hp : p.todo = rest)
    (hw : p.kernel.waiter = none) (hq : p.kernel.queue = s.kernel.queue)
    (hkeep : ∀ v, h.present v = false → h'.present v = false) (hl : p.looping = true) :
    Sound r image program (s.put t p) (e.access image a) h' := by
  have hhistory : (s.put t p).history = s.history ++ [(t, a)] := Shared.put_of_hit htodo hp
  have hpending : ∀ msg, (s.put t p).Pending msg ↔ s.Pending msg := by
    intro msg
    show (msg ∈ p.kernel.queue ∨ _) ↔ _
    rw [hq]
    rfl
  constructor
  · exact { hf with looping := hl.symm.trans hf.looping }
  · rw [hhistory, List.map_append, List.foldl_append, hs.memory]
    rfl
  · intro u
    rw [hhistory, List.filter_append, List.map_append, ← hs.order u, List.append_assoc]
    congr 1
    show _ ++ (Function.update s.task t _ u).todo = _
    by_cases hut : u = t
    · subst hut
      rw [Function.update_self, htodo, hp]
      simp
    · rw [Function.update_of_ne hut]
      simp [Ne.symm hut]
  · intro msg hmsg
    exact hs.reports msg ((hpending msg).mp hmsg)
  · -- thread `t` did not park, and no page anyone waits for came in
    intro u b hb
    change (Function.update s.task t _ u).parked = _ at hb
    show ∃ i w b rest, (Function.update s.task t _ u).todo = _ ∧ _
    by_cases hut : u = t
    · subst hut
      rw [Function.update_self] at hb
      cases hw.symm.trans hb
    · rw [Function.update_of_ne hut] at hb ⊢
      obtain ⟨j, v, c, rest', htodo', hc, hin, rfl, hj, hmsg⟩ := hs.parked u b hb
      exact ⟨j, v, c, rest', htodo', hc, hin, rfl, hkeep _ hj, (hpending _).mpr hmsg⟩

/-- A thread with accesses left that is not parked has a step: it faults, or
the access happens. -/
theorem access (hs : Sound r image program s e h) (has : ∀ t, ∀ a ∈ program t, a.InRegion r)
    (hw : (s.task t).parked = none) (htodo : (s.task t).todo = a :: rest) :
    (∃ i w, a.target = some (i, w) ∧ i < r.len ∧ h.present (i / pageSize) = false ∧
      s.access t =
        some (s.put t { s.view t with kernel := (s.view t).kernel.fault (r.ptr + i) w })) ∨
    ∃ p h', s.access t = some (s.put t p) ∧ Follows r image p (e.access image a) h' ∧
      p.todo = rest ∧ p.kernel.waiter = none ∧ p.kernel.queue = s.kernel.queue ∧
      (∀ v, h.present v = false → h'.present v = false) ∧ p.looping = true := by
  have hv := hs.view t
  have hin := hs.inRegion has (a := a) (t := t) (by rw [htodo]; exact List.mem_cons_self)
  rcases ha : a.target with - | ⟨i, w⟩
  · obtain rfl := Access.eq_reset ha
    obtain ⟨hstep, hf⟩ := hv.thread_reset hw htodo
    exact .inr ⟨_, _, by rw [Shared.access, hstep]; rfl, hf, rfl, hw, rfl, fun _ _ => rfl, rfl⟩
  · -- the page is absent and the thread parks, or it is there and the access goes through
    have hi := hin i w ha
    rcases hp : h.present (i / pageSize) with - | -
    · refine .inl ⟨i, w, rfl, hi, hp, ?_⟩
      have hstep := Pager.thread_fault hv.region hw ha htodo ((hv.present_eq hi).trans hp)
      rw [Shared.access, hstep]
      rfl
    · obtain ⟨p, hstep, hf, htodo', hw', hq⟩ := hv.thread_hit hw ha hi htodo hp
      refine .inr ⟨p, h, by rw [Shared.access, hstep]; rfl, hf, htodo', hw', hq,
        fun _ hv => hv, ?_⟩
      exact hf.looping.trans hv.looping.symm

variable [DecidableEq η] {b : ℕ} {j : η}

/-- Reading a message changes nothing else. -/
theorem receive (hs : Sound r image program s e h) (hstep : s.receive j = some s') :
    Sound r image program s' e h := by
  have hpending : ∀ msg, s'.Pending msg ↔ s.Pending msg := fun _ => Shared.pending_receive hstep
  obtain ⟨hj, msg, queue, hq, rfl⟩ := Shared.of_receive hstep
  constructor
  · exact { hs.follows with }
  · exact hs.memory
  · exact hs.order
  · exact fun m hm => hs.reports m ((hpending m).mp hm)
  · intro u c hc
    obtain ⟨i, w, d, rest, htodo, hd, hin, rfl, hi, hm⟩ := hs.parked u c hc
    exact ⟨i, w, d, rest, htodo, hd, hin, rfl, hi, (hpending _).mpr hm⟩

omit [DecidableEq η] in
/-- What serving a message does: the page of the fault is there afterwards, and
no page is gone. -/
theorem iteration (hs : Sound r image program s e h) (himage : r.len ≤ image.length) (hb : 1 ≤ b)
    {i : ℕ} (hi : i < r.len) (w : Bool) :
    ∃ flow stats kernel h',
      (batched r image b).iteration (.ok (some (Kernel.message (r.ptr + i) w))) s.stats s.kernel =
        some (flow, stats, kernel) ∧
      Follows r image { s.pager with kernel, stats } e h' ∧ h'.present (i / pageSize) = true ∧
      (∀ v, h.present v = true → h'.present v = true) ∧ kernel.queue = s.kernel.queue ∧
      (b = 1 → flow = .looping) := by
  have hp := (r.page_bounds hi).2
  rcases hpresent : h.present (i / pageSize) with - | -
  · obtain ⟨flow, stats, hflow, hiter⟩ := hs.follows.iteration_absent hb hi w hpresent
    have hpos := Ahead.absentRun_pos hb hp hpresent
    have hrun : ∀ v, _ → _ → h.present v = false :=
      fun v => Kernel.absent_of_mem (p := i / pageSize) (n := r.run b (i / pageSize))
    refine ⟨flow, stats, _, _, hiter, hs.follows.install himage (r.run_inside b hp) hrun stats true,
      ?_, fun v hv => ?_, rfl, fun hone => ?_⟩
    · show (_ || _) = true
      rw [decide_eq_true ⟨le_rfl, by omega⟩, Bool.or_true]
    · show (h.present v || _) = true
      rw [hv, Bool.true_or]
    · -- a run of one page is installed whole
      have hle := Kernel.absentRun_le h.present (i / pageSize) (r.run b (i / pageSize))
      have hmin : r.run b (i / pageSize) ≤ b := Nat.min_le_left _ _
      rw [decide_eq_true (by omega)] at hflow
      exact eq_of_beq hflow
  · have hiter := Handler.iteration_fault hs.follows.region image hb hi w s.stats
    dsimp only at hiter
    have hrun : 0 < min b (r.pages - i / pageSize) := Nat.lt_min.mpr ⟨hb, by omega⟩
    have hzero : s.kernel.absentFrom (i / pageSize) (min b (r.pages - i / pageSize)) = 0 :=
      (Kernel.absentFrom_eq_zero_iff hrun).mpr ((hs.follows.present _ hp).trans hpresent)
    change (batched r image b).iteration _ _ s.pager.kernel = _ at hiter
    rw [show s.pager.kernel = s.kernel from rfl, hzero, if_neg (by omega), if_pos rfl] at hiter
    refine ⟨_, _, _, h, hiter, ?_, hpresent, fun _ hv => hv, rfl, fun _ => rfl⟩
    refine { hs.follows with copies := fun c hc => ?_ }
    rcases List.mem_append.mp hc with hc | hc
    · exact hs.follows.copies c hc
    · rw [List.mem_singleton.mp hc]
      exact inside_request himage (r.run_inside b hp)

/-- Serving a message wakes every thread that waits for its page. -/
theorem serve (hs : Sound r image program s e h) (himage : r.len ≤ image.length) (hb : 1 ≤ b)
    {msg : UffdMsg} (hj : s.hand j = .serving msg) :
    ∃ flow stats kernel h',
      s.serve (batched r image b) j = some (s.served j flow stats kernel) ∧
      Sound r image program (s.served j flow stats kernel) e h' ∧
      (∀ v, h.present v = true → h'.present v = true) ∧ kernel.queue = s.kernel.queue ∧
      (∀ i < r.len, kernel.present ((r.ptr + i) / pageSize) = h'.present (i / pageSize)) ∧
      (b = 1 → flow = .looping) := by
  obtain ⟨i, w, hi, rfl⟩ := hs.reports msg (.inr ⟨j, hj⟩)
  obtain ⟨flow, stats, kernel, h', hiter, hf, hpage, hkeep, hq, hone⟩ :=
    hs.iteration himage hb hi w
  have hpresent : ∀ i < r.len,
      kernel.present ((r.ptr + i) / pageSize) = h'.present (i / pageSize) :=
    fun i hi => hf.present_eq hi
  refine ⟨flow, stats, kernel, h', Shared.serve_eq hj hiter, ?_, hkeep, hq, hpresent, hone⟩
  set hand := Function.update s.hand j (if flow == .looping then .polling else .ended) with hhand
  have hserving : ∀ j' msg, hand j' = .serving msg → j' ≠ j ∧ s.hand j' = .serving msg := by
    intro j' msg hj'
    by_cases hjj : j' = j
    · rw [hjj, hhand, Function.update_self] at hj'
      split at hj' <;> cases hj'
    · rw [hhand, Function.update_of_ne hjj] at hj'
      exact ⟨hjj, hj'⟩
  constructor
  · exact { hf with }
  · exact hs.memory
  · exact hs.order
  · intro m hm
    apply hs.reports
    rcases hm with hm | ⟨j', hj'⟩
    · exact .inl (hq ▸ hm)
    · exact .inr ⟨j', (hserving j' m hj').2⟩
  · intro u c hc
    obtain ⟨hc', hwait⟩ := Option.filter_eq_some_iff.mp hc
    obtain ⟨k, v, d, rest, htodo, hd, hin, rfl, hk, hm⟩ := hs.parked u c hc'
    rw [hpresent k hin, Bool.not_eq_true'] at hwait
    -- the message it waits for is another one
    have hne : Kernel.message (r.ptr + k) v ≠ Kernel.message (r.ptr + i) w := by
      intro hsame
      rw [r.page_of_message hin hi hsame, hpage] at hwait
      cases hwait
    refine ⟨k, v, d, rest, htodo, hd, hin, rfl, hwait, ?_⟩
    rcases hm with hm | ⟨j', hj'⟩
    · exact .inl (hq.symm ▸ hm)
    · refine .inr ⟨j', ?_⟩
      have hjj : j' ≠ j := by
        rintro rfl
        exact hne (Hand.serving.inj (hj'.symm.trans hj))
      show hand j' = _
      rw [hhand, Function.update_of_ne hjj]
      exact hj'

end Steps

end Sound

/-! ### What is left to do -/

/-- The handler holds a fault that it has read. -/
def Hand.busy : Hand → Bool
  | .serving _ => true
  | _ => false

namespace Shared

variable {τ η : Type*}

/-- The next step of the thread is a fault. -/
def wants (s : Shared τ η) (h : Ahead) (t : τ) : Bool :=
  (s.task t).parked.isNone &&
    match (s.task t).todo.head?.bind Access.target with
    | some (i, _) => !h.present (i / pageSize)
    | none => false

variable [Fintype τ] [Fintype η]

/-- A fault is three steps: it happens, is read and is served.  An access that
happens may make every thread fault. -/
def work (s : Shared τ η) (h : Ahead) : ℕ :=
  (∑ t, (s.task t).todo.length) * (3 * Fintype.card τ + 1) +
    (3 * (Finset.univ.filter fun t => s.wants h t = true).card + 2 * s.kernel.queue.length +
      (Finset.univ.filter fun j => (s.hand j).busy = true).card)

theorem work_init_le (r : Region) (program : τ → List Access) :
    (Shared.init r program : Shared τ η).work .fresh ≤
      (∑ t, (program t).length + 1) * (3 * Fintype.card τ + 1) := by
  have hwants := Finset.card_le_univ
    (Finset.univ.filter fun t => (Shared.init r program : Shared τ η).wants .fresh t = true)
  have hbusy : (Finset.univ.filter fun j =>
      ((Shared.init r program : Shared τ η).hand j).busy = true).card = 0 := by
    rw [Finset.card_eq_zero]
    exact Finset.filter_eq_empty_iff.mpr fun _ _ => Bool.false_ne_true
  have hqueue : (Shared.init r program : Shared τ η).kernel.queue.length = 0 := rfl
  have htodo : ∑ t, ((Shared.init r program : Shared τ η).task t).todo.length =
      ∑ t, (program t).length := rfl
  rw [work, hbusy, hqueue, htodo, Nat.add_mul]
  omega

variable [DecidableEq τ] [DecidableEq η] {s s' : Shared τ η} {h h' : Ahead} {t : τ} {j : η}

omit [DecidableEq η] in
/-- A fault takes one step of its three. -/
theorem work_fault {p : Pager} (hp : p.todo = (s.task t).todo) (hw : p.kernel.waiter ≠ none)
    (hq : p.kernel.queue.length = s.kernel.queue.length + 1) (ht : s.wants h t = true) :
    (s.put t p).work h < s.work h := by
  have htask : ∀ u, ((s.put t p).task u).todo = (s.task u).todo := by
    intro u
    show (Function.update s.task t _ u).todo = _
    by_cases hut : u = t
    · subst hut
      rw [Function.update_self]
      exact hp
    · rw [Function.update_of_ne hut]
  -- one thread fewer wants to fault, which pays for the message it queued
  have hwants : (Finset.univ.filter fun u => (s.put t p).wants h u = true) ⊂
      Finset.univ.filter fun u => s.wants h u = true := by
    apply Finset.ssubset_iff_of_subset _ |>.mpr
    · refine ⟨t, Finset.mem_filter.mpr ⟨Finset.mem_univ t, ht⟩, fun hmem => ?_⟩
      have hparked : ((s.put t p).task t).parked = p.kernel.waiter := by
        show (Function.update s.task t _ t).parked = _
        rw [Function.update_self]
      have hstill := (Finset.mem_filter.mp hmem).2
      rw [wants, hparked, Option.isNone_eq_false_iff.mpr (Option.isSome_iff_ne_none.mpr hw)]
        at hstill
      cases hstill
    · intro u hu
      obtain ⟨-, hu⟩ := Finset.mem_filter.mp hu
      refine Finset.mem_filter.mpr ⟨Finset.mem_univ u, ?_⟩
      by_cases hut : u = t
      · rw [hut]
        exact ht
      · have hsame : (s.put t p).task u = s.task u := Function.update_of_ne hut ..
        rwa [wants, hsame] at hu
  have hcard := Finset.card_lt_card hwants
  have hsum : ∑ u, ((s.put t p).task u).todo.length = ∑ u, (s.task u).todo.length :=
    Finset.sum_congr rfl fun u _ => by rw [htask u]
  have hqueue : (s.put t p).kernel.queue.length = s.kernel.queue.length + 1 := hq
  have hhand : (s.put t p).hand = s.hand := rfl
  rw [work, work, hsum, hqueue, hhand]
  omega

omit [DecidableEq η] in
/-- An access that happens pays for the faults it may cause. -/
theorem work_hit {p : Pager} {a : Access} (htodo : (s.task t).todo = a :: p.todo)
    (hq : p.kernel.queue = s.kernel.queue) : (s.put t p).work h' < s.work h := by
  have hsum : ∑ u, ((s.put t p).task u).todo.length < ∑ u, (s.task u).todo.length := by
    apply Finset.sum_lt_sum
    · intro u _
      show (Function.update s.task t _ u).todo.length ≤ _
      by_cases hut : u = t
      · subst hut
        rw [Function.update_self, htodo]
        exact Nat.le_succ _
      · rw [Function.update_of_ne hut]
    · refine ⟨t, Finset.mem_univ t, ?_⟩
      show (Function.update s.task t _ t).todo.length < _
      rw [Function.update_self, htodo]
      exact Nat.lt_succ_self _
  have hwants := Finset.card_le_univ
    (Finset.univ.filter fun u => (s.put t p).wants h' u = true)
  have hqueue : (s.put t p).kernel.queue = s.kernel.queue := hq
  have hhand : (s.put t p).hand = s.hand := rfl
  -- an access done pays for all the faults the threads may now want
  have hmul := Nat.mul_le_mul_right (3 * Fintype.card τ + 1) hsum
  rw [Nat.succ_mul] at hmul
  rw [work, work, hqueue, hhand]
  omega

omit [DecidableEq τ] in
/-- Reading takes the second step. -/
theorem work_receive (hstep : s.receive j = some s') : s'.work h < s.work h := by
  obtain ⟨hj, msg, queue, hq, rfl⟩ := of_receive hstep
  have hbusy : (Finset.univ.filter fun i =>
      (Function.update s.hand j (.serving msg) i).busy = true).card ≤
        (Finset.univ.filter fun i => (s.hand i).busy = true).card + 1 := by
    refine le_trans (Finset.card_le_card ?_) (Finset.card_insert_le j _)
    intro i hi
    by_cases hij : i = j
    · exact Finset.mem_insert.mpr (.inl hij)
    · rw [Finset.mem_filter, Function.update_of_ne hij] at hi
      exact Finset.mem_insert_of_mem (Finset.mem_filter.mpr hi)
  have hlen : s.kernel.queue.length = queue.length + 1 := by rw [hq, List.length_cons]
  have hwants : ∀ t, ({ s with
      kernel := { s.kernel with queue }
      hand := Function.update s.hand j (.serving msg) } : Shared τ η).wants h t = s.wants h t :=
    fun _ => rfl
  simp only [work, hwants, hlen]
  omega

omit [DecidableEq τ] in
/-- Serving takes the third. -/
theorem work_serve {flow : Flow} {stats : HandlerStats} {kernel : Kernel} {msg : UffdMsg}
    (hj : s.hand j = .serving msg) (hq : kernel.queue = s.kernel.queue)
    (hwants : ∀ t, (s.served j flow stats kernel).wants h' t = true → s.wants h t = true) :
    (s.served j flow stats kernel).work h' < s.work h := by
  -- one hand fewer is busy, and nobody wants more than before
  have hbusy : (Finset.univ.filter fun i => ((s.served j flow stats kernel).hand i).busy = true) ⊂
      Finset.univ.filter fun i => (s.hand i).busy = true := by
    apply Finset.ssubset_iff_of_subset _ |>.mpr
    · refine ⟨j, Finset.mem_filter.mpr ⟨Finset.mem_univ j, by rw [hj]; rfl⟩, fun hmem => ?_⟩
      have hdone := (Finset.mem_filter.mp hmem).2
      change (Function.update s.hand j _ j).busy = true at hdone
      rw [Function.update_self] at hdone
      split at hdone <;> cases hdone
    · intro i hi
      have hi := (Finset.mem_filter.mp hi).2
      change (Function.update s.hand j _ i).busy = true at hi
      refine Finset.mem_filter.mpr ⟨Finset.mem_univ i, ?_⟩
      by_cases hij : i = j
      · rw [hij, hj]
        rfl
      · rwa [Function.update_of_ne hij] at hi
  have hcard := Finset.card_lt_card hbusy
  have hwant := Finset.card_le_card
    (Finset.monotone_filter_right Finset.univ fun t (_ : t ∈ Finset.univ) => hwants t)
  have hqueue : (s.served j flow stats kernel).kernel.queue = s.kernel.queue := hq
  have hsum : ∑ t, ((s.served j flow stats kernel).task t).todo.length =
      ∑ t, (s.task t).todo.length := rfl
  rw [work, work, hsum, hqueue]
  omega

end Shared

/-! ### Every run -/

section Runs

variable {τ η : Type*} [DecidableEq τ] [DecidableEq η] {r : Region} {image : List UInt8} {b n : ℕ}
  {program : τ → List Access} {s : Shared τ η} {e : Eager} {h h' : Ahead}

omit [DecidableEq τ] [DecidableEq η] in
theorem Shared.wants_of_absent {t : τ} {a : Access} {rest : List Access} {i : ℕ} {w : Bool}
    (hw : (s.task t).parked = none) (htodo : (s.task t).todo = a :: rest)
    (ha : a.target = some (i, w)) (habs : h.present (i / pageSize) = false) :
    s.wants h t = true := by
  have hnext : (a :: rest).head?.bind Access.target = some (i, w) := ha
  rw [Shared.wants, hw, htodo, hnext]
  dsimp only
  rw [habs]
  rfl

/-- Serving a message makes no thread fault: who was parked and is woken finds
its page. -/
theorem Sound.wants_served (hs : Sound r image program s e h) {j : η} {flow : Flow}
    {stats : HandlerStats} {kernel : Kernel} (hkeep : ∀ v, h.present v = true → h'.present v = true)
    (hpresent : ∀ i < r.len, kernel.present ((r.ptr + i) / pageSize) = h'.present (i / pageSize))
    {t : τ} (ht : (s.served j flow stats kernel).wants h' t = true) : s.wants h t = true := by
  obtain ⟨hw, hnext⟩ := Bool.and_eq_true_iff.mp ht
  change Option.isNone ((s.task t).parked.filter _) = true at hw
  change (match (s.task t).todo.head?.bind Access.target with
    | some (i, _) => !h'.present (i / pageSize)
    | none => false) = true at hnext
  rcases hparked : (s.task t).parked with - | a
  · rw [Shared.wants, hparked]
    rcases htarget : (s.task t).todo.head?.bind Access.target with - | ⟨i, w⟩
    · rw [htarget] at hnext
      cases hnext
    · rw [htarget] at hnext
      dsimp only at hnext ⊢
      rcases hp : h.present (i / pageSize) with - | -
      · rfl
      · rw [hkeep _ hp] at hnext
        cases hnext
  · -- a woken thread does not want to fault: the page it waited for is there
    obtain ⟨i, w, c, rest, htodo, hc, hin, rfl, -, -⟩ := hs.parked t a hparked
    rw [hparked, Option.filter_some, hpresent i hin] at hw
    have hhead : (c :: rest).head?.bind Access.target = some (i, w) := hc
    rw [htodo, hhead] at hnext
    dsimp only at hnext
    rw [hnext] at hw
    cases hw

variable [Fintype τ] [Fintype η]

/-- The run lemma. -/
theorem Shared.Run.sound (himage : r.len ≤ image.length) (hb : 1 ≤ b)
    (has : ∀ t, ∀ a ∈ program t, a.InRegion r)
    (hrun : Shared.Run (batched r image b) n (Shared.init r program) s) :
    ∃ e h, Sound r image program s e h ∧
      n + s.work h ≤ (∑ t, (program t).length + 1) * (3 * Fintype.card τ + 1) ∧
      (b = 1 → ∀ j, s.hand j ≠ .ended) := by
  -- the invariant of the run: soundness, the work left, and living handlers for single pages
  refine hrun.invariant (P := fun n s => ∃ e h, Sound r image program s e h ∧
      n + s.work h ≤ (∑ t, (program t).length + 1) * (3 * Fintype.card τ + 1) ∧
      (b = 1 → ∀ j, s.hand j ≠ .ended)) ?_ ?_ ?_ ?_
  · rintro n s s' t ⟨e, h, hs, hle, hhands⟩ hstep
    obtain ⟨hw, a, rest, htodo⟩ := Shared.of_access hstep
    rcases hs.access has hw htodo with
      ⟨i, w, ha, hi, habs, heq⟩ | ⟨p, h', heq, hf, hp, hwait, hq, hkeep, hl⟩
    · cases heq.symm.trans hstep
      refine ⟨e, h, hs.fault htodo ha hi habs, ?_, hhands⟩
      have hlt := Shared.work_fault (s := s) (h := h) (t := t)
        (p := { s.view t with kernel := (s.view t).kernel.fault (r.ptr + i) w }) rfl nofun
        List.length_append (Shared.wants_of_absent hw htodo ha habs)
      omega
    · cases heq.symm.trans hstep
      refine ⟨_, h', hs.hit htodo hf hp hwait hq hkeep hl, ?_, hhands⟩
      have hlt : (s.put t p).work h' < s.work h := Shared.work_hit (hp ▸ htodo) hq
      omega
  · rintro n s s' j ⟨e, h, hs, hle, hhands⟩ hstep
    refine ⟨e, h, hs.receive hstep, ?_, fun hone j' => ?_⟩
    · have hlt := Shared.work_receive (h := h) hstep
      omega
    · obtain ⟨-, msg, queue, -, rfl⟩ := Shared.of_receive hstep
      by_cases hjj : j' = j
      · subst hjj
        dsimp only
        rw [Function.update_self]
        exact nofun
      · dsimp only
        rw [Function.update_of_ne hjj]
        exact hhands hone j'
  · rintro n s s' j ⟨e, h, hs, hle, hhands⟩ hstep
    obtain ⟨msg, hj⟩ := Shared.of_serve hstep
    obtain ⟨flow, stats, kernel, h', heq, hs', hkeep, hq, hpresent, hone⟩ := hs.serve himage hb hj
    cases heq.symm.trans hstep
    refine ⟨e, h', hs', ?_, fun hb1 j' => ?_⟩
    · have hlt : (s.served j flow stats kernel).work h' < s.work h :=
        Shared.work_serve hj hq fun t => hs.wants_served hkeep hpresent
      omega
    · show Function.update s.hand j _ j' ≠ _
      by_cases hjj : j' = j
      · subst hjj
        rw [Function.update_self, hone hb1]
        exact nofun
      · rw [Function.update_of_ne hjj]
        exact hhands hb1 j'
  · refine ⟨_, _, Sound.init r image program, ?_, fun _ _ => nofun⟩
    rw [Nat.zero_add]
    exact Shared.work_init_le r program

omit [Fintype τ] [Fintype η] in
/-- While a thread has accesses left and a handler is left, somebody can move. -/
theorem Sound.progress (hs : Sound r image program s e h) (himage : r.len ≤ image.length)
    (hb : 1 ≤ b) (has : ∀ t, ∀ a ∈ program t, a.InRegion r) {t : τ} (ht : (s.task t).todo ≠ [])
    {j : η} (hj : s.hand j ≠ .ended) :
    ∃ s', (∃ t, s.access t = some s') ∨ (∃ j, s.receive j = some s') ∨
      ∃ j, s.serve (batched r image b) j = some s' := by
  have hserve : ∀ {j : η} {msg}, s.hand j = .serving msg →
      ∃ s', s.serve (batched r image b) j = some s' := by
    intro j msg hj
    obtain ⟨flow, stats, kernel, h', heq, -⟩ := hs.serve himage hb hj
    exact ⟨_, heq⟩
  rcases hparked : (s.task t).parked with - | a
  · obtain ⟨a, rest, htodo⟩ := List.exists_cons_of_ne_nil ht
    rcases hs.access has hparked htodo with ⟨i, w, -, -, -, heq⟩ | ⟨p, h', heq, -⟩
    · exact ⟨_, .inl ⟨t, heq⟩⟩
    · exact ⟨_, .inl ⟨t, heq⟩⟩
  · -- its message is in the queue or with a handler
    obtain ⟨i, w, c, rest, -, -, -, -, -, hmem | ⟨j', hj'⟩⟩ := hs.parked t a hparked
    · rcases hhand : s.hand j with - | msg | -
      · obtain ⟨msg, queue, hq⟩ := List.exists_cons_of_ne_nil (List.ne_nil_of_mem hmem)
        exact ⟨_, .inr (.inl ⟨j, Shared.receive_eq hhand hq⟩)⟩
      · obtain ⟨s', hs'⟩ := hserve hhand
        exact ⟨s', .inr (.inr ⟨j, hs'⟩)⟩
      · exact absurd hhand hj
    · obtain ⟨s', hs'⟩ := hserve hj'
      exact ⟨s', .inr (.inr ⟨j', hs'⟩)⟩

/-- With one page per fault, every run can be continued until all is done. -/
theorem Shared.Run.exists_done [Nonempty η] (himage : r.len ≤ image.length)
    (has : ∀ t, ∀ a ∈ program t, a.InRegion r)
    (hrun : Shared.Run (batched r image 1) n (Shared.init r program) s) :
    ∃ n' s', Shared.Run (batched r image 1) n' (Shared.init r program : Shared τ η) s' ∧
      ∀ t, (s'.task t).todo = [] := by
  obtain ⟨j⟩ := ‹Nonempty η›
  -- the bound leaves finitely many steps, and until the threads are done there is a next one
  induction hk : (∑ t, (program t).length + 1) * (3 * Fintype.card τ + 1) - n
    using Nat.strong_induction_on generalizing n s with
  | _ k ih =>
    obtain ⟨e, h, hs, -, hhands⟩ := hrun.sound himage le_rfl has
    by_cases hdone : ∀ t, (s.task t).todo = []
    · exact ⟨n, s, hrun, hdone⟩
    obtain ⟨t, ht⟩ := not_forall.mp hdone
    have hnext : ∃ s' : Shared τ η,
        Shared.Run (batched r image 1) (n + 1) (Shared.init r program) s' := by
      obtain ⟨s', ⟨t, hs'⟩ | ⟨j, hs'⟩ | ⟨j, hs'⟩⟩ :=
        hs.progress himage le_rfl has ht (hhands rfl j)
      · exact ⟨s', hrun.access hs'⟩
      · exact ⟨s', hrun.receive hs'⟩
      · exact ⟨s', hrun.serve hs'⟩
    obtain ⟨s', hrun'⟩ := hnext
    obtain ⟨e', h', -, hle, -⟩ := hrun'.sound himage le_rfl has
    refine ih _ ?_ hrun' rfl
    omega

/-- For every region, image that covers it, number of threads with any accesses
and resets, number of handlers and batch size, in every interleaving.  The
number of steps is bounded, and no request leaves the region or the image.  Each
thread's accesses happen in its order, none lost and none twice.  The reads
return what one eager memory returns for all the accesses in the order in which
they happened.  While a handler is left somebody can move until all is done;
with one page per fault no handler ever ends. -/
theorem shared_handlers_restore (r : Region) {image : List UInt8} (himage : r.len ≤ image.length)
    {b : ℕ} (hb : 1 ≤ b) {program : τ → List Access}
    (has : ∀ t, ∀ a ∈ program t, a.InRegion r) {n : ℕ} {s : Shared τ η}
    (hrun : Shared.Run (batched r image b) n (Shared.init r program) s) :
    n ≤ (∑ t, (program t).length + 1) * (3 * Fintype.card τ + 1) ∧
    (∀ c ∈ s.kernel.copies, c.Inside r image) ∧
    (∀ t, (s.history.filter fun x => x.1 = t).map Prod.snd ++ (s.task t).todo = program t) ∧
    s.reads =
      ((s.history.map Prod.snd).foldl (Eager.access image) (Eager.init image)).reads ∧
    ((∃ t, (s.task t).todo ≠ []) → (∃ j, s.hand j ≠ .ended) →
      ∃ s', (∃ t, s.access t = some s') ∨ (∃ j, s.receive j = some s') ∨
        ∃ j, s.serve (batched r image b) j = some s') ∧
    (b = 1 → ∀ j, s.hand j ≠ .ended) := by
  obtain ⟨e, h, hs, hle, hhands⟩ := hrun.sound himage hb has
  refine ⟨by omega, hs.follows.copies, hs.order, ?_, ?_, hhands⟩
  · rw [hs.memory]
    exact hs.follows.reads
  · rintro ⟨t, ht⟩ ⟨j, hj⟩
    exact hs.progress himage hb has ht hj

/-- Two threads that read the same byte. -/
def twice : Fin 2 → List Access := fun _ => [.read 5]

/-- Two handlers for the two of them. -/
theorem shared_handlers_restore_twice :
    ∃ n, ∃ s : Shared (Fin 2) (Fin 2),
      Shared.Run (batched onePageRegion (List.replicate 4096 7) 1) n
        (Shared.init onePageRegion twice) s ∧ n ≤ 21 ∧ s.reads = [7, 7] ∧
      ∀ j, s.hand j ≠ .ended := by
  have himage : onePageRegion.len ≤ (List.replicate 4096 (7 : UInt8)).length :=
    List.length_replicate.ge
  have hin : ∀ t, ∀ a ∈ twice t, a.InRegion onePageRegion := by
    intro t a ha i w hi
    rw [List.mem_singleton.mp ha] at hi
    cases hi
    decide
  have hstart : Shared.Run (batched onePageRegion (List.replicate 4096 7) 1) 0
      (Shared.init onePageRegion twice : Shared (Fin 2) (Fin 2))
      (Shared.init onePageRegion twice) := .refl _
  obtain ⟨n, s, hrun, hdone⟩ := hstart.exists_done himage hin
  obtain ⟨hle, -, horder, hreads, -, hhands⟩ :=
    shared_handlers_restore onePageRegion himage le_rfl hin hrun
  have horder' : ∀ t, (s.history.filter fun x => x.1 = t).map Prod.snd = [.read 5] := by
    intro t
    have h := horder t
    rwa [hdone t, List.append_nil] at h
  -- each thread did its one access, whatever the order
  have hlen : (s.history.map Prod.snd).length = 2 := by
    have hcount : ∀ t, (s.history.filter fun x => x.1 = t).length = 1 := by
      intro t
      rw [← List.length_map Prod.snd, horder' t]
      rfl
    have hone : (s.history.filter fun x => !decide (x.1 = 0)) =
        s.history.filter fun x => x.1 = 1 := by
      apply List.filter_congr
      intro x _
      have hfin : ∀ t : Fin 2, (!decide (t = 0)) = decide (t = 1) := by decide
      exact hfin x.1
    rw [List.length_map,
      List.length_eq_length_filter_add fun x : Fin 2 × Access => decide (x.1 = 0), hone, hcount,
      hcount]
  have hall : ∀ a ∈ s.history.map Prod.snd, a = .read 5 := by
    intro a ha
    obtain ⟨x, hx, rfl⟩ := List.mem_map.mp ha
    have hmem : x.2 ∈ (s.history.filter fun y => y.1 = x.1).map Prod.snd :=
      List.mem_map.mpr ⟨x, List.mem_filter.mpr ⟨hx, decide_eq_true rfl⟩, rfl⟩
    rw [horder'] at hmem
    exact List.mem_singleton.mp hmem
  rw [List.eq_replicate_iff.mpr ⟨hlen, hall⟩] at hreads
  exact ⟨n, s, hrun, hle, hreads, hhands rfl⟩

end Runs

end SystemsStudy.Uffd
