/-
SystemsStudy/Kvm/Transparent.lean

Trap and emulate is transparent: what a guest does under `Vm::run` is what it
does on the board.

One pass of the loop, answering one `KVM_RUN`, is no step of the board if the
guest was interrupted and one run of the board otherwise
(`RunState.Tracks.resume`), so a session is a run of the board
(`Vm.run_transparent`), for any guest and wherever the interruptions fall.  The
board is deterministic.  Hence a guest that halts there also halts under
`Vm::run`, after the same accesses (`Vm.run_halts`).
-/
import SystemsStudy.Kvm.Bench
import SystemsStudy.Kvm.Session

namespace SystemsStudy.Kvm

open Trap

variable {n : ℕ} {σ : Type}

/-! ### The page, as the loop reads it -/

section Page

variable {page page' : KvmRun n} {a : Access} {operand : Operand} {past : List Access}

/-- The loop takes the access for what it is, and refuses it if no device answers. -/
theorem Fills.event_eq (h : Fills page a operand) :
    event (.ok page) = if a.onBus then .access a else .refused := by
  have hmmio : ∀ {len : ℕ}, page.mmio.len.toNat = len → len ≤ 8 → page.mmioLen = len := by
    intro len hlen hle
    rw [KvmRun.mmioLen, hlen, Nat.min_eq_left hle]
  have hne : kvmExitMmio ≠ kvmExitIo := by decide
  cases h with
  -- a port is always on the bus, an address only inside the window
  | out hexit hdir hn hdata =>
      show (if _ then page.ioEvent else _) = _
      rw [if_pos hexit, KvmRun.ioEvent, if_neg (Nat.not_lt.mpr hn), if_pos hdir, hdata]
      rfl
  | inp hexit hdir hoff hlen hn =>
      rw [← hoff, ← hlen] at hn
      rw [KvmRun.event_inp page hexit hn hdir, hlen]
      rfl
  | store hexit hwrite hlen hle hdata =>
      show (if _ then _ else if _ then page.mmioEvent else _) = _
      rw [if_neg (hexit ▸ hne), if_pos hexit, KvmRun.mmioEvent, if_pos hwrite, KvmRun.data,
        hmmio hlen hle, hdata, Access.onBus]
      cases Devices.ownsMmio page.mmio.physAddr <;> rfl
  | load hexit hread hlen hle =>
      show (if _ then _ else if _ then page.mmioEvent else _) = _
      rw [if_neg (hexit ▸ hne), if_pos hexit, KvmRun.mmioEvent, if_neg (not_not.mpr hread),
        hmmio hlen hle, Access.onBus]
      cases Devices.ownsMmio page.mmio.physAddr <;> rfl

theorem GivesUp.event_eq {o : Outcome n} (h : GivesUp o) : event o = .refused := by
  cases o with
  | error e => exact if_neg h
  | ok page =>
      simp only [GivesUp, List.mem_cons, List.not_mem_nil, or_false, not_or] at h
      obtain ⟨hio, hmmio, hhlt, hintr⟩ := h
      show (if _ then _ else if _ then _ else if _ then _ else if _ then _ else _) = _
      rw [if_neg hio, if_neg hmmio, if_neg hhlt, if_neg hintr]

theorem event_of_eintr : event (.error eintr : Outcome n) = .eintr := by
  rw [event, if_pos rfl]

theorem event_of_intr (h : page.exitReason = kvmExitIntr) : event (.ok page) = .intr := by
  show (if _ then _ else if _ then _ else if _ then _ else if _ then _ else _) = _
  rw [if_neg (h ▸ by decide), if_neg (h ▸ by decide), if_neg (h ▸ by decide), if_pos h]

theorem event_of_hlt (h : page.exitReason = kvmExitHlt) : event (.ok page) = .hlt := by
  show (if _ then _ else if _ then _ else if _ then _ else _) = _
  rw [if_neg (h ▸ by decide), if_neg (h ▸ by decide), if_pos h]

/-- The loop answers in the page it was given, and where the kernel said. -/
theorem Vm.pass_page {st st' : RunState} {reply : Outcome n}
    (hp : pass st (.ok page) = some (.resumed st' reply)) :
    ∃ page' : KvmRun n, reply = .ok page' ∧ page'.io = page.io ∧
      page'.mmio.len = page.mmio.len := by
  simp only [pass, Option.bind_eq_bind, Option.bind_eq_some_iff] at hp
  obtain ⟨_, _, hp⟩ := hp
  -- the I/O exits leave the registers of the page alone
  split at hp
  · simp only [ioExit, Option.bind_eq_bind, Option.bind_eq_some_iff] at hp
    obtain ⟨_, _, hp⟩ := hp
    split at hp
    · cases hp
    split at hp
    · obtain ⟨_, _, hp⟩ := Option.bind_eq_some_iff.mp hp
      cases hp
      exact ⟨page, rfl, rfl, rfl⟩
    split at hp
    · obtain ⟨_, _, hp⟩ := Option.bind_eq_some_iff.mp hp
      cases hp
      exact ⟨_, rfl, rfl, rfl⟩
    · cases hp
  split at hp
  · simp only [mmioExit, Option.bind_eq_bind, Option.bind_eq_some_iff] at hp
    obtain ⟨_, _, hp⟩ := hp
    split at hp
    · cases hp
    split at hp
    · obtain ⟨_, _, hp⟩ := Option.bind_eq_some_iff.mp hp
      cases hp
      exact ⟨page, rfl, rfl, rfl⟩
    · obtain ⟨_, _, hp⟩ := Option.bind_eq_some_iff.mp hp
      cases hp
      exact ⟨_, rfl, rfl, rfl⟩
  split at hp
  · cases hp
  split at hp
  · obtain ⟨_, _, hp⟩ := Option.bind_eq_some_iff.mp hp
    cases hp
    exact ⟨page, rfl, rfl, rfl⟩
  · cases hp

/-- What the kernel reads when it completes an access is what the loop answered. -/
theorem Fills.read_eq (h : Fills page a operand) (hbus : a.onBus = true)
    (hans : Answers past (.ok page) (.ok page')) (hio : page'.io = page.io)
    (hlen : page'.mmio.len = page.mmio.len) : operand.read page' = a.answer past := by
  have hev := h.event_eq
  rw [if_pos hbus] at hev
  have hev' : event (.ok page') = .access a := hans.event_eq.trans hev
  have hreads := hans.reads
  rw [hev] at hreads
  cases h with
  -- a store reads nothing back
  | out => rfl
  | inp hexit hdir hoff hcount hn =>
      have hioLen : page'.ioLen = page.ioLen := by rw [KvmRun.ioLen, hio, KvmRun.ioLen]
      simp only [guestReads, hev'] at hreads
      rw [KvmRun.payload, hioLen, hcount, hio, hoff] at hreads
      exact hreads
  | store => rfl
  | load hexit hread hmmio hle =>
      have hmin : page'.mmioLen = page.mmio.len.toNat := by
        rw [KvmRun.mmioLen, hlen, hmmio, Nat.min_eq_left hle]
      simp only [guestReads, hev'] at hreads
      rw [KvmRun.data, hmin, hmmio] at hreads
      exact hreads

end Page

/-! ### One `KVM_RUN` -/

section Pass

variable {prog : Guest σ} {s t : σ} {o reply : Outcome n} {v : Vcpu σ}
variable {past : List (Outcome n)} {st st' : RunState} {b₀ : Board σ}

/-- A board in a state of the guest, after the accesses of a trace. -/
def Board.upTo (past : List (Outcome n)) (s : σ) : Board σ where
  state := s
  server := Chip.after (accesses past)
  log := accesses past

/-- The board does not change with what is not an access. -/
theorem Board.upTo_snoc_of_none (h : (event o).access? = none) :
    upTo (past ++ [o]) s = upTo past s := by
  rw [upTo, accesses_snoc_of_none h, upTo]

/-- A `KVM_RUN`, by what the loop makes of its outcome. -/
theorem KvmRuns.cases_event (h : KvmRuns prog s o v) :
    ((event o = .eintr ∨ event o = .intr) ∧ Enter prog s .interrupted v.guest) ∨
    (∃ page a, o = .ok page ∧ Enter prog s (.call a) v.guest ∧ Fills page a v.operand) ∨
    (event o = .hlt ∧ Enter prog s .halted v.guest) ∨
    (event o = .refused ∧ Enter prog s .stuck v.guest) := by
  cases h with
  | eintr he => exact .inl ⟨.inl event_of_eintr, he⟩
  | intr he hexit => exact .inl ⟨.inr (event_of_intr hexit), he⟩
  | exit he hfills => exact .inr (.inl ⟨_, _, rfl, he, hfills⟩)
  | hlt he hexit => exact .inr (.inr (.inl ⟨event_of_hlt hexit, he⟩))
  | failed he hgives => exact .inr (.inr (.inr ⟨hgives.event_eq, he⟩))

/-- A pass that resumes the guest: the board runs on to where the guest is resumed. -/
theorem RunState.Tracks.resume (h : st.Tracks past)
    (hp : Vm.pass st o = some (.resumed st' reply)) (hkvm : KvmRuns prog s o v)
    (hruns : Runs prog Chip.serve b₀ (Board.upTo past s)) :
    st'.Tracks (past ++ [o]) ∧
      Runs prog Chip.serve b₀ (Board.upTo (past ++ [o]) (v.complete reply)) := by
  obtain ⟨ht, hans⟩ := h.pass hp
  have hordinary := ht.ordinary o (List.mem_append_right _ (List.mem_singleton_self o))
  refine ⟨ht, ?_⟩
  rcases hkvm.cases_event with ⟨hev, he⟩ | ⟨page, a, rfl, he, hfills⟩ | ⟨hev, -⟩ | ⟨hev, -⟩
  · -- interrupted: the guest is where it was, and the board too
    have hnone : (event o).access? = none := by
      rcases hev with hev | hev <;> rw [hev] <;> rfl
    rw [Board.upTo_snoc_of_none hnone]
    cases reply with
    | ok page => exact runs_interrupted hruns he _
    | error e => exact runs_interrupted hruns he _
  · -- an access: off the bus the loop would not have resumed
    have hbus : a.onBus = true := by
      by_contra hoff
      have hev := hfills.event_eq
      rw [if_neg hoff] at hev
      exact hordinary.2 hev
    have hev := hfills.event_eq
    rw [if_pos hbus] at hev
    obtain ⟨page', rfl, hio, hlen⟩ := Vm.pass_page hp
    have hread := hfills.read_eq hbus hans hio hlen
    -- the chip answers what the devices put in the page
    have hserve := Chip.serve_after (accesses past) hbus
    rw [← hread] at hserve
    rw [Board.upTo, accesses_snoc_of_access hev]
    exact runs_call hruns he hserve
  · exact absurd hev hordinary.1
  · exact absurd hev hordinary.2

theorem Vm.ioExit_returned_error {page : KvmRun n} {fin : RunState} {e : RunError}
    (hp : ioExit st page = some (.returned fin (.error e))) :
    page.ioEvent = .refused ∧ fin.devices = st.devices := by
  simp only [ioExit, Option.bind_eq_bind, Option.bind_eq_some_iff, page.out_of_bounds] at hp
  obtain ⟨_, _, hp⟩ := hp
  rw [KvmRun.ioEvent]
  split at hp
  · rename_i hn
    cases hp
    exact ⟨if_pos hn, rfl⟩
  rename_i hn
  rw [if_neg hn]
  split at hp
  · obtain ⟨_, _, hp⟩ := Option.bind_eq_some_iff.mp hp
    cases hp
  rename_i hout
  rw [if_neg hout]
  split at hp
  · obtain ⟨_, _, hp⟩ := Option.bind_eq_some_iff.mp hp
    cases hp
  · rename_i hin
    cases hp
    exact ⟨if_neg hin, rfl⟩

theorem Vm.mmioExit_returned_error {page : KvmRun n} {fin : RunState} {e : RunError}
    (hp : mmioExit st page = some (.returned fin (.error e))) :
    page.mmioEvent = .refused ∧ fin.devices = st.devices := by
  simp only [mmioExit, Option.bind_eq_bind, Option.bind_eq_some_iff] at hp
  obtain ⟨_, _, hp⟩ := hp
  split at hp
  · rename_i howns
    cases hp
    exact ⟨if_pos howns, rfl⟩
  split at hp
  all_goals
    obtain ⟨_, _, hp⟩ := Option.bind_eq_some_iff.mp hp
    cases hp

/-- The loop returns an error only on an outcome that it refuses. -/
theorem Vm.pass_returned_error {fin : RunState} {e : RunError}
    (hp : pass st o = some (.returned fin (.error e))) :
    event o = .refused ∧ fin.devices = st.devices := by
  cases o with
  | error errno =>
      simp only [pass] at hp
      split at hp
      · obtain ⟨_, _, hp⟩ := Option.bind_eq_some_iff.mp hp
        cases hp
      · rename_i hne
        cases hp
        exact ⟨if_neg hne, rfl⟩
  | ok page =>
      simp only [pass, Option.bind_eq_bind, Option.bind_eq_some_iff] at hp
      obtain ⟨_, _, hp⟩ := hp
      show (if _ then _ else if _ then _ else if _ then _ else if _ then _ else _) = _ ∧ _
      by_cases hio : page.exitReason = kvmExitIo
      · rw [if_pos hio] at hp ⊢
        obtain ⟨hev, hdev⟩ := ioExit_returned_error hp
        exact ⟨hev, hdev⟩
      rw [if_neg hio] at hp ⊢
      by_cases hmmio : page.exitReason = kvmExitMmio
      · rw [if_pos hmmio] at hp ⊢
        obtain ⟨hev, hdev⟩ := mmioExit_returned_error hp
        exact ⟨hev, hdev⟩
      rw [if_neg hmmio] at hp ⊢
      split at hp
      · cases hp
      rename_i hhlt
      split at hp
      · obtain ⟨_, _, hp⟩ := Option.bind_eq_some_iff.mp hp
        cases hp
      · rename_i hintr
        cases hp
        exact ⟨by rw [if_neg hhlt, if_neg hintr], rfl⟩

/-- What a halt of the loop says: the guest has halted, on the board too. -/
structure Halted (prog : Guest σ) (board : Board σ) (v : Vcpu σ) (trace : List (Outcome n))
    (summary : RunSummary) : Prop where
  guest : ∃ u, prog board.state = .halt u ∧ v.guest = .ready u
  ioExits : summary.ioExits.toNat = board.log.countP Access.isPio
  mmioExits : summary.mmioExits.toNat = board.log.countP Access.isMmio
  exits : summary.exits.toNat = board.log.length + (trace.map event).count .intr + 1
  interrupted : summary.interrupted.toNat = (trace.map event).count .eintr +
    (trace.map event).count .intr

theorem length_eq_countP (log : List Access) :
    log.length = log.countP Access.isPio + log.countP Access.isMmio := by
  rw [List.length_eq_countP_add_countP Access.isPio]
  congr 1
  apply List.countP_congr
  intro a _
  cases a <;> simp [Access.isPio, Access.isMmio]

theorem RunState.Tracks.halted {fin : RunState} {summary : RunSummary} (h : st.Tracks past)
    (hp : Vm.pass st o = some (.returned fin (.ok summary))) (hkvm : KvmRuns prog s o v)
    (hruns : Runs prog Chip.serve b₀ (Board.upTo past s)) :
    ∃ t, Runs prog Chip.serve b₀ (Board.upTo (past ++ [o]) t) ∧
      Halted prog (Board.upTo (past ++ [o]) t) v (past ++ [o]) summary := by
  obtain ⟨hhlt, -, m, hm, rfl⟩ := Vm.pass_returned hp
  have hnone : (event o).access? = none := congrArg Event.access? hhlt
  -- HLT counts in no class of its own, only in the total
  have hcount : ∀ e, e ≠ Event.hlt →
      ((past ++ [o]).map event).count e = (past.map event).count e := by
    intro e he
    rw [count_snoc, hhlt, if_neg (Ne.symm he), Nat.add_zero]
  -- KVM reports HLT exactly where the guest halts
  have hguest : ∃ t u, Runs prog Chip.serve b₀ (Board.upTo past t) ∧ prog t = .halt u ∧
      v.guest = .ready u := by
    rcases hkvm.cases_event with ⟨hev, -⟩ | ⟨page, a, rfl, -, hfills⟩ | ⟨-, he⟩ | ⟨hev, -⟩
    · rw [hhlt] at hev
      rcases hev with hev | hev <;> cases hev
    · rw [hfills.event_eq] at hhlt
      split at hhlt <;> cases hhlt
    · exact runs_halted hruns he
    · rw [hhlt] at hev
      cases hev
  obtain ⟨t, u, hreach, hu⟩ := hguest
  refine ⟨t, (Board.upTo_snoc_of_none (s := t) hnone).symm ▸ hreach, ?_⟩
  rw [Board.upTo_snoc_of_none hnone]
  exact {
    guest := ⟨u, hu⟩
    ioExits := h.ioExits
    mmioExits := h.mmioExits
    exits := by
      rw [hcount .intr nofun]
      show m.toNat = (accesses past).length + _ + 1
      rw [incr_eq_some hm, h.exits, h.ioExits, h.mmioExits, length_eq_countP]
    interrupted := by
      rw [hcount .eintr nofun, hcount .intr nofun]
      exact h.interrupted }

theorem RunState.Tracks.refused {fin : RunState} {e : RunError}
    (hp : Vm.pass st o = some (.returned fin (.error e))) (hkvm : KvmRuns prog s o v)
    (hruns : Runs prog Chip.serve b₀ (Board.upTo past s)) :
    ∃ t, Runs prog Chip.serve b₀ (Board.upTo (past ++ [o]) t) ∧
      wire prog Chip.serve (Board.upTo (past ++ [o]) t) = none ∧ ∀ u, prog t ≠ .halt u := by
  have hrefused := (Vm.pass_returned_error hp).1
  have hnone : (event o).access? = none := congrArg Event.access? hrefused
  simp only [Board.upTo_snoc_of_none hnone]
  rcases hkvm.cases_event with ⟨hev, -⟩ | ⟨page, a, rfl, he, hfills⟩ | ⟨hev, -⟩ | ⟨-, he⟩
  · rw [hrefused] at hev
    rcases hev with hev | hev <;> cases hev
  · have hoff : ¬ a.onBus = true := by
      intro hbus
      rw [hfills.event_eq, if_pos hbus] at hrefused
      cases hrefused
    obtain ⟨t, k, hreach, hcall, hstop⟩ := runs_refused hruns he (if_neg hoff)
    exact ⟨t, hreach, hstop, fun u hu => by rw [hcall] at hu; cases hu⟩
  · rw [hrefused] at hev
    cases hev
  · obtain ⟨t, hreach, hstuck⟩ := runs_stuck hruns he
    exact ⟨t, hreach, wire_stuck hstuck, fun u hu => by rw [hstuck] at hu; cases hu⟩

end Pass

/-! ### Sessions -/

/-- While the loop goes on every `KVM_RUN` is an access or an interruption. -/
theorem length_eq_of_ordinary {past : List (Outcome n)}
    (h : ∀ o ∈ past, event o ≠ .hlt ∧ event o ≠ .refused) :
    past.length = (accesses past).length + (past.map event).count .eintr +
      (past.map event).count .intr := by
  induction past using List.reverseRecOn with
  | nil => rfl
  | append_singleton past o ih =>
      have hpast := ih fun o' ho' => h o' (List.mem_append_left _ ho')
      have ho := h o (List.mem_append_right _ (List.mem_singleton_self o))
      rw [List.length_append, List.length_singleton, hpast, accesses_snoc, List.length_append,
        count_snoc, count_snoc]
      rcases hev : event o with - | a | - | - | -
      · simp [Event.access?]
        omega
      · simp [Event.access?]
        omega
      · exact absurd hev ho.1
      · simp [Event.access?]
        omega
      · exact absurd hev ho.2

section Runs

variable {prog : Guest σ} {s s₀ : σ} {trace replies : List (Outcome n)} {r : Ran n} {v : Vcpu σ}

/-- What `Vm::run` has returned, or that it is still in its loop, is true of the board. -/
def Agrees (prog : Guest σ) (board : Board σ) (v : Vcpu σ) (trace : List (Outcome n)) :
    Option (Except RunError RunSummary) → Prop
  | none => v.guest = .ready board.state ∧
      trace.length = board.log.length + (trace.map event).count .eintr +
        (trace.map event).count .intr
  | some (.ok summary) => Halted prog board v trace summary
  | some (.error _) => wire prog Chip.serve board = none ∧ ∀ u, prog board.state ≠ .halt u

/-- The loop returns after the first outcome, or goes on with the others. -/
theorem Vm.loop_some_inv {o : Outcome n} {st : RunState} (hr : loop st (o :: trace) = some r) :
    (∃ fin result, pass st o = some (.returned fin result) ∧
      r = { devices := fin.devices, replies := [], result := some result }) ∨
    ∃ st' reply r', pass st o = some (.resumed st' reply) ∧ loop st' trace = some r' ∧
      r = { r' with replies := reply :: r'.replies } := by
  rw [loop] at hr
  cases hp : pass st o with
  | none =>
      rw [hp] at hr
      cases hr
  | some flow =>
      rw [hp] at hr
      cases flow with
      | returned fin result =>
          cases hr
          exact .inl ⟨fin, result, rfl, rfl⟩
      | resumed st' reply =>
          obtain ⟨r', hr', rfl⟩ := Option.map_eq_some_iff.mp hr
          exact .inr ⟨st', reply, r', rfl, hr', rfl⟩

/-- What the loop returns with is true of the board. -/
theorem RunState.Tracks.returned {b₀ : Board σ} {o : Outcome n} {past : List (Outcome n)}
    {st fin : RunState} {result : Except RunError RunSummary} (h : st.Tracks past)
    (hp : Vm.pass st o = some (.returned fin result)) (hkvm : KvmRuns prog s o v)
    (hruns : Runs prog Chip.serve b₀ (Board.upTo past s)) :
    ∃ t, Runs prog Chip.serve b₀ (Board.upTo (past ++ [o]) t) ∧
      fin.devices.Tracks (accesses (past ++ [o])) ∧
      Agrees prog (Board.upTo (past ++ [o]) t) v (past ++ [o]) (some result) := by
  cases result with
  | ok summary =>
      obtain ⟨t, hreach, hhalted⟩ := h.halted hp hkvm hruns
      obtain ⟨hev, hdev, -⟩ := Vm.pass_returned hp
      refine ⟨t, hreach, ?_, hhalted⟩
      rw [accesses_snoc_of_none (congrArg Event.access? hev), hdev]
      exact h.devices
  | error e =>
      obtain ⟨t, hreach, hstop⟩ := RunState.Tracks.refused hp hkvm hruns
      obtain ⟨hev, hdev⟩ := Vm.pass_returned_error hp
      refine ⟨t, hreach, ?_, hstop⟩
      rw [accesses_snoc_of_none (congrArg Event.access? hev), hdev]
      exact h.devices

/-- The rest of a run, from where the past has led the loop and the board. -/
theorem Vm.loop_transparent {b₀ : Board σ} (hsession : Session prog s trace replies v)
    {past : List (Outcome n)} {st : RunState} (h : st.Tracks past)
    (hruns : Runs prog Chip.serve b₀ (Board.upTo past s)) (hr : loop st trace = some r)
    (hreplies : r.replies = replies) :
    ∃ t, Runs prog Chip.serve b₀ (Board.upTo (past ++ trace) t) ∧
      r.devices.Tracks (accesses (past ++ trace)) ∧
      Agrees prog (Board.upTo (past ++ trace) t) v (past ++ trace) r.result := by
  induction hsession generalizing past st r with
  -- the induction is on the session; the run of the board grows by one access per resumed pass
  | @idle s =>
      cases hr
      rw [List.append_nil]
      exact ⟨s, hruns, h.devices, rfl, length_eq_of_ordinary h.ordinary⟩
  | @exited s o v hkvm =>
      rcases loop_some_inv hr with ⟨fin, result, hp, rfl⟩ | ⟨st', reply, r', -, -, rfl⟩
      · exact h.returned hp hkvm hruns
      · cases hreplies
  | @resumed s o reply v v' trace replies hkvm hrest ih =>
      rcases loop_some_inv hr with ⟨fin, result, -, rfl⟩ | ⟨st', reply', r', hp, hr', rfl⟩
      · cases hreplies
      · obtain ⟨rfl, htail⟩ := List.cons.inj hreplies
        obtain ⟨ht, hreach⟩ := h.resume hp hkvm hruns
        have hall := ih ht hreach hr' htail
        rw [List.append_assoc] at hall
        exact hall

/-- For every guest and every session: `Vm::run` stands where the board stands after
the accesses of the session.  The devices are the chip, the guest is resumed or has
halted where it is on the board, and the loop returns an error only if the board
cannot go on. -/
theorem Vm.run_transparent (hr : run {} trace = some r)
    (hsession : Session prog s₀ trace r.replies v) :
    ∃ board, Runs prog Chip.serve (Board.boot s₀) board ∧ board.log = accesses trace ∧
      r.devices.Tracks board.log ∧ r.devices.serialOut = board.server.serial ∧
      r.devices.latch = board.server.latch ∧ Agrees prog board v trace r.result := by
  have hstart : Runs prog Chip.serve (Board.boot s₀) (Board.upTo ([] : List (Outcome n)) s₀) :=
    .refl
  obtain ⟨t, hreach, hdev, hagrees⟩ := loop_transparent hsession tracks_init hstart hr rfl
  exact ⟨Board.upTo trace t, hreach, rfl, hdev, hdev.serialOut, hdev.latch, hagrees⟩

/-- A guest that loads from the latch and halts with what it read. -/
def peekGuest : Guest (Option UInt8)
  | none => .call (.load mmioBase 1) fun bytes => some (bytes.headD 0xff)
  | some b => .halt (some b)

/-- It is interrupted before its load. -/
def peekTrace : List (Outcome 8) :=
  [.error eintr, exitPage kvmExitMmio {} { physAddr := mmioBase, len := 1 },
   exitPage kvmExitHlt {} {}]

theorem peek_session :
    ∃ r, Vm.run {} peekTrace = some r ∧
      Session peekGuest none peekTrace r.replies { guest := .ready (some 0) } :=
  ⟨_, rfl, .resumed (.eintr (.interrupted .refl))
    (.resumed (.exit (.call .refl rfl) (.load rfl rfl rfl (by decide)))
      (.exited (.hlt (.halted .refl rfl) rfl)))⟩

theorem Vm.run_transparent_peek :
    ∃ r board, run {} peekTrace = some r ∧
      Runs peekGuest Chip.serve (Board.boot none) board ∧ board.log = accesses peekTrace ∧
      Agrees peekGuest board { guest := .ready (some 0) } peekTrace r.result := by
  obtain ⟨r, hr, hsession⟩ := peek_session
  obtain ⟨board, hruns, hlog, -, -, -, hagrees⟩ := run_transparent hr hsession
  exact ⟨r, board, hr, hruns, hlog, hagrees⟩

end Runs

/-! ### No run panics -/

section Total

variable {past : List (Outcome n)} {st : RunState}

/-- Every counter of the devices is at most the number of accesses. -/
theorem Devices.Tracks.exists_incr {d : Devices} {log : List Access} (h : d.Tracks log)
    (hroom : log.length + 1 < 2 ^ 64) :
    (∃ m, incr d.pioWrites = some m) ∧ (∃ m, incr d.pioReads = some m) ∧
      (∃ m, incr d.mmioWrites = some m) ∧ (∃ m, incr d.mmioReads = some m) ∧
      ∃ m, incr d.unhandled = some m := by
  have hle : ∀ p : Access → Bool, log.countP p + 1 < 2 ^ 64 := fun p =>
    Nat.lt_of_le_of_lt (Nat.succ_le_succ List.countP_le_length) hroom
  exact ⟨incr_of_lt (h.pioWrites ▸ hle _), incr_of_lt (h.pioReads ▸ hle _),
    incr_of_lt (h.mmioWrites ▸ hle _), incr_of_lt (h.mmioReads ▸ hle _),
    incr_of_lt (h.unhandled ▸ hle _)⟩

theorem RunState.Tracks.ioExit_isSome (h : st.Tracks past) (hroom : past.length + 1 < 2 ^ 64)
    (page : KvmRun n) (m : UInt64) :
    ∃ flow, Vm.ioExit { st with summary.exits := m } page = some flow := by
  have hlen := length_eq_of_ordinary h.ordinary
  obtain ⟨⟨w, hw⟩, ⟨p, hp⟩, -, -, ⟨u, hu⟩⟩ := h.devices.exists_incr (by omega)
  obtain ⟨k, hk⟩ := incr_of_lt (k := st.summary.ioExits) (by
    have := @List.countP_le_length _ Access.isPio (accesses past)
    rw [h.ioExits]
    omega)
  simp only [Vm.ioExit, hk, Devices.pioWrite, hw, hu, Devices.pioRead, hp, Option.bind_eq_bind,
    Option.bind_some]
  split_ifs <;> exact ⟨_, rfl⟩

theorem RunState.Tracks.mmioExit_isSome (h : st.Tracks past) (hroom : past.length + 1 < 2 ^ 64)
    (page : KvmRun n) (m : UInt64) :
    ∃ flow, Vm.mmioExit { st with summary.exits := m } page = some flow := by
  have hlen := length_eq_of_ordinary h.ordinary
  obtain ⟨-, -, ⟨w, hw⟩, ⟨p, hp⟩, ⟨u, hu⟩⟩ := h.devices.exists_incr (by omega)
  obtain ⟨k, hk⟩ := incr_of_lt (k := st.summary.mmioExits) (by
    have := @List.countP_le_length _ Access.isMmio (accesses past)
    rw [h.mmioExits]
    omega)
  -- an address below the window would panic, but the window is checked first
  have hbase : Devices.ownsMmio page.mmio.physAddr = true → ¬ page.mmio.physAddr < mmioBase := by
    intro howns
    simp only [Devices.ownsMmio, Bool.and_eq_true, decide_eq_true_eq] at howns
    exact UInt64.not_lt.mpr howns.1
  simp only [Vm.mmioExit, hk, Option.bind_eq_bind, Option.bind_some]
  cases howns : Devices.ownsMmio page.mmio.physAddr with
  | false => exact ⟨_, rfl⟩
  | true =>
      simp only [Devices.mmioWrite, Devices.mmioRead, hw, hp, hu, if_neg (hbase howns),
        Option.bind_eq_bind, Option.bind_some]
      cases page.data <;> split_ifs <;> exact ⟨_, rfl⟩

/-- A pass panics only if a counter is at its maximum. -/
theorem RunState.Tracks.pass_isSome (h : st.Tracks past) (hroom : past.length + 1 < 2 ^ 64)
    (o : Outcome n) : ∃ flow, Vm.pass st o = some flow := by
  have hlen := length_eq_of_ordinary h.ordinary
  have hkinds := length_eq_countP (accesses past)
  obtain ⟨k, hk⟩ := incr_of_lt (k := st.summary.interrupted) (by rw [h.interrupted]; omega)
  obtain ⟨m, hm⟩ := incr_of_lt (k := st.summary.exits) (by
    rw [h.exits, h.ioExits, h.mmioExits]
    omega)
  cases o with
  | error e =>
      simp only [Vm.pass, hk, Option.bind_eq_bind, Option.bind_some]
      split_ifs <;> exact ⟨_, rfl⟩
  | ok page =>
      simp only [Vm.pass, hm, hk, Option.bind_eq_bind, Option.bind_some]
      split_ifs
      · exact h.ioExit_isSome hroom page m
      · exact h.mmioExit_isSome hroom page m
      all_goals exact ⟨_, rfl⟩

/-- `Vm::run` does not panic in fewer than `2^64` calls of `KVM_RUN`, whatever they do. -/
theorem Vm.loop_isSome (trace : List (Outcome n)) (h : st.Tracks past)
    (hroom : past.length + trace.length < 2 ^ 64) : ∃ r, loop st trace = some r := by
  induction trace generalizing past st with
  | nil => exact ⟨_, rfl⟩
  | cons o trace ih =>
      rw [List.length_cons] at hroom
      obtain ⟨flow, hp⟩ := h.pass_isSome (by omega) o
      rw [loop, hp]
      cases flow with
      | returned fin result => exact ⟨_, rfl⟩
      | resumed st' reply =>
          obtain ⟨r, hr⟩ := ih (h.pass hp).1
            (by rw [List.length_append, List.length_singleton]; omega)
          dsimp only
          rw [hr]
          exact ⟨_, rfl⟩

end Total

/-! ### Guests that halt -/

section Halting

variable {prog : Guest σ} {s₀ u : σ} {board : Board σ} {trace : List (Outcome n)}

/-- For every guest that halts on the board and every session of fewer than `2^64`
calls: `Vm::run` does not panic and returns no error.  It is in its loop for at most
one exit per access of the guest, interruptions not counted, and then returns with the
devices, the guest and the counts of the board. -/
theorem Vm.run_halts (hruns : Runs prog Chip.serve (Board.boot s₀) board)
    (hhalt : prog board.state = .halt u) (hroom : trace.length < 2 ^ 64) :
    ∃ r, run {} trace = some r ∧ ∀ v, Session prog s₀ trace r.replies v →
      (r.result = none ∧ trace.length ≤ board.log.length + (trace.map event).count .eintr +
        (trace.map event).count .intr) ∨
      ∃ summary, r.result = some (.ok summary) ∧ v.guest = .ready u ∧
        Halted prog board v trace summary ∧ r.devices.Tracks board.log ∧
        r.devices.serialOut = board.server.serial ∧ r.devices.latch = board.server.latch := by
  obtain ⟨r, hr⟩ := loop_isSome trace tracks_init (by rw [List.length_nil]; omega)
  refine ⟨r, hr, fun v hsession => ?_⟩
  have hstop : wire prog Chip.serve board = none := wire_halt hhalt
  have hstart : Runs prog Chip.serve (Board.boot s₀) (Board.upTo ([] : List (Outcome n)) s₀) :=
    .refl
  obtain ⟨t, hreach, hdev, hagrees⟩ := loop_transparent hsession tracks_init hstart hr rfl
  rw [List.nil_append] at hreach hdev hagrees
  cases hresult : r.result with
  | none =>
      rw [hresult] at hagrees
      obtain ⟨-, hlen⟩ := hagrees
      have hle := List.IsPrefix.length_le <| log_prefix hreach hruns hstop
      exact .inl ⟨rfl, by omega⟩
  | some result =>
      rw [hresult] at hagrees
      cases result with
      | ok summary =>
          -- both have stopped, so they are the same board
          obtain ⟨w, hw, -⟩ := hagrees.guest
          have hsame := stop_unique hreach (wire_halt hw) hruns hstop
          rw [hsame] at hagrees
          have hlog : accesses trace = board.log := congrArg Config.log hsame
          have hserver : Chip.after (accesses trace) = board.server := congrArg Config.server hsame
          obtain ⟨u', hu', hguest⟩ := hagrees.guest
          rw [hhalt] at hu'
          cases hu'
          refine .inr ⟨summary, rfl, hguest, hagrees, hlog ▸ hdev, ?_, ?_⟩
          · rw [← hserver]
            exact hdev.serialOut
          · rw [← hserver]
            exact hdev.latch
      | error e =>
          have hsame := stop_unique hreach hagrees.1 hruns hstop
          have hstate : t = board.state := congrArg Config.state hsame
          exact absurd (hstate ▸ hhalt) (hagrees.2 u)

/-- The board on which the guest has read zero. -/
theorem peek_runs :
    Runs peekGuest Chip.serve (Board.boot none) ⟨some 0, {}, [.load mmioBase 1]⟩ :=
  .single rfl

theorem Vm.run_halts_peek :
    ∃ r, run {} peekTrace = some r ∧
      ((r.result = none ∧ peekTrace.length ≤ 2) ∨
        ∃ summary, r.result = some (.ok summary) ∧ r.devices.serialOut = []) := by
  have hroom : peekTrace.length < 2 ^ 64 := by decide
  obtain ⟨r, hr, hall⟩ := run_halts peek_runs rfl hroom
  obtain ⟨r', hr', hsession⟩ := peek_session
  cases hr.symm.trans hr'
  refine ⟨r, hr, ?_⟩
  rcases hall _ hsession with h | ⟨summary, hok, -, -, -, hserial, -⟩
  · exact .inl h
  · exact .inr ⟨summary, hok, hserial⟩

end Halting

end SystemsStudy.Kvm
