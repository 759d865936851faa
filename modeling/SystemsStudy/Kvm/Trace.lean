/-
SystemsStudy/Kvm/Trace.lean

The main loop implements the device model, over every trace of exits.

An outcome of `KVM_RUN` is an `Event`: an interruption, an access of the
devices, the halt, or something the loop refuses.  While the loop runs, its
state is a function of the events so far (`RunState.Tracks`), and each reply it
leaves in the page is the one the device model gives after the accesses so far.
A run that returns normally has stopped at the first halt.
-/
import SystemsStudy.Kvm.Run

namespace SystemsStudy.Kvm

variable {n : ℕ}

/-! ### What the guest did -/

/-- What the loop makes of one return of `KVM_RUN`. -/
inductive Event where
  /-- `KVM_RUN` failed with `EINTR` -/
  | eintr
  | access (a : Access)
  | hlt
  | intr
  /-- anything else: the loop returns an error -/
  | refused
  deriving DecidableEq

/-- The access of an I/O exit. -/
def KvmRun.ioEvent (page : KvmRun n) : Event :=
  if n < page.io.dataOffset.toNat + page.ioLen then .refused
  else if page.io.direction = kvmExitIoOut then .access (.out page.io.port page.payload)
  else if page.io.direction = kvmExitIoIn then .access (.inp page.io.port page.ioLen)
  else .refused

/-- The access of an MMIO exit. -/
def KvmRun.mmioEvent (page : KvmRun n) : Event :=
  if !Devices.ownsMmio page.mmio.physAddr then .refused
  else if page.mmio.isWrite ≠ 0 then .access (.store page.mmio.physAddr page.data)
  else .access (.load page.mmio.physAddr page.mmioLen)

/-- What an outcome of `KVM_RUN` says the guest did. -/
def event : Outcome n → Event
  | .error e => if e = eintr then .eintr else .refused
  | .ok page =>
      if page.exitReason = kvmExitIo then page.ioEvent
      else if page.exitReason = kvmExitMmio then page.mmioEvent
      else if page.exitReason = kvmExitHlt then .hlt
      else if page.exitReason = kvmExitIntr then .intr
      else .refused

/-- The device access of an event, if it is one. -/
def Event.access? : Event → Option Access
  | .access a => some a
  | _ => none

/-- What the guest reads when it is resumed from an event. -/
def Event.answer (past : List Access) : Event → List UInt8
  | .access a => a.answer past
  | _ => []

/-- The accesses of a trace, in order. -/
def accesses (trace : List (Outcome n)) : List Access :=
  trace.filterMap fun o => (event o).access?

/-- The bytes the guest reads from the page it is resumed with. -/
def guestReads (reply : Outcome n) : List UInt8 :=
  match reply, event reply with
  | .ok page, .access (.inp _ _) => page.payload
  | .ok page, .access (.load _ _) => page.data
  | _, _ => []

/-- An access of a port. -/
def Access.isPio (a : Access) : Bool := a.isOut || a.isInp

/-- An access of device memory. -/
def Access.isMmio (a : Access) : Bool := a.isStore || a.isLoad

/-! ### The state of the loop -/

/-- The loop is where a trace leads it. -/
structure RunState.Tracks (past : List (Outcome n)) (st : RunState) : Prop where
  devices : st.devices.Tracks (accesses past)
  ordinary : ∀ o ∈ past, event o ≠ .hlt ∧ event o ≠ .refused
  ioExits : st.summary.ioExits.toNat = (accesses past).countP Access.isPio
  mmioExits : st.summary.mmioExits.toNat = (accesses past).countP Access.isMmio
  exits : st.summary.exits.toNat = st.summary.ioExits.toNat + st.summary.mmioExits.toNat +
    (past.map event).count .intr
  interrupted : st.summary.interrupted.toNat = (past.map event).count .eintr +
    (past.map event).count .intr

/-- The reply to an exit is what the device model answers. -/
structure Answers (past : List Access) (o reply : Outcome n) : Prop where
  event_eq : event reply = event o
  reads : guestReads reply = (event o).answer past

theorem accesses_snoc (past : List (Outcome n)) (o : Outcome n) :
    accesses (past ++ [o]) = accesses past ++ (event o).access?.toList :=
  filterMap_snoc _ past o

theorem tracks_init : RunState.Tracks ([] : List (Outcome n)) { devices := {} } where
  devices := Devices.tracks_init
  ordinary := nofun
  ioExits := rfl
  mmioExits := rfl
  exits := rfl
  interrupted := rfl

/-! ### The arms of the dispatch -/

/-- An exit that was an access of the devices, with the reply to it. -/
structure Accessed (d d' : Devices) (o reply : Outcome n) (a : Access) : Prop where
  event_eq : event o = .access a
  tracks : ∀ past, d.Tracks past → d'.Tracks (past ++ [a])
  answers : ∀ past, d.Tracks past → Answers past o reply

/-- A write is answered by leaving the page alone. -/
theorem Answers.of_write {past : List Access} {o : Outcome n} {a : Access}
    (hev : event o = .access a) (ha : a.isOut = true ∨ a.isStore = true) : Answers past o o where
  event_eq := rfl
  reads := by
    cases a with
    | out => simp only [guestReads, hev]; rfl
    | store => simp only [guestReads, hev]; rfl
    | inp => simp at ha
    | load => simp at ha

/-- The saturating sum is as good as the sum. -/
theorem KvmRun.out_of_bounds (page : KvmRun n) :
    n < min (page.io.dataOffset.toNat + page.ioLen) (2 ^ 64 - 1) ↔
      n < page.io.dataOffset.toNat + page.ioLen := by
  have hlt := page.len_lt
  omega

theorem KvmRun.event_inp (page : KvmRun n) (hexit : page.exitReason = kvmExitIo)
    (hn : page.io.dataOffset.toNat + page.ioLen ≤ n) (hin : page.io.direction = kvmExitIoIn) :
    event (.ok page) = .access (.inp page.io.port page.ioLen) := by
  have hout : page.io.direction ≠ kvmExitIoOut := by rw [hin]; decide
  show (if _ then page.ioEvent else _) = _
  rw [if_pos hexit, KvmRun.ioEvent, if_neg (Nat.not_lt.mpr hn), if_neg hout, if_pos hin]

theorem KvmRun.event_load (page : KvmRun n) (hexit : page.exitReason = kvmExitMmio)
    (howns : Devices.ownsMmio page.mmio.physAddr = true) (hload : page.mmio.isWrite = 0) :
    event (.ok page) = .access (.load page.mmio.physAddr page.mmioLen) := by
  have hio : page.exitReason ≠ kvmExitIo := by rw [hexit]; decide
  show (if _ then _ else if _ then page.mmioEvent else _) = _
  rw [if_neg hio, if_pos hexit, KvmRun.mmioEvent, howns, if_neg (by decide),
    if_neg (not_not.mpr hload)]

theorem Vm.ioExit_resumed {st st' : RunState} {page : KvmRun n} {reply : Outcome n}
    (hexit : page.exitReason = kvmExitIo) (h : ioExit st page = some (.resumed st' reply)) :
    ∃ m a, incr st.summary.ioExits = some m ∧ st'.summary = { st.summary with ioExits := m } ∧
      a.isPio = true ∧ Accessed st.devices st'.devices (.ok page) reply a := by
  simp only [ioExit, Option.bind_eq_bind, Option.bind_eq_some_iff, page.out_of_bounds] at h
  obtain ⟨m, hm, h⟩ := h
  by_cases hn : n < page.io.dataOffset.toNat + page.ioLen
  · rw [if_pos hn] at h
    cases h
  rw [if_neg hn] at h
  by_cases hout : page.io.direction = kvmExitIoOut
  · rw [if_pos hout] at h
    obtain ⟨d, hd, h⟩ := Option.bind_eq_some_iff.mp h
    cases h
    have hev : event (.ok page) = .access (.out page.io.port page.payload) := by
      show (if _ then page.ioEvent else _) = _
      rw [if_pos hexit, KvmRun.ioEvent, if_neg hn, if_pos hout]
    exact ⟨m, _, hm, rfl, rfl, hev, fun _ ht => ht.pioWrite hd, fun _ _ => .of_write hev (.inl rfl)⟩
  rw [if_neg hout] at h
  by_cases hin : page.io.direction = kvmExitIoIn
  · rw [if_pos hin] at h
    obtain ⟨⟨d, data⟩, hd, h⟩ := Option.bind_eq_some_iff.mp h
    cases h
    have hn := Nat.not_lt.mp hn
    have hlen := page.length_payload hn
    have hev := KvmRun.event_inp page hexit hn hin
    -- filling the page leaves the exit as it was; only the payload is the device's
    have hleft : event (.ok (page.withPayload data)) = .access (.inp page.io.port page.ioLen) :=
      KvmRun.event_inp (page.withPayload data) hexit hn hin
    refine ⟨m, _, hm, rfl, rfl, hev, fun _ ht => hlen ▸ (ht.pioRead hd).1, fun past ht => ?_⟩
    have hdata : data = Access.answer past (.inp page.io.port page.ioLen) :=
      hlen ▸ (ht.pioRead hd).2
    refine ⟨hleft.trans hev.symm, ?_⟩
    simp only [guestReads, hleft, hev, Event.answer]
    rw [page.payload_withPayload data hn (hdata ▸ List.length_replicate), hdata]
  · rw [if_neg hin] at h
    cases h

theorem Vm.mmioExit_resumed {st st' : RunState} {page : KvmRun n} {reply : Outcome n}
    (hexit : page.exitReason = kvmExitMmio) (h : mmioExit st page = some (.resumed st' reply)) :
    ∃ m a, incr st.summary.mmioExits = some m ∧
      st'.summary = { st.summary with mmioExits := m } ∧
      a.isMmio = true ∧ Accessed st.devices st'.devices (.ok page) reply a := by
  have hio : page.exitReason ≠ kvmExitIo := by rw [hexit]; decide
  simp only [mmioExit, Option.bind_eq_bind, Option.bind_eq_some_iff] at h
  obtain ⟨m, hm, h⟩ := h
  cases howns : Devices.ownsMmio page.mmio.physAddr with
  -- outside the window the loop returns, and does not resume
  | false =>
      rw [howns, if_pos (by decide)] at h
      cases h
  | true =>
      rw [howns, if_neg (by decide)] at h
      by_cases hwrite : page.mmio.isWrite ≠ 0
      · rw [if_pos hwrite] at h
        obtain ⟨d, hd, h⟩ := Option.bind_eq_some_iff.mp h
        cases h
        have hev : event (.ok page) = .access (.store page.mmio.physAddr page.data) := by
          show (if _ then _ else if _ then page.mmioEvent else _) = _
          rw [if_neg hio, if_pos hexit, KvmRun.mmioEvent, howns, if_neg (by decide), if_pos hwrite]
        exact ⟨m, _, hm, rfl, rfl, hev, fun _ ht => ht.mmioWrite hd,
          fun _ _ => .of_write hev (.inr rfl)⟩
      · rw [if_neg hwrite] at h
        obtain ⟨⟨d, data⟩, hd, h⟩ := Option.bind_eq_some_iff.mp h
        cases h
        have hload := not_not.mp hwrite
        have hlen : (List.replicate page.mmioLen (0 : UInt8)).length = page.mmioLen :=
          List.length_replicate
        have hev := KvmRun.event_load page hexit howns hload
        -- filling the page leaves the exit as it was; only the data is the device's
        have hleft : event (.ok (page.withData data)) =
            .access (.load page.mmio.physAddr page.mmioLen) :=
          KvmRun.event_load (page.withData data) hexit howns hload
        refine ⟨m, _, hm, rfl, rfl, hev, fun _ ht => hlen ▸ (ht.mmioRead hd).1, fun past ht => ?_⟩
        have hdata : data = Access.answer past (.load page.mmio.physAddr page.mmioLen) :=
          hlen ▸ (ht.mmioRead hd).2
        refine ⟨hleft.trans hev.symm, ?_⟩
        simp only [guestReads, hleft, hev, Event.answer]
        rw [page.data_withData data (hdata ▸ Access.length_answer_load _ _ _), hdata]

/-! ### One pass -/

section Pass

variable {past : List (Outcome n)} {o reply : Outcome n} {st st' : RunState}

theorem accesses_snoc_of_none (h : (event o).access? = none) :
    accesses (past ++ [o]) = accesses past := by
  rw [accesses_snoc, h, Option.toList_none, List.append_nil]

theorem accesses_snoc_of_access {a : Access} (h : event o = .access a) :
    accesses (past ++ [o]) = accesses past ++ [a] := by
  rw [accesses_snoc, h]
  rfl

theorem ordinary_snoc (h : ∀ o ∈ past, event o ≠ .hlt ∧ event o ≠ .refused)
    (ho : event o ≠ .hlt ∧ event o ≠ .refused) :
    ∀ o' ∈ past ++ [o], event o' ≠ .hlt ∧ event o' ≠ .refused := by
  intro o' hmem
  rcases List.mem_append.mp hmem with hpast | hlast
  · exact h o' hpast
  · rw [List.mem_singleton.mp hlast]
    exact ho

theorem count_snoc (e : Event) :
    ((past ++ [o]).map event).count e =
      (past.map event).count e + if event o = e then 1 else 0 := by
  rw [List.map_append, List.count_append, List.map_singleton, List.count_singleton]
  simp only [beq_iff_eq]

/-- An interruption before the guest ran: nothing counts it as an exit. -/
theorem RunState.Tracks.eintr (h : st.Tracks past) (ho : event o = .eintr) {k : UInt64}
    (hk : incr st.summary.interrupted = some k) :
    ({ st with summary.interrupted := k } : RunState).Tracks (past ++ [o]) where
  devices := (@accesses_snoc_of_none _ past _ (congrArg Event.access? ho)).symm ▸ h.devices
  ordinary := ordinary_snoc h.ordinary (by rw [ho]; decide)
  ioExits := by rw [accesses_snoc_of_none (congrArg Event.access? ho)]; exact h.ioExits
  mmioExits := by rw [accesses_snoc_of_none (congrArg Event.access? ho)]; exact h.mmioExits
  exits := by
    rw [count_snoc, ho]
    exact h.exits
  interrupted := by
    rw [count_snoc, count_snoc, ho]
    show k.toNat = _
    rw [incr_eq_some hk, h.interrupted]
    simp
    omega

/-- A signal while the guest ran is an exit and an interruption. -/
theorem RunState.Tracks.intr (h : st.Tracks past) (ho : event o = .intr) {m k : UInt64}
    (hm : incr st.summary.exits = some m) (hk : incr st.summary.interrupted = some k) :
    ({ st with summary.exits := m, summary.interrupted := k } : RunState).Tracks
      (past ++ [o]) where
  devices := (@accesses_snoc_of_none _ past _ (congrArg Event.access? ho)).symm ▸ h.devices
  ordinary := ordinary_snoc h.ordinary (by rw [ho]; decide)
  ioExits := by rw [accesses_snoc_of_none (congrArg Event.access? ho)]; exact h.ioExits
  mmioExits := by rw [accesses_snoc_of_none (congrArg Event.access? ho)]; exact h.mmioExits
  exits := by
    rw [count_snoc, ho]
    show m.toNat = _
    rw [incr_eq_some hm, h.exits]
    rfl
  interrupted := by
    rw [count_snoc, count_snoc, ho]
    show k.toNat = _
    rw [incr_eq_some hk, h.interrupted]
    simp
    omega

/-- An access is an exit of its own kind. -/
theorem RunState.Tracks.access (h : st.Tracks past) {a : Access} (ho : event o = .access a)
    (hdev : st'.devices.Tracks (accesses past ++ [a]))
    (hexits : st'.summary.exits.toNat = st.summary.exits.toNat + 1)
    (hio : st'.summary.ioExits.toNat = st.summary.ioExits.toNat + a.isPio.toNat)
    (hmmio : st'.summary.mmioExits.toNat = st.summary.mmioExits.toNat + a.isMmio.toNat)
    (hintr : st'.summary.interrupted = st.summary.interrupted) : st'.Tracks (past ++ [o]) where
  devices := (@accesses_snoc_of_access _ past _ _ ho).symm ▸ hdev
  ordinary := ordinary_snoc h.ordinary (by rw [ho]; exact ⟨nofun, nofun⟩)
  ioExits := by rw [accesses_snoc_of_access ho, countP_snoc, hio, h.ioExits]
  mmioExits := by rw [accesses_snoc_of_access ho, countP_snoc, hmmio, h.mmioExits]
  exits := by
    have hkind : a.isPio.toNat + a.isMmio.toNat = 1 := by cases a <;> rfl
    rw [count_snoc, ho, hexits, hio, hmmio, h.exits, if_neg nofun]
    omega
  interrupted := by
    rw [count_snoc, count_snoc, ho, hintr, if_neg nofun, if_neg nofun]
    exact h.interrupted

/-- The pass of an I/O exit, once the exit is counted. -/
theorem RunState.Tracks.ioExit (h : st.Tracks past) {page : KvmRun n} {m : UInt64}
    (hexit : page.exitReason = kvmExitIo) (hm : incr st.summary.exits = some m)
    (hp : Vm.ioExit { st with summary.exits := m } page = some (.resumed st' reply)) :
    st'.Tracks (past ++ [.ok page]) ∧ Answers (accesses past) (.ok page) reply := by
  obtain ⟨k, a, hk, hsummary, ha, hacc⟩ := Vm.ioExit_resumed hexit hp
  have hkind : a.isMmio = false := by
    cases a with
    | out => rfl
    | inp => rfl
    | store => cases ha
    | load => cases ha
  refine ⟨h.access hacc.event_eq (hacc.tracks _ h.devices) ?_ ?_ ?_ ?_,
    hacc.answers _ h.devices⟩
  · rw [hsummary]
    exact incr_eq_some hm
  · rw [hsummary, ha]
    exact incr_eq_some hk
  · rw [hsummary, hkind]
    rfl
  · rw [hsummary]

/-- The pass of an MMIO exit, once the exit is counted. -/
theorem RunState.Tracks.mmioExit (h : st.Tracks past) {page : KvmRun n} {m : UInt64}
    (hexit : page.exitReason = kvmExitMmio) (hm : incr st.summary.exits = some m)
    (hp : Vm.mmioExit { st with summary.exits := m } page = some (.resumed st' reply)) :
    st'.Tracks (past ++ [.ok page]) ∧ Answers (accesses past) (.ok page) reply := by
  obtain ⟨k, a, hk, hsummary, ha, hacc⟩ := Vm.mmioExit_resumed hexit hp
  have hkind : a.isPio = false := by
    cases a with
    | out => cases ha
    | inp => cases ha
    | store => rfl
    | load => rfl
  refine ⟨h.access hacc.event_eq (hacc.tracks _ h.devices) ?_ ?_ ?_ ?_,
    hacc.answers _ h.devices⟩
  · rw [hsummary]
    exact incr_eq_some hm
  · rw [hsummary, hkind]
    rfl
  · rw [hsummary, ha]
    exact incr_eq_some hk
  · rw [hsummary]

/-- One pass that resumes the guest: the state follows the trace, and the guest is answered. -/
theorem RunState.Tracks.pass (h : st.Tracks past) (hp : Vm.pass st o = some (.resumed st' reply)) :
    st'.Tracks (past ++ [o]) ∧ Answers (accesses past) o reply := by
  cases o with
  | error e =>
      simp only [Vm.pass] at hp
      -- EINTR enters no device; any other errno ends the loop
      by_cases he : e = Kvm.eintr
      · rw [if_pos he] at hp
        obtain ⟨k, hk, hp⟩ := Option.bind_eq_some_iff.mp hp
        cases hp
        have hev : event (.error e : Outcome n) = .eintr := if_pos he
        refine ⟨h.eintr hev hk, rfl, ?_⟩
        rw [hev]
        rfl
      · rw [if_neg he] at hp
        cases hp
  | ok page =>
      simp only [Vm.pass, Option.bind_eq_bind, Option.bind_eq_some_iff] at hp
      obtain ⟨m, hm, hp⟩ := hp
      by_cases hio : page.exitReason = kvmExitIo
      · rw [if_pos hio] at hp
        exact h.ioExit hio hm hp
      rw [if_neg hio] at hp
      by_cases hmmio : page.exitReason = kvmExitMmio
      · rw [if_pos hmmio] at hp
        exact h.mmioExit hmmio hm hp
      rw [if_neg hmmio] at hp
      by_cases hhlt : page.exitReason = kvmExitHlt
      · rw [if_pos hhlt] at hp
        cases hp
      rw [if_neg hhlt] at hp
      by_cases hintr : page.exitReason = kvmExitIntr
      · rw [if_pos hintr] at hp
        obtain ⟨k, hk, hp⟩ := Option.bind_eq_some_iff.mp hp
        cases hp
        have hev : event (.ok page) = .intr := by
          show (if _ then _ else if _ then _ else if _ then _ else if _ then _ else _) = _
          rw [if_neg hio, if_neg hmmio, if_neg hhlt, if_pos hintr]
        refine ⟨h.intr hev hm hk, rfl, ?_⟩
        simp only [guestReads, hev]
        rfl
      · rw [if_neg hintr] at hp
        cases hp

/-- The arms of the accesses return only errors. -/
theorem Vm.ioExit_returned {page : KvmRun n} {r : Except RunError RunSummary}
    (h : ioExit st page = some (.returned st' r)) : ∃ e, r = .error e := by
  simp only [ioExit, Option.bind_eq_bind, Option.bind_eq_some_iff] at h
  obtain ⟨_, _, h⟩ := h
  split at h
  · cases h
    exact ⟨_, rfl⟩
  split at h
  · obtain ⟨_, _, h⟩ := Option.bind_eq_some_iff.mp h
    cases h
  split at h
  · obtain ⟨_, _, h⟩ := Option.bind_eq_some_iff.mp h
    cases h
  · cases h
    exact ⟨_, rfl⟩

theorem Vm.mmioExit_returned {page : KvmRun n} {r : Except RunError RunSummary}
    (h : mmioExit st page = some (.returned st' r)) : ∃ e, r = .error e := by
  simp only [mmioExit, Option.bind_eq_bind, Option.bind_eq_some_iff] at h
  obtain ⟨_, _, h⟩ := h
  split at h
  · cases h
    exact ⟨_, rfl⟩
  split at h
  all_goals
    obtain ⟨_, _, h⟩ := Option.bind_eq_some_iff.mp h
    cases h

/-- One pass that returns normally: the guest has halted, and that is one more exit. -/
theorem Vm.pass_returned {summary : RunSummary}
    (hp : pass st o = some (.returned st' (.ok summary))) :
    event o = .hlt ∧ st'.devices = st.devices ∧
      ∃ m, incr st.summary.exits = some m ∧ summary = { st.summary with exits := m } := by
  cases o with
  | error e =>
      simp only [pass] at hp
      split at hp
      · obtain ⟨_, _, hp⟩ := Option.bind_eq_some_iff.mp hp
        cases hp
      · cases hp
  | ok page =>
      simp only [pass, Option.bind_eq_bind, Option.bind_eq_some_iff] at hp
      obtain ⟨m, hm, hp⟩ := hp
      by_cases hio : page.exitReason = kvmExitIo
      · rw [if_pos hio] at hp
        obtain ⟨_, ⟨⟩⟩ := ioExit_returned hp
      rw [if_neg hio] at hp
      by_cases hmmio : page.exitReason = kvmExitMmio
      · rw [if_pos hmmio] at hp
        obtain ⟨_, ⟨⟩⟩ := mmioExit_returned hp
      rw [if_neg hmmio] at hp
      -- only HLT returns `Ok`: the I/O and MMIO exits return errors alone
      by_cases hhlt : page.exitReason = kvmExitHlt
      · rw [if_pos hhlt] at hp
        cases hp
        refine ⟨?_, rfl, m, hm, rfl⟩
        show (if _ then _ else if _ then _ else if _ then _ else _) = _
        rw [if_neg hio, if_neg hmmio, if_pos hhlt]
      rw [if_neg hhlt] at hp
      split at hp
      · obtain ⟨_, _, hp⟩ := Option.bind_eq_some_iff.mp hp
        cases hp
      · cases hp

end Pass

/-! ### Whole runs -/

/-- What a run that returned normally has done: the outcomes it handled, before
the one on which it stopped, are what its devices and its summary speak about. -/
structure Implements (handled : List (Outcome n)) (stop : Outcome n) (r : Ran n)
    (summary : RunSummary) : Prop where
  halted : event stop = .hlt
  ordinary : ∀ o ∈ handled, event o ≠ .hlt ∧ event o ≠ .refused
  devices : r.devices.Tracks (accesses handled)
  length_replies : r.replies.length = handled.length
  replies : ∀ k o reply, handled[k]? = some o → r.replies[k]? = some reply →
    Answers (accesses (handled.take k)) o reply
  ioExits : summary.ioExits.toNat = (accesses handled).countP Access.isPio
  mmioExits : summary.mmioExits.toNat = (accesses handled).countP Access.isMmio
  exits : summary.exits.toNat = summary.ioExits.toNat + summary.mmioExits.toNat +
    (handled.map event).count .intr + 1
  interrupted : summary.interrupted.toNat = (handled.map event).count .eintr +
    (handled.map event).count .intr

/-- The rest of a run, from where the past has led the loop.  By induction on the
outcomes to come: one joins the past at each pass. -/
theorem Vm.loop_halts (trace : List (Outcome n)) {past : List (Outcome n)} {st : RunState}
    (h : st.Tracks past) {r : Ran n} {summary : RunSummary} (hr : loop st trace = some r)
    (hok : r.result = some (.ok summary)) :
    ∃ handled stop rest last fin, trace = handled ++ stop :: rest ∧
      last.Tracks (past ++ handled) ∧ pass last stop = some (.returned fin (.ok summary)) ∧
      r.devices = fin.devices ∧ r.replies.length = handled.length ∧
      ∀ k o reply, handled[k]? = some o → r.replies[k]? = some reply →
        Answers (accesses (past ++ handled.take k)) o reply := by
  induction trace generalizing past st r with
  | nil =>
      rw [loop] at hr
      cases hr
      cases hok
  | cons o trace ih =>
      rw [loop] at hr
      cases hp : pass st o with
      | none =>
          rw [hp] at hr
          cases hr
      | some flow =>
          rw [hp] at hr
          cases flow with
          -- this is the outcome the loop stopped at
          | returned fin result =>
              cases hr
              cases hok
              exact ⟨[], o, trace, st, fin, rfl, (List.append_nil past).symm ▸ h, hp, rfl, rfl,
                nofun⟩
          -- the pass joins the handled prefix, and its reply answers the accesses so far
          | resumed st' reply =>
              obtain ⟨r', hr', rfl⟩ := Option.map_eq_some_iff.mp hr
              obtain ⟨ht, hans⟩ := h.pass hp
              obtain ⟨handled, stop, rest, last, fin, rfl, hlast, hstop, hdev, hlen, hreplies⟩ :=
                ih ht hr' hok
              rw [List.append_assoc] at hlast
              refine ⟨o :: handled, stop, rest, last, fin, rfl, hlast, hstop, hdev,
                congrArg (· + 1) hlen, ?_⟩
              intro k o' reply' ho hreply
              cases k with
              | zero =>
                  cases ho
                  cases hreply
                  rw [List.take_zero, List.append_nil]
                  exact hans
              | succ k =>
                  have := hreplies k o' reply' ho hreply
                  rw [List.append_assoc] at this
                  exact this

/-- `Vm::run` over default devices implements the device model, over every trace of
exits on which it returns normally. -/
theorem Vm.run_implements_device_model (trace : List (Outcome n)) {r : Ran n}
    {summary : RunSummary} (hr : run {} trace = some r)
    (hok : r.result = some (.ok summary)) :
    ∃ handled stop rest, trace = handled ++ stop :: rest ∧ Implements handled stop r summary := by
  obtain ⟨handled, stop, rest, last, fin, htrace, hlast, hstop, hdev, hlen, hreplies⟩ :=
    loop_halts trace tracks_init hr hok
  rw [List.nil_append] at hlast
  obtain ⟨hhlt, hfin, m, hm, rfl⟩ := pass_returned hstop
  refine ⟨handled, stop, rest, htrace, ?_⟩
  exact {
    halted := hhlt
    ordinary := hlast.ordinary
    devices := by rw [hdev, hfin]; exact hlast.devices
    length_replies := hlen
    replies := hreplies
    ioExits := hlast.ioExits
    mmioExits := hlast.mmioExits
    exits := (incr_eq_some hm).trans (congrArg (· + 1) hlast.exits)
    interrupted := hlast.interrupted }

/-- A page of eight bytes, returned for a reason. -/
def exitPage (reason : UInt32) (io : KvmRunIo) (mmio : KvmRunMmio) : Outcome 8 :=
  .ok { exitReason := reason, io := io, mmio := mmio, bytes := Vector.replicate 8 75,
        len_lt := by decide }

/-- A page of one byte, likewise. -/
def bytePage (reason : UInt32) (io : KvmRunIo) (mmio : KvmRunMmio) (b : UInt8) : Outcome 1 :=
  .ok { exitReason := reason, io := io, mmio := mmio, bytes := #v[b], len_lt := by decide }

/-- It prints, latches a byte, is interrupted, reads the byte back and halts. -/
def echoGuest : List (Outcome 8) :=
  [exitPage kvmExitIo { direction := kvmExitIoOut, size := 1, port := serialPort, count := 2 } {},
   exitPage kvmExitMmio {}
     { physAddr := mmioBase, data := Vector.replicate 8 66, len := 1, isWrite := 1 },
   .error eintr,
   exitPage kvmExitMmio {} { physAddr := mmioBase, len := 4 },
   exitPage kvmExitIo { direction := kvmExitIoIn, size := 1, port := 0x71, count := 1 } {},
   exitPage kvmExitHlt {} {}]

theorem Vm.run_implements_device_model_echo :
    ∃ r summary, run {} echoGuest = some r ∧ r.result = some (.ok summary) ∧
      ∃ handled stop rest, echoGuest = handled ++ stop :: rest ∧
        Implements handled stop r summary :=
  ⟨_, _, rfl, rfl, run_implements_device_model echoGuest rfl rfl⟩

end SystemsStudy.Kvm
