/-
SystemsStudy/Answers.lean

A pass of the device answers everything that is waiting.

From any state that polite calls can reach, `Device::process` serves the
waiting calls one after the other, its work closure threading its state through
them, and refuses nothing.  A collection right after it returns the replies that
were waiting already and then the new ones, and leaves every descriptor free.
-/
import SystemsStudy.Delivery
import SystemsStudy.Burst
import SystemsStudy.Tally

namespace SystemsStudy

open Fallible

variable {ω : Type}

/-! ### The replies of a pass -/

/-- The replies to calls served one after the other. -/
def replies (work : Work ω) : ω → List Call → List (Call × List UInt8)
  | _, [] => []
  | w, c :: cs => (c, c.reply fun r => (work w r).1) :: replies work (work w c.request).2 cs

/-- The counters after a pass. -/
def ProcessStats.answeredAll (st : ProcessStats) (rs : List (Call × List UInt8)) : ProcessStats :=
  rs.foldl (fun st a => st.answered a.1 a.2) st

theorem toUInt64_replyLen {reply : List UInt8} (h : reply.length < 2 ^ 32) :
    (replyLen reply).toUInt64 = UInt64.ofNat reply.length := by
  have hnat : (replyLen reply).toNat = reply.length := UInt32.toNat_ofNat_of_lt' h
  refine UInt64.toNat_inj.mp ?_
  rw [UInt32.toNat_toUInt64, hnat, UInt64.toNat_ofNat_of_lt' (h.trans (by decide))]

theorem map_fst_replies (work : Work ω) (w : ω) (cs : List Call) :
    (replies work w cs).map Prod.fst = cs := by
  induction cs generalizing w with
  | nil => rfl
  | cons c cs ih => rw [replies, List.map_cons, ih]

theorem length_replies (work : Work ω) (w : ω) (cs : List Call) :
    (replies work w cs).length = cs.length := by
  have hlen := congrArg List.length (map_fst_replies work w cs)
  rwa [List.length_map] at hlen

/-- A reply is cut to what the writable buffers of its chain hold. -/
theorem length_reply_le {work : Work ω} {w : ω} {cs : List Call} {a : Call × List UInt8}
    (h : a ∈ replies work w cs) : a.1 ∈ cs ∧ a.2.length ≤ a.1.capacity := by
  induction cs generalizing w with
  | nil => cases h
  | cons c cs ih =>
      rcases List.mem_cons.mp h with rfl | h
      · exact ⟨List.mem_cons_self, List.length_take_le _ _⟩
      · obtain ⟨hmem, hle⟩ := ih h
        exact ⟨List.mem_cons_of_mem c hmem, hle⟩

namespace ProcessStats

variable {st : ProcessStats} {rs : List (Call × List UInt8)}

theorem rejected_answeredAll : (st.answeredAll rs).rejected = st.rejected := by
  induction rs generalizing st with
  | nil => rfl
  | cons a rs ih => exact ih

/-- A counter that every call raises by its own amount. -/
theorem counter_answeredAll (counter : ProcessStats → UInt64) (amount : Call × List UInt8 → ℕ)
    (hstep : ∀ st, ∀ a ∈ rs,
      counter (st.answered a.1 a.2) = counter st + UInt64.ofNat (amount a)) :
    counter (st.answeredAll rs) = counter st + UInt64.ofNat (rs.map amount).sum := by
  induction rs generalizing st with
  | nil => exact (UInt64.add_zero _).symm
  | cons a rs ih =>
      have hrest : counter (st.answeredAll (a :: rs)) =
          counter (st.answered a.1 a.2) + UInt64.ofNat (rs.map amount).sum :=
        ih fun st b hb => hstep st b (List.mem_cons_of_mem a hb)
      rw [hrest, hstep st a List.mem_cons_self, List.map_cons, List.sum_cons, UInt64.ofNat_add,
        UInt64.add_assoc]

theorem chains_answeredAll :
    (st.answeredAll rs).chains = st.chains + UInt64.ofNat rs.length := by
  have h := @counter_answeredAll st rs chains (fun _ => 1) fun _ _ _ => rfl
  rwa [List.map_const', List.sum_replicate, smul_eq_mul, mul_one] at h

theorem descriptors_answeredAll : (st.answeredAll rs).descriptors =
    st.descriptors + UInt64.ofNat (rs.map fun a => a.1.buffers.length).sum :=
  counter_answeredAll descriptors _ fun _ _ _ => rfl

theorem bytesRead_answeredAll : (st.answeredAll rs).bytesRead =
    st.bytesRead + UInt64.ofNat (rs.map fun a => a.1.request.length).sum :=
  counter_answeredAll bytesRead _ fun _ _ _ => rfl

/-- A completion has 32 bits for the length of a reply. -/
theorem bytesWritten_answeredAll (hshort : ∀ a ∈ rs, a.2.length < 2 ^ 32) :
    (st.answeredAll rs).bytesWritten =
      st.bytesWritten + UInt64.ofNat (rs.map fun a => a.2.length).sum := by
  apply counter_answeredAll bytesWritten
  intro st a ha
  rw [← toUInt64_replyLen (hshort a ha)]
  rfl

end ProcessStats

/-! ### A pass -/

namespace Carries

variable {l : VirtqLayout} {s : System} {q : Calls}

/-- The loop lemma: what is waiting decides how often the loop goes round. -/
theorem loop (h : Carries l s q) (work : Work ω) {p : Process ω} (hdev : p.dev = s.device)
    {fuel : ℕ} (hfuel : q.requests.length < fuel) :
    ∃ t : Process ω × SharedMem, Process.loop work fuel (p, s.mem) = .ok () t ∧
      t.1.stats = p.stats.answeredAll (replies work p.work q.requests) ∧
      Carries l (s.withDevice (t.1.dev, t.2))
        { q with requests := [], answers := q.answers ++ replies work p.work q.requests } := by
  obtain ⟨fuel, rfl⟩ := Nat.exists_eq_succ_of_ne_zero (Nat.ne_of_gt (Nat.zero_lt_of_lt hfuel))
  induction e : q.requests generalizing s q p fuel with
  | nil =>
      -- nothing waits: the iteration finds the counters equal, and the loop ends
      have hs : Process.Covered (p, s.mem) := by
        rw [Process.Covered, hdev]
        exact h.represents.deviceCovered
      have hz := h.represents.toNat_pending
      rw [Relay.map, e, ← hdev] at hz
      have hstep := Process.step_idle work hs (UInt16.toNat_inj.mp hz)
      refine ⟨(p, s.mem), ?_, rfl, ?_⟩
      · rw [Process.loop, bind_ok hstep]
        rfl
      · rw [replies, List.append_nil, ← e, hdev]
        exact h
  | cons c cs ih =>
      -- the iteration answers the oldest call, and leaves its closure's state to the rest
      obtain ⟨t, hstep, hwork, hstats, h'⟩ := h.step e work hdev
      rw [e, List.length_cons] at hfuel
      obtain ⟨fuel, rfl⟩ := Nat.exists_eq_succ_of_ne_zero (show fuel ≠ 0 by omega)
      obtain ⟨t', hloop, hstats', h''⟩ := ih (p := t.1) h' rfl fuel (show cs.length < _ by omega)
        rfl
      refine ⟨t', ?_, ?_, ?_⟩
      · rw [Process.loop, bind_ok hstep]
        exact hloop
      · rw [hstats', hstats, hwork]
        rfl
      · rw [hwork] at h''
        rwa [List.append_assoc] at h''

theorem process (h : Carries l s q) (work : Work ω) (w : ω) {fuel : ℕ}
    (hfuel : q.requests.length < fuel) :
    ∃ s', System.process fuel work w s =
        some (({} : ProcessStats).answeredAll (replies work w q.requests), s') ∧
      s'.driver = s.driver ∧
      Carries l s' { q with
        requests := [], answers := q.answers ++ replies work w q.requests } := by
  obtain ⟨t, hloop, hstats, h'⟩ :=
    h.loop work (p := (Process.start s.device w s.mem).1) rfl hfuel
  have hprocess : s.device.process fuel work w s.mem = .ok t.1.stats t := bind_ok hloop
  refine ⟨s.withDevice (t.1.dev, t.2), ?_, rfl, h'⟩
  rw [System.process, hprocess, hstats]
  rfl

/-- No reply is longer than a completion can say: the buffers of a chain are
too short for that. -/
theorem length_reply_lt (h : Carries l s q) {work : Work ω} {w : ω} {a : Call × List UInt8}
    (ha : a ∈ replies work w q.requests) : a.2.length < 2 ^ 32 := by
  obtain ⟨hmem, hle⟩ := length_reply_le ha
  have hplaced : a.1.Placed l s := h.placed a.1 (List.mem_append_right _ hmem)
  exact lt_of_le_of_lt (hle.trans (Call.capacity_le a.1)) hplaced.short

theorem length_requests_le (h : Carries l s q) : q.requests.length ≤ l.qs := by
  have hle := h.represents.length_le
  rw [Relay.map, List.length_map, List.length_map] at hle
  omega

end Carries

/-! ### From every reachable state -/

section Runs

variable {l : VirtqLayout} {m : SharedMem} {arenaEnd : ℕ} {eventIdx eventIdx' : Bool}
  {d : Driver} {es : List (Relay.Event Call (List UInt8))} {q : Calls}

/-- The calls a history left waiting. -/
def waitingCalls (es : List (Relay.Event Call (List UInt8))) : List Call :=
  (Relay.published es).drop (Relay.popped es).length

/-- The replies a history left uncollected. -/
def readyReplies (es : List (Relay.Event Call (List UInt8))) : List (Call × List UInt8) :=
  (Relay.answered es).drop (Relay.collectedIn es).length

theorem waitingCalls_eq (h : Relay.Run {} es q) : waitingCalls es = q.requests := by
  have heq : Relay.published es = Relay.popped es ++ q.requests := by
    simpa using h.published_eq
  rw [waitingCalls, heq, List.drop_left]

theorem readyReplies_eq (h : Relay.Run {} es q) : readyReplies es = q.answers := by
  have heq : Relay.answered es = Relay.collectedIn es ++ q.answers := by
    simpa using h.answered_eq
  rw [readyReplies, heq, List.drop_left]

/-- In every state polite calls can reach: one pass of the device answers all
waiting calls and refuses none, whatever its work closure and the closure's
state, and its statistics are the totals of those calls and their replies; the
collection after it returns every reply, with the bytes in place, and all
descriptors are free. -/
theorem pass_answers_everything (hnew : Driver.new l arenaEnd eventIdx = some d)
    (hcov : l.Covered m) (havail : m.word16 l.availIdx = 0) (hused : m.word16 l.usedIdx = 0)
    {ops : List Op} (hops : Polite l (System.init m d eventIdx') ops) (work : Work ω) (w : ω)
    {fuel : ℕ} (hfuel : l.qs < fuel) :
    ∃ es, Delivers (System.init m d eventIdx') ops es ∧
      let answers := replies work w (waitingCalls es)
      ∃ stats s₁ s₂,
        System.process fuel work w
          (Relay.execAll System.exec (System.init m d eventIdx') ops).1 = some (stats, s₁) ∧
        System.onDriver Driver.collectUsed s₁ =
          some ((readyReplies es ++ answers).map (Prod.map Call.head replyLen), s₂) ∧
        stats.errors = 0 ∧
        stats.chains = UInt64.ofNat (waitingCalls es).length ∧
        stats.descriptors =
          UInt64.ofNat ((waitingCalls es).map fun c => c.buffers.length).sum ∧
        stats.bytesRead = UInt64.ofNat ((waitingCalls es).map fun c => c.request.length).sum ∧
        stats.bytesWritten = UInt64.ofNat (answers.map fun a => a.2.length).sum ∧
        (∀ a ∈ readyReplies es ++ answers,
          (contents s₂.mem (writableBuffers a.1.buffers)).take a.2.length = a.2) ∧
        s₂.driver.freeDescs.Perm ((List.range l.qs).map UInt16.ofNat) := by
  obtain ⟨es, q, hrun, hdelivers, h⟩ := exists_carried hnew hcov havail hused hops
  refine ⟨es, hdelivers, ?_⟩
  rw [waitingCalls_eq hrun, readyReplies_eq hrun]
  obtain ⟨s₁, hprocess, -, h₁⟩ :=
    h.process work w (lt_of_le_of_lt h.length_requests_le hfuel)
  obtain ⟨d', hcollect, h₂⟩ := h₁.collect
  -- the replies are about the waiting calls, in their order
  have hmap : ∀ f : Call → ℕ, (replies work w q.requests).map (fun a => f a.1) =
      q.requests.map f := fun f => by
    rw [← map_fst_replies work w q.requests, List.map_map, map_fst_replies]
    rfl
  refine ⟨_, s₁, _, hprocess, System.onDriver_ok hcollect, ?_, ?_, ?_, ?_, ?_, h₁.ready, ?_⟩
  · rw [ProcessStats.errors, ProcessStats.rejected_answeredAll]
    rfl
  · rw [ProcessStats.chains_answeredAll, length_replies]
    exact UInt64.zero_add _
  · rw [ProcessStats.descriptors_answeredAll, hmap fun c => c.buffers.length]
    exact UInt64.zero_add _
  · rw [ProcessStats.bytesRead_answeredAll, hmap fun c => c.request.length]
    exact UInt64.zero_add _
  · rw [ProcessStats.bytesWritten_answeredAll fun a ha => h.length_reply_lt ha]
    exact UInt64.zero_add _
  · exact h₂.represents.freeDescs_perm rfl rfl

/-- The call of `shortReply`, over a zeroed region. -/
def sentByte : Call := ⟨0, [⟨80, 1, false⟩, ⟨81, 2, true⟩], [0]⟩

theorem delivers_sentByte {es : List (Relay.Event Call (List UInt8))}
    (h : Delivers (System.init emptyRegion pairDriver true) (shortReply.take 1) es) :
    es = [.publish sentByte] := by
  obtain ⟨hshown, hmeaning⟩ := h
  have hrun : [(.publish 0 : QueueEvent)] = es.map Shown := hshown
  obtain ⟨e, rfl, he⟩ := List.map_eq_singleton_iff.mp hrun.symm
  have hconveys := hmeaning 0 _ e rfl rfl
  cases hconveys with
  | publish hlen =>
      obtain rfl := Relay.Event.publish.inj he
      rfl
  | full hlt => cases he
  | aside hside => cases hside

theorem pass_answers_everything_pairQueue :
    ∃ stats s₁ s₂, System.process 3 (fun n r => (r ++ [n], n + 1)) 5
        (Relay.execAll System.exec (System.init emptyRegion pairDriver true)
          (shortReply.take 1)).1 = some (stats, s₁) ∧
      System.onDriver Driver.collectUsed s₁ = some ([(0, 2)], s₂) ∧
      stats.errors = 0 ∧ stats.chains = 1 ∧ stats.descriptors = 2 ∧
      stats.bytesRead = 1 ∧ stats.bytesWritten = 2 ∧
      (contents s₂.mem [(81, 2)]).take 2 = [0, 5] ∧
      s₂.driver.freeDescs.Perm [0, 1] := by
  obtain ⟨es, hdelivers, stats, s₁, s₂, hprocess, hcollect, herrors, hchains, hdescs, hread,
      hwritten, hready, hfree⟩ :=
    pass_answers_everything new_pairQueue (by decide) (by decide) (by decide)
      (polite_shortReply.take 1) (fun n r => (r ++ [n], n + 1)) 5
      (show pairQueue.qs < 3 by decide)
  obtain rfl := delivers_sentByte hdelivers
  exact ⟨stats, s₁, s₂, hprocess, hcollect, herrors, hchains, hdescs, hread, hwritten,
    hready (sentByte, [0, 5]) List.mem_cons_self, hfree⟩

end Runs

end SystemsStudy
