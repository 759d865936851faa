/-
SystemsStudy/Atomic.lean

What a failed `addChain` leaves behind.

The call takes the descriptors and files the chain before it writes anything,
and nothing puts them back when a write fails.  The counter and `avail.idx` are
only reached after the last write that can fail, so these two are safe.

The parts of the layout lie in the order in which they are written, hence all
writes succeed as soon as the one of the avail slot does: the call is atomic
exactly if it fails for want of descriptors or not at all
(`addChain_atomic_iff`).
-/
import SystemsStudy.Ownership

namespace SystemsStudy

open Bytes Fallible

namespace Driver

open Half

variable {d : Driver} {m : SharedMem} {bufs : List Buffer}

/-- If the call returns an error, then the free list, the outstanding chains,
the counter and the index in memory are as they were. -/
def AtomicOnError (d : Driver) (m : SharedMem) (bufs : List Buffer) : Prop :=
  ∀ e d' m', addChain bufs (d, m) = .error (.err e) (d', m') →
    d'.freeDescs = d.freeDescs ∧ d'.outstanding = d.outstanding ∧ d'.availIdx = d.availIdx ∧
    SharedMem.SameOn m' m d.layout.availIdx (d.layout.availIdx + 2)

/-- The driver is `d` still, and the region is `m` from `lo` to `hi`. -/
structure Unmoved (d : Driver) (m : SharedMem) (lo hi : ℕ) (s : Driver × SharedMem) : Prop where
  driver : s.1 = d
  len : s.2.len = m.len
  same : SharedMem.SameOn s.2 m lo hi

/-- A store that meets none of the bytes from `lo` to `hi`. -/
theorem Unmoved.ends_store {a lo hi : ℕ} {data : List UInt8} {s : Driver × SharedMem}
    (h : Unmoved d m lo hi s) (hfree : a + data.length ≤ lo ∨ hi ≤ a) :
    Ends (Unmoved d m lo hi) ((store (·.writeSlice a data) : DriverM DriverError Unit) s) := by
  refine ends_store_of_ok h fun m' hm' => ?_
  rw [s.2.writeSlice_eq] at hm'
  split at hm'
  · obtain rfl := Except.ok.inj hm'
    exact ⟨h.driver, (SharedMem.len_put _ _ _).trans h.len,
      (s.2.sameOn_put (by omega)).trans h.same⟩
  · cases hm'

/-- The descriptor loop leaves the driver alone, and every byte outside the
entries it writes. -/
theorem Unmoved.ends_writeDescriptors {l : VirtqLayout} {indices : List UInt16} {lo hi : ℕ}
    {s : Driver × SharedMem} (h : Unmoved d m lo hi s) (hlen : indices.length = bufs.length)
    (hidx : ∀ i ∈ indices, i.toNat < l.qs)
    (hout : ∀ i ∈ indices, l.descAddr i + 16 ≤ lo ∨ hi ≤ l.descAddr i) :
    Ends (Unmoved d m lo hi) (writeDescriptors l indices bufs s) := by
  induction bufs generalizing indices s with
  | nil =>
      obtain rfl : indices = [] := by simpa using hlen
      exact h
  | cons buf bufs ih =>
      rcases indices with - | ⟨idx, indices⟩
      · simp at hlen
      have hlen' : indices.length = bufs.length := by simpa using hlen
      have hdesc : l.desc idx = some (l.descAddr idx) :=
        l.desc_eq_some.mpr ⟨hidx idx List.mem_cons_self, rfl⟩
      have hout' := hout idx List.mem_cons_self
      simp only [writeDescriptors, hdesc, nextIndex_eq_some hlen']
      -- the four fields of a descriptor, each a store that may fail
      refine Ends.bind (h.ends_store (by rw [length_toLe]; omega)) fun _ s₁ h₁ => ?_
      refine Ends.bind (h₁.ends_store (by rw [length_toLe]; omega)) fun _ s₂ h₂ => ?_
      refine Ends.bind (h₂.ends_store (by rw [length_toLe]; omega)) fun _ s₃ h₃ => ?_
      refine Ends.bind (h₃.ends_store (by rw [length_toLe]; omega)) fun _ s₄ h₄ => ?_
      exact ih h₄ hlen' (fun i hi => hidx i (List.mem_cons_of_mem _ hi))
        fun i hi => hout i (List.mem_cons_of_mem _ hi)

/-- If the avail slot lies in the region, so does everything the call writes. -/
theorem addChain_returns (h : d.Owned) (hne : bufs ≠ []) (hord : readableFirst bufs = true)
    (hge : bufs.length ≤ d.freeDescs.length)
    (hslot : d.layout.availSlot d.availIdx + 2 ≤ m.len) :
    ∃ head rest free m', d.freeDescs = free ++ (head :: rest).reverse ∧
      addChain bufs (d, m) = .ok head ((d.took head rest free).published, m') := by
  obtain ⟨head, rest, free, hlen, hfree, heq⟩ := addChain_eq (m := m) hne hord hge
  have hlo := d.layout.le_availSlot d.availIdx
  have hlay := d.layout.bounds
  have hidx : ∀ i ∈ head :: rest, i.toNat < d.layout.qs := fun i hi =>
    h.lt_of_free (mem_of_popped hfree hi)
  have hw := writeDescriptors_ok (d := d.took head rest free) (m := m) (by omega) hlen hidx
  -- the table, then the slot, then the index: every store is inside the region
  set m₁ := d.layout.putEntries (chainEntries (head :: rest) bufs) m with hm₁
  have hl₁ : m₁.len = m.len := VirtqLayout.len_putEntries _
  have h₁ := m₁.writeU16_eq (d.layout.availSlot d.availIdx) head
  rw [if_pos (by omega)] at h₁
  set m₂ := m₁.put (d.layout.availSlot d.availIdx) (toLe 2 head.toNat)
  have hl₂ : m₂.len = m.len := (SharedMem.len_put _ _ _).trans hl₁
  have h₂ := m₂.writeU16_eq d.layout.availIdx (d.availIdx + 1)
  rw [if_pos (by omega)] at h₂
  refine ⟨head, rest, free, m₂.put d.layout.availIdx (toLe 2 (d.availIdx + 1).toNat), hfree, ?_⟩
  rw [heq, bind_ok hw]
  unfold publish
  rw [bind_ok (self_run _), bind_ok (store_ok h₁), bind_ok (modifySelf_run _ _),
    bind_ok (self_run _), bind_ok (store_ok h₂)]
  rfl

/-- If it does not, the call fails with the descriptors taken; the counter and
`avail.idx` are as they were. -/
theorem addChain_fails (h : d.Owned) (hne : bufs ≠ []) (hord : readableFirst bufs = true)
    (hge : bufs.length ≤ d.freeDescs.length)
    (hslot : m.len < d.layout.availSlot d.availIdx + 2) :
    ∃ head rest free e m', (head :: rest).length = bufs.length ∧
      d.freeDescs = free ++ (head :: rest).reverse ∧
      addChain bufs (d, m) = .error (.err e) (d.took head rest free, m') ∧
      SharedMem.SameOn m' m d.layout.availIdx (d.layout.availIdx + 2) := by
  obtain ⟨head, rest, free, hlen, hfree, heq⟩ := addChain_eq (m := m) hne hord hge
  have hlo := d.layout.le_availSlot d.availIdx
  have hlay := d.layout.bounds
  have hidx : ∀ i ∈ head :: rest, i.toNat < d.layout.qs := fun i hi =>
    h.lt_of_free (mem_of_popped hfree hi)
  have hends : Ends (Unmoved (d.took head rest free) m d.layout.availIdx
      (d.layout.availIdx + 2)) (writeDescriptors d.layout (head :: rest) bufs
        (d.took head rest free, m)) := by
    refine Unmoved.ends_writeDescriptors ⟨rfl, rfl, fun _ _ _ => rfl⟩ hlen hidx fun i hi => ?_
    have := hidx i hi
    exact .inl (by rw [VirtqLayout.descAddr]; omega)
  rw [heq]
  rcases e : writeDescriptors d.layout (head :: rest) bufs (d.took head rest free, m) with
    ⟨u, ⟨d₁, m₁⟩⟩ | ⟨f, ⟨d₁, m₁⟩⟩
  · -- the table was written; the avail slot is not in the region
    rw [e] at hends
    obtain ⟨rfl, hl₁, hsame⟩ := hends
    have h₁ := m₁.writeU16_eq (d.layout.availSlot d.availIdx) head
    rw [if_neg (by dsimp only at hl₁; omega)] at h₁
    refine ⟨head, rest, free, .mem (.outOfBounds (d.layout.availSlot d.availIdx) 2 m₁.len), m₁,
      hlen, hfree, ?_, hsame⟩
    rw [bind_ok e]
    unfold publish
    rw [bind_ok (self_run _), bind_error (store_error h₁)]
    rfl
  · rw [e] at hends
    rcases f with e' | - | -
    · obtain ⟨rfl, -, hsame⟩ := hends
      exact ⟨head, rest, free, e', m₁, hlen, hfree, bind_error e, hsame⟩
    · exact hends.elim
    · exact hends.elim

/-- Taking descriptors makes the free list shorter. -/
theorem freeDescs_took_ne {head : UInt16} {rest free : List UInt16}
    (hfree : d.freeDescs = free ++ (head :: rest).reverse) :
    (d.took head rest free).freeDescs ≠ d.freeDescs := by
  intro he
  have hlen := congrArg List.length (he.trans hfree)
  rw [List.length_append, List.length_reverse, List.length_cons] at hlen
  have : (d.took head rest free).freeDescs = free := rfl
  rw [this] at hlen
  omega

/-- In every state the driver can reach, whatever the region: `addChain` is
atomic on error exactly if there are too few free descriptors, or the avail slot
of the chain lies in the region. -/
theorem addChain_atomic_iff {l : VirtqLayout} {arenaEnd : ℕ} {eventIdx : Bool} {d₀ : Driver}
    (hnew : Driver.new l arenaEnd eventIdx = some d₀) {script : List (DriverOp × SharedMem)}
    (hscript : ∀ o ∈ script, o.1.Asserts) (hne : bufs ≠ []) (hord : readableFirst bufs = true) :
    let d := d₀.runScript script
    d.AtomicOnError m bufs ↔
      d.freeDescs.length < bufs.length ∨ l.availSlot d.availIdx + 2 ≤ m.len := by
  obtain ⟨h₀, hl₀⟩ := owned_of_new hnew
  obtain ⟨h, hl⟩ := h₀.runScript hscript
  intro d
  have hlayout : d.layout = l := hl.trans hl₀
  rw [← hlayout]
  constructor
  · intro hatomic
    -- enough descriptors and no slot: the call fails after it took them
    by_contra hno
    rw [not_or, Nat.not_lt, Nat.not_le] at hno
    obtain ⟨head, rest, free, e, m', -, hfree, hfail, -⟩ :=
      addChain_fails h hne hord hno.1 hno.2
    exact freeDescs_took_ne hfree (hatomic e _ m' hfail).1
  · -- too few descriptors is found out before anything is taken, and with the slot in the
    -- region there is no other failure
    rintro (hlt | hslot) e d' m' hfail
    · rw [addChain_outOfDescriptors hne hlt] at hfail
      cases hfail
      exact ⟨rfl, rfl, rfl, fun _ _ _ => rfl⟩
    · rcases Nat.lt_or_ge d.freeDescs.length bufs.length with hlt | hge
      · rw [addChain_outOfDescriptors hne hlt] at hfail
        cases hfail
        exact ⟨rfl, rfl, rfl, fun _ _ _ => rfl⟩
      · obtain ⟨head, rest, free, m'', -, hok⟩ := addChain_returns h hne hord hge hslot
        cases hok.symm.trans hfail

theorem addChain_atomic_iff_unitDriver :
    (unitDriver.runScript []).AtomicOnError emptyRegion [⟨48, 1, true⟩] ↔
      (unitDriver.runScript []).freeDescs.length < 1 ∨
        unitQueue.availSlot (unitDriver.runScript []).availIdx + 2 ≤ emptyRegion.len :=
  addChain_atomic_iff new_unitQueue (by simp) (by simp) rfl

/-- A region that ends before the avail slot. -/
def tableOnly : SharedMem := SharedMem.new 20 (by decide)

/-- The only descriptor is lost: the call fails, and then there is none left to
retry with, over whatever region. -/
theorem failed_addChain_leaks :
    ∃ e m', addChain [⟨48, 1, true⟩] (unitDriver, tableOnly) =
        .error (.err e) (unitDriver.took 0 [] [], m') ∧
      (unitDriver.took 0 [] []).freeDescs = [] ∧
      (∀ m, addChain [⟨48, 1, true⟩] (unitDriver.took 0 [] [], m) =
        .error (.err .outOfDescriptors) (unitDriver.took 0 [] [], m)) ∧
      ¬ unitDriver.AtomicOnError tableOnly [⟨48, 1, true⟩] := by
  refine ⟨.mem (.outOfBounds 20 2 20), _, rfl, rfl, fun m => ?_, fun h => ?_⟩
  · exact addChain_outOfDescriptors (by simp) (Nat.zero_lt_one)
  · exact absurd (h _ _ _ rfl).1 (by decide)

end Driver

end SystemsStudy
