/-
SystemsStudy/Ownership.lean

The driver's descriptor accounting.

Between the calls of its methods the driver's region may be replaced by
anything: by another length, by a used ring that repeats an id, names one that
was never published, or advertises completions that do not exist.  Nothing of
this reaches the free list and the map of outstanding chains, which together
are a `Pool` of the descriptors: `addChain` takes from it and a collected id
gives back, whatever the id is.  `Owned` is the invariant, and
`Driver.Owned.after` carries it through every exit of every method.
-/
import SystemsStudy.Driver
import SystemsStudy.Lib.Pool

namespace SystemsStudy

open Bytes Fallible

/-- The indices of the descriptor table. -/
def VirtqLayout.indices (l : VirtqLayout) : List UInt16 := (List.range l.qs).map UInt16.ofNat

namespace VirtqLayout

variable {l : VirtqLayout}

theorem length_indices : l.indices.length = l.qs := by
  rw [indices, List.length_map, List.length_range]

theorem mem_indices {i : UInt16} : i ∈ l.indices ↔ i.toNat < l.qs := by
  have hqs := l.qs_le
  simp only [indices, List.mem_map, List.mem_range]
  constructor
  · rintro ⟨n, hn, rfl⟩
    rw [UInt16.toNat_ofNat', Nat.mod_eq_of_lt (by omega)]
    exact hn
  · intro hi
    exact ⟨i.toNat, hi, UInt16.ofNat_toNat⟩

theorem nodup_indices : l.indices.Nodup := by
  have hqs := l.qs_le
  refine List.Nodup.map_on ?_ List.nodup_range
  intro a ha b hb heq
  rw [List.mem_range] at ha hb
  have h := congrArg UInt16.toNat heq
  rwa [UInt16.toNat_ofNat', UInt16.toNat_ofNat', Nat.mod_eq_of_lt (by omega),
    Nat.mod_eq_of_lt (by omega)] at h

end VirtqLayout

namespace Driver

open Half

/-- The descriptors of the driver, free and outstanding. -/
def pool (d : Driver) : Pool UInt16 := ⟨d.freeDescs, d.outstanding⟩

/-- The free list and the outstanding chains are the descriptors of the table,
each once, and every chain is filed under its head. -/
def Owned (d : Driver) : Prop := d.pool.Valid d.layout.indices

variable {d d' : Driver} {m : SharedMem} {bufs : List Buffer}

theorem owned_of_new {l : VirtqLayout} {arenaEnd : ℕ} {eventIdx : Bool}
    (h : Driver.new l arenaEnd eventIdx = some d) : d.Owned ∧ d.layout = l := by
  unfold Driver.new at h
  split at h
  · obtain ⟨arena, -, rfl⟩ := Option.map_eq_some_iff.mp h
    refine ⟨⟨?_, ?_⟩, rfl⟩
    · show (_ ++ ([] : List UInt16)).Perm _
      rw [List.append_nil]
      exact List.reverse_perm _
    · intro k xs hk
      cases hk
  · cases h

theorem Owned.lt_of_free (h : d.Owned) {i : UInt16} (hi : i ∈ d.freeDescs) :
    i.toNat < d.layout.qs :=
  VirtqLayout.mem_indices.mp (h.mem_of_free hi)

/-! ### The operations -/

theorem perm_of_popped {head : UInt16} {rest free : List UInt16}
    (hfree : d.freeDescs = free ++ (head :: rest).reverse) :
    d.freeDescs.Perm (free ++ head :: rest) := by
  rw [hfree]
  exact (List.reverse_perm _).append_left _

theorem Owned.took (h : d.Owned) {head : UInt16} {rest free : List UInt16}
    (hfree : d.freeDescs = free ++ (head :: rest).reverse) : (d.took head rest free).Owned :=
  h.take VirtqLayout.nodup_indices (perm_of_popped hfree)

/-- The descriptors of a chain come off the free list, which has no duplicates. -/
theorem Owned.nodup_popped (h : d.Owned) {free indices : List UInt16}
    (hfree : d.freeDescs = free ++ indices.reverse) : indices.Nodup := by
  have hnd := (List.nodup_append.mp (h.nodup VirtqLayout.nodup_indices)).1
  rw [show d.pool.free = free ++ indices.reverse from hfree] at hnd
  exact List.nodup_reverse.mp (List.nodup_append.mp hnd).2.1

/-- The new chain is filed next to the others. -/
theorem Owned.keys_took (h : d.Owned) {head : UInt16} {rest free : List UInt16}
    (hfree : d.freeDescs = free ++ (head :: rest).reverse) :
    (d.took head rest free).outstanding.keys = head :: d.outstanding.keys := by
  have hnone : d.outstanding.lookup head = none :=
    h.lookup_eq_none VirtqLayout.nodup_indices (mem_of_popped hfree List.mem_cons_self)
  show (d.outstanding.insert head (head :: rest)).keys = _
  rw [AList.keys_insert, List.erase_of_not_mem]
  exact fun hk => AList.lookup_eq_none.mp hnone (AList.mem_keys.mpr hk)

theorem Owned.collected (h : d.Owned) (id : UInt16) : (d.collected id).Owned := by
  have hg := h.giveBack id
  unfold Pool.giveBack at hg
  unfold Driver.collected
  rcases e : d.outstanding.lookup id with - | descs
  · exact h
  · have e' : d.pool.held.lookup id = some descs := e
    rw [e'] at hg
    exact hg

theorem layout_collected (d : Driver) (id : UInt16) : (d.collected id).layout = d.layout := by
  unfold Driver.collected
  split <;> rfl

theorem lastUsed_collected (d : Driver) (id : UInt16) :
    (d.collected id).lastUsed = d.lastUsed + 1 := by
  unfold Driver.collected
  split <;> rfl

/-! ### Every exit of every method -/

/-- The descriptor loop does not panic: the indices are in the table, and there
is one for each buffer. -/
theorem writeDescriptors_ends {l : VirtqLayout} {indices : List UInt16}
    (hlen : indices.length = bufs.length) (hidx : ∀ i ∈ indices, i.toNat < l.qs)
    (m : SharedMem) :
    Ends (fun s => s.1 = d) (writeDescriptors l indices bufs (d, m)) := by
  induction bufs generalizing indices m with
  | nil =>
      obtain rfl : indices = [] := by simpa using hlen
      rfl
  | cons buf bufs ih =>
      rcases indices with - | ⟨idx, indices⟩
      · simp at hlen
      have hlen' : indices.length = bufs.length := by simpa using hlen
      have hdesc : l.desc idx = some (l.descAddr idx) :=
        l.desc_eq_some.mpr ⟨hidx idx List.mem_cons_self, rfl⟩
      simp only [writeDescriptors, hdesc, nextIndex_eq_some hlen']
      -- four stores, each of which may fail and none of which touches the driver
      refine Ends.bind (ends_store fun _ => rfl) fun _ s₁ h₁ => ?_
      refine Ends.bind (ends_store fun _ => h₁) fun _ s₂ h₂ => ?_
      refine Ends.bind (ends_store fun _ => h₂) fun _ s₃ h₃ => ?_
      refine Ends.bind (ends_store fun _ => h₃) fun _ s₄ h₄ => ?_
      obtain ⟨d', m'⟩ := s₄
      obtain rfl : d' = d := h₄
      exact ih hlen' (fun i hi => hidx i (List.mem_cons_of_mem _ hi)) m'

theorem publish_ends (head : UInt16) (m : SharedMem) :
    Ends (fun s => s.1 = d ∨ s.1 = d.published) (publish head (d, m)) := by
  unfold publish
  rw [bind_ok (self_run _)]
  refine Ends.bind_of_imp (I := fun s => s.1 = d) ?_ (fun _ => .inl) ?_
  · exact ends_store fun _ => rfl
  rintro - ⟨d', m'⟩ rfl
  rw [bind_ok (modifySelf_run _ _), bind_ok (self_run _)]
  refine Ends.bind ?_ fun _ _ h => h
  exact ends_store fun _ => .inr rfl

/-- Publishing returns the head it was given. -/
theorem publish_eq_ok {head i : UInt16} {s s' : Driver × SharedMem}
    (h : publish head s = .ok i s') : i = head := by
  unfold publish at h
  obtain ⟨_, _, -, h⟩ := bind_eq_ok.mp h
  obtain ⟨_, _, -, h⟩ := bind_eq_ok.mp h
  obtain ⟨_, _, -, h⟩ := bind_eq_ok.mp h
  obtain ⟨_, _, -, h⟩ := bind_eq_ok.mp h
  obtain ⟨_, _, -, h⟩ := bind_eq_ok.mp h
  cases h
  rfl

/-- What `addChain` can leave behind: the driver itself if there are too few
descriptors, else the driver that took them, with or without the chain
published. -/
theorem addChain_ends (h : d.Owned) (hne : bufs ≠ []) (hord : readableFirst bufs = true)
    (m : SharedMem) :
    (d.freeDescs.length < bufs.length ∧
      addChain bufs (d, m) = .error (.err .outOfDescriptors) (d, m)) ∨
    ∃ head rest free, (head :: rest).length = bufs.length ∧
      d.freeDescs = free ++ (head :: rest).reverse ∧
      Ends (fun s => s.1 = d.took head rest free ∨ s.1 = (d.took head rest free).published)
        (addChain bufs (d, m)) ∧
      ∀ i s, addChain bufs (d, m) = .ok i s → i = head := by
  rcases Nat.lt_or_ge d.freeDescs.length bufs.length with hlt | hge
  · exact .inl ⟨hlt, addChain_outOfDescriptors hne hlt⟩
  obtain ⟨head, rest, free, hlen, hfree, heq⟩ := addChain_eq (m := m) hne hord hge
  refine .inr ⟨head, rest, free, hlen, hfree, ?_, ?_⟩
  · -- whether a store fails or not, the indices are gone from the free list by now
    have hidx : ∀ i ∈ head :: rest, i.toNat < (d.took head rest free).layout.qs := fun i hi =>
      h.lt_of_free (mem_of_popped hfree hi)
    rw [heq]
    refine Ends.bind_of_imp (writeDescriptors_ends hlen hidx m) (fun _ => .inl) ?_
    rintro - ⟨d', m'⟩ rfl
    exact publish_ends head m'
  · intro i s hi
    rw [heq] at hi
    obtain ⟨_, s₁, -, hp⟩ := bind_eq_ok.mp hi
    exact publish_eq_ok hp

/-- An iteration of the collecting loop reads an id and gives its chain back,
or fails and changes nothing. -/
theorem collectOne_cases (d : Driver) (m : SharedMem) :
    (∃ e, collectOne (d, m) = .error (.err e) (d, m)) ∨
      ∃ c, collectOne (d, m) = .ok c (d.collected c.1, m) := by
  unfold collectOne
  rw [bind_ok (self_run _)]
  simp only [VirtqLayout.usedSlot_eq]
  rcases h₁ : m.readU32 (d.layout.usedBase d.lastUsed) with e | id
  · exact .inl ⟨_, bind_error (load_error h₁)⟩
  rw [bind_ok (load_ok h₁)]
  rcases h₂ : m.readU32 (d.layout.usedBase d.lastUsed + 4) with e | len
  · exact .inl ⟨_, bind_error (load_error h₂)⟩
  rw [bind_ok (load_ok h₂), bind_ok (modifySelf_run _ _), bind_ok (modifySelf_run _ _)]
  refine .inr ⟨(id.toUInt16, len), ?_⟩
  unfold collected
  dsimp only
  rcases d.outstanding.lookup id.toUInt16 <;> rfl

theorem collectLoop_stop {u : UInt16} (h : d.lastUsed = u) (fuel : ℕ) :
    collectLoop u fuel (d, m) = .ok [] (d, m) := by
  rcases fuel with - | fuel
  · unfold collectLoop
    rw [bind_ok (self_run _), if_pos h]
    rfl
  · unfold collectLoop
    rw [bind_ok (self_run _), if_pos h]
    rfl

theorem collectLoop_succ {u : UInt16} (h : d.lastUsed ≠ u) (fuel : ℕ) :
    collectLoop u (fuel + 1) (d, m) =
      (collectOne >>= fun c => collectLoop u fuel >>= fun rest => pure (c :: rest)) (d, m) := by
  rw [collectLoop, bind_ok (self_run _), if_neg h]

/-- The distance to the index counts the iterations, whatever the slots hold. -/
theorem collectLoop_ends {l : VirtqLayout} {u : UInt16} {fuel : ℕ} (h : d.Owned)
    (hl : d.layout = l) (hfuel : (u - d.lastUsed).toNat ≤ fuel) (m : SharedMem) :
    Ends (fun s => s.1.Owned ∧ s.1.layout = l) (collectLoop u fuel (d, m)) := by
  induction fuel generalizing d m with
  | zero =>
      have hz : u - d.lastUsed = 0 := UInt16.toNat_inj.mp (Nat.le_zero.mp hfuel)
      rw [collectLoop_stop (by grind)]
      exact ⟨h, hl⟩
  | succ fuel ih =>
      by_cases heq : d.lastUsed = u
      · rw [collectLoop_stop heq]
        exact ⟨h, hl⟩
      rw [collectLoop_succ heq]
      rcases collectOne_cases d m with ⟨e, he⟩ | ⟨c, hc⟩
      · rw [bind_error he]
        exact ⟨h, hl⟩
      rw [bind_ok hc]
      -- the cursor moved one towards the index read, so one less fuel is enough
      have hdist := Rolling.toNat_sub_one (x := u - d.lastUsed) (by grind)
      have hsub : u - (d.collected c.1).lastUsed = u - d.lastUsed - 1 := by
        rw [lastUsed_collected]
        grind
      refine Ends.bind (ih (h.collected c.1) ((layout_collected d c.1).trans hl) ?_ m)
        fun _ _ hs => hs
      rw [hsub]
      omega

/-- However large the bound is chosen, from the distance to `used.idx` on. -/
theorem collectWithin_ends {l : VirtqLayout} {fuel : ℕ} (h : d.Owned) (hl : d.layout = l)
    (m : SharedMem) (hfuel : ∀ u, m.loadIdxAcquire l.usedIdx = .ok u →
      (u - d.lastUsed).toNat ≤ fuel) :
    Ends (fun s => s.1.Owned ∧ s.1.layout = l) (collectWithin fuel (d, m)) := by
  unfold collectWithin
  rw [bind_ok (self_run _)]
  rcases hu : m.loadIdxAcquire d.layout.usedIdx with e | u
  · rw [bind_error (load_error hu)]
    exact ⟨h, hl⟩
  · rw [bind_ok (load_ok hu)]
    exact collectLoop_ends h hl (hfuel u (hl ▸ hu)) m

/-- What one collected completion keeps, the collecting loop keeps. -/
theorem collectLoop_keeps {P : Driver → Prop} (hstep : ∀ {d} id, P d → P (d.collected id))
    {u : UInt16} {fuel : ℕ} {cs : List (UInt16 × UInt32)} {t : Driver × SharedMem}
    (h : collectLoop u fuel (d, m) = .ok cs t) (hd : P d) : P t.1 := by
  induction fuel generalizing d cs with
  | zero =>
      by_cases hu : d.lastUsed = u
      · rw [collectLoop_stop hu] at h
        obtain ⟨-, rfl⟩ := EStateM.Result.ok.inj h
        exact hd
      · -- out of fuel the loop does not return
        rw [collectLoop, bind_ok (self_run _), if_neg hu] at h
        cases h
  | succ fuel ih =>
      by_cases hu : d.lastUsed = u
      · rw [collectLoop_stop hu] at h
        obtain ⟨-, rfl⟩ := EStateM.Result.ok.inj h
        exact hd
      · rw [collectLoop_succ hu] at h
        rcases collectOne_cases d m with ⟨e, he⟩ | ⟨c, hc⟩
        · rw [bind_error he] at h
          cases h
        · rw [bind_ok hc] at h
          obtain ⟨rest, t', hrest, hret⟩ := bind_eq_ok.mp h
          obtain ⟨-, rfl⟩ := EStateM.Result.ok.inj hret
          exact ih hrest (hstep c.1 hd)

theorem collectUsed_keeps {P : Driver → Prop} (hstep : ∀ {d} id, P d → P (d.collected id))
    {cs : List (UInt16 × UInt32)} {t : Driver × SharedMem}
    (h : collectUsed (d, m) = .ok cs t) (hd : P d) : P t.1 := by
  rw [collectUsed, collectWithin, bind_ok (self_run _)] at h
  obtain ⟨u, t', hload, hloop⟩ := bind_eq_ok.mp h
  obtain rfl : t' = (d, m) := by
    rcases hl : m.loadIdxAcquire d.layout.usedIdx with e | v
    · rw [load_error hl] at hload
      cases hload
    · rw [load_ok hl] at hload
      exact (EStateM.Result.ok.inj hload).2.symm
  exact collectLoop_keeps hstep hloop hd

/-- Allocating moves the bump pointer up, and hands out what it passed. -/
theorem allocUninit_spec (len : UInt32) (s : Driver × SharedMem) :
    ∃ arena, s.1.arena ≤ arena ∧
      final (allocUninit len s) = ({ s.1 with arena }, s.2) ∧
      ∀ a s', allocUninit len s = .ok (some a) s' → a = s.1.arena := by
  unfold allocUninit
  rw [bind_ok (self_run _)]
  rcases e : GuestAddr.checkedAdd s.1.arena len.toNat with - | stop
  · refine ⟨s.1.arena, le_rfl, rfl, fun a s' h => ?_⟩
    cases h
  -- past the overflow check, the end may still be outside the arena or fail to align
  dsimp only
  have hstop : stop = s.1.arena + len.toNat := by
    unfold GuestAddr.checkedAdd at e
    split at e
    · exact (Option.some.inj e).symm
    · cases e
  split
  · refine ⟨s.1.arena, le_rfl, rfl, fun a s' h => ?_⟩
    cases h
  · rcases e' : nextMultipleOf stop 8 with - | arena
    · refine ⟨s.1.arena, le_rfl, rfl, fun a s' h => ?_⟩
      cases h
    · refine ⟨arena, ?_, rfl, fun a s' h => ?_⟩
      · unfold nextMultipleOf at e'
        split at e'
        · have harena := Option.some.inj e'
          have hle : stop ≤ alignUp stop 8 := le_alignUp (by decide)
          omega
        · cases e'
      · cases h
        rfl

/-- Filling what was allocated writes nothing below the bump pointer. -/
theorem alloc_spec (data : List UInt8) (s : Driver × SharedMem) :
    ∃ arena m, s.1.arena ≤ arena ∧ final (alloc data s) = ({ s.1 with arena }, m) ∧
      (m = s.2 ∨ m = s.2.put s.1.arena data) := by
  obtain ⟨arena, hle, hfinal, haddr⟩ := allocUninit_spec (UInt32.ofNat data.length) s
  unfold alloc
  rcases e : allocUninit (UInt32.ofNat data.length) s with ⟨r, s'⟩ | ⟨f, s'⟩
  · rw [e, final_ok] at hfinal
    rw [bind_ok e]
    subst hfinal
    rcases r with - | addr
    · exact ⟨arena, s.2, hle, rfl, .inl rfl⟩
    · obtain rfl := haddr addr _ e
      -- the space is taken; only the copy may still fail, and then nothing is stored
      dsimp only
      rw [s.2.writeSlice_eq]
      split
      next m hm =>
        split at hm
        · exact ⟨arena, m, hle, rfl, .inr (Except.ok.inj hm).symm⟩
        · cases hm
      next => exact ⟨arena, s.2, hle, rfl, .inl rfl⟩
  · rw [e, final_error] at hfinal
    rw [bind_error e]
    exact ⟨arena, s.2, hle, hfinal, .inl rfl⟩

end Driver

/-! ### Any sequence of calls over any regions -/

/-- A call of one of the driver's methods. -/
inductive DriverOp where
  | addChain (buffers : List Buffer)
  | collectUsed
  | needsKick
  | armUsedEvent
  | alloc (data : List UInt8)
  | allocUninit (len : UInt32)

namespace DriverOp

/-- The assertions of the method. -/
def Asserts : DriverOp → Prop
  | addChain buffers => buffers ≠ [] ∧ readableFirst buffers = true
  | _ => True

/-- The driver and the region a call leaves behind, whatever it returned. -/
def after : DriverOp → Driver × SharedMem → Driver × SharedMem
  | addChain buffers, s => final (Driver.addChain buffers s)
  | collectUsed, s => final (Driver.collectUsed s)
  | needsKick, s => final (Driver.needsKick s)
  | armUsedEvent, s => final (Driver.armUsedEvent s)
  | alloc data, s => final (Driver.alloc data s)
  | allocUninit len, s => final (Driver.allocUninit len s)

end DriverOp

namespace Driver

open Half

variable {d : Driver}

/-- Every exit of every method keeps the accounting. -/
theorem Owned.after (h : d.Owned) {op : DriverOp} (hop : op.Asserts) (m : SharedMem) :
    (op.after (d, m)).1.Owned ∧ (op.after (d, m)).1.layout = d.layout := by
  cases op with
  | addChain bufs =>
      rcases addChain_ends h hop.1 hop.2 m with ⟨-, he⟩ | ⟨head, rest, free, -, hfree, hends, -⟩
      · rw [DriverOp.after, he]
        exact ⟨h, rfl⟩
      · rw [DriverOp.after]
        rcases hends.final with hd | hd
        · rw [hd]
          exact ⟨h.took hfree, rfl⟩
        · rw [hd]
          exact ⟨h.took hfree, rfl⟩
  | collectUsed =>
      exact (collectWithin_ends h rfl m fun u _ => (UInt16.toNat_lt _).le).final
  -- the remaining calls leave the free list and the outstanding chains alone
  | needsKick =>
      have hends : Ends (fun s : Driver × SharedMem => s.1.Owned ∧ s.1.layout = d.layout)
          (Driver.needsKick (d, m)) := by
        unfold Driver.needsKick
        rw [bind_ok (self_run _), bind_ok (modifySelf_run _ _)]
        split
        · exact ⟨h, rfl⟩
        · exact Ends.bind (ends_load ⟨h, rfl⟩) fun _ _ hs => hs
      exact hends.final
  | armUsedEvent =>
      have hends : Ends (fun s : Driver × SharedMem => s.1.Owned ∧ s.1.layout = d.layout)
          (Driver.armUsedEvent (d, m)) := by
        unfold Driver.armUsedEvent
        rw [bind_ok (self_run _)]
        exact ends_store fun _ => ⟨h, rfl⟩
      exact hends.final
  | alloc data =>
      obtain ⟨arena, m', -, hfinal, -⟩ := alloc_spec data (d, m)
      rw [DriverOp.after, hfinal]
      exact ⟨h, rfl⟩
  | allocUninit len =>
      obtain ⟨arena, -, hfinal, -⟩ := allocUninit_spec len (d, m)
      rw [DriverOp.after, hfinal]
      exact ⟨h, rfl⟩

/-- The driver after a script of calls, each over its own region. -/
def runScript (d : Driver) (script : List (DriverOp × SharedMem)) : Driver :=
  script.foldl (fun d o => (o.1.after (d, o.2)).1) d

theorem Owned.runScript (h : d.Owned) {script : List (DriverOp × SharedMem)}
    (hscript : ∀ o ∈ script, o.1.Asserts) :
    (d.runScript script).Owned ∧ (d.runScript script).layout = d.layout := by
  induction script generalizing d with
  | nil => exact ⟨h, rfl⟩
  | cons o script ih =>
      obtain ⟨h₁, hl₁⟩ := h.after (hscript o List.mem_cons_self) o.2
      obtain ⟨h₂, hl₂⟩ := ih h₁ fun o' ho' => hscript o' (List.mem_cons_of_mem _ ho')
      exact ⟨h₂, hl₂.trans hl₁⟩

/-- The map of outstanding chains after `addChain`: as it was, or with one new
chain, of descriptors that were free. -/
theorem Owned.outstanding_addChain (h : d.Owned) {bufs : List Buffer} (hne : bufs ≠ [])
    (hord : readableFirst bufs = true) (m : SharedMem) :
    (final (addChain bufs (d, m))).1.outstanding = d.outstanding ∧
      (∀ i s, addChain bufs (d, m) ≠ .ok i s) ∨
    ∃ head rest, d.outstanding.lookup head = none ∧ (head :: rest).length = bufs.length ∧
      (∀ k ds, d.outstanding.lookup k = some ds → (head :: rest).Disjoint ds) ∧
      (final (addChain bufs (d, m))).1.outstanding =
        d.outstanding.insert head (head :: rest) ∧
      ∀ i s, addChain bufs (d, m) = .ok i s → i = head := by
  rcases addChain_ends h hne hord m with ⟨-, he⟩ | ⟨head, rest, free, hlen, hfree, hends, hret⟩
  · refine .inl ⟨by rw [he, final_error], fun i s hi => ?_⟩
    rw [he] at hi
    cases hi
  · have hmem : ∀ i ∈ head :: rest, i ∈ d.freeDescs := fun i hi => mem_of_popped hfree hi
    refine .inr ⟨head, rest, ?_, hlen, ?_, ?_, hret⟩
    · exact h.lookup_eq_none VirtqLayout.nodup_indices (hmem head List.mem_cons_self)
    · intro k ds hk i hi hi'
      exact h.not_mem_of_free VirtqLayout.nodup_indices (hmem i hi) hk hi'
    · -- taken, or taken and published: the bookkeeping is the same
      rcases hends.final with hd | hd
      · rw [hd]
        rfl
      · rw [hd]
        rfl

/-- Whatever the device puts into the region between the calls, and whatever
the calls return: the free list and the outstanding chains are the table's
descriptors, each once and filed under their heads; `addChain` never fails an
assertion, never overwrites an outstanding entry and never hands out a
descriptor of an outstanding chain; `collectUsed` ends within the distance to
`used.idx`. -/
theorem accounting_survives_any_device {l : VirtqLayout} {arenaEnd : ℕ} {eventIdx : Bool}
    {d₀ : Driver} (hnew : Driver.new l arenaEnd eventIdx = some d₀)
    {script : List (DriverOp × SharedMem)} (hscript : ∀ o ∈ script, o.1.Asserts) :
    let d := d₀.runScript script
    (d.freeDescs ++ d.outstanding.entries.flatMap fun e => e.2).Perm
        ((List.range l.qs).map UInt16.ofNat) ∧
    (d.freeDescs ++ d.outstanding.entries.flatMap fun e => e.2).Nodup ∧
    (∀ k ds, d.outstanding.lookup k = some ds → ds.head? = some k) ∧
    (∀ bufs m, bufs ≠ [] → readableFirst bufs = true →
      (∀ s, addChain bufs (d, m) ≠ .error .panic s) ∧
      (∀ k ds, d.outstanding.lookup k = some ds →
        (final (addChain bufs (d, m))).1.outstanding.lookup k = some ds) ∧
      (∀ k ds, d.outstanding.lookup k = none →
        (final (addChain bufs (d, m))).1.outstanding.lookup k = some ds →
        ∀ k' ds', d.outstanding.lookup k' = some ds' → ds.Disjoint ds') ∧
      (∀ head s, addChain bufs (d, m) = .ok head s → d.outstanding.lookup head = none ∧
        ∃ ds, s.1.outstanding.lookup head = some ds ∧ ds.length = bufs.length)) ∧
    (∀ m fuel, (∀ u, m.loadIdxAcquire l.usedIdx = .ok u → (u - d.lastUsed).toNat ≤ fuel) →
      ∀ s, collectWithin fuel (d, m) ≠ .error .fuel s) := by
  obtain ⟨h₀, hl₀⟩ := owned_of_new hnew
  obtain ⟨h, hl⟩ := h₀.runScript hscript
  have hl' : (d₀.runScript script).layout = l := hl.trans hl₀
  intro d
  refine ⟨?_, h.nodup VirtqLayout.nodup_indices, h.heads, ?_, ?_⟩
  · rw [← hl']
    exact h.perm
  · intro bufs m hne hord
    have hpanic : ∀ s, addChain bufs (d, m) ≠ .error .panic s := by
      rcases addChain_ends h hne hord m with ⟨-, he⟩ | ⟨_, _, _, _, _, hends, _⟩
      · intro s hs
        cases he.symm.trans hs
      · exact hends.ne_panic
    refine ⟨hpanic, ?_⟩
    -- the map is as it was, or has one new chain of free descriptors
    rcases h.outstanding_addChain hne hord m with
      ⟨heq, hno⟩ | ⟨head, rest, hnone, hlen, hdisj, heq, hret⟩
    · rw [heq]
      refine ⟨fun k ds hk => hk, fun k ds hk hk' => ?_, fun i s hi => absurd hi (hno i s)⟩
      cases hk.symm.trans hk'
    · rw [heq]
      refine ⟨fun k ds hk => ?_, fun k ds hk hk' k' ds' hds' => ?_, fun i s hi => ?_⟩
      · have hne' : k ≠ head := fun e => by
          rw [e] at hk
          cases hnone.symm.trans hk
        rw [AList.lookup_insert_ne hne', hk]
      · by_cases hne' : k = head
        · subst hne'
          rw [AList.lookup_insert] at hk'
          obtain rfl := Option.some.inj hk'
          exact hdisj k' ds' hds'
        · rw [AList.lookup_insert_ne hne'] at hk'
          cases hk.symm.trans hk'
      · obtain rfl := hret i s hi
        rw [hi, final_ok] at heq
        exact ⟨hnone, _, by rw [heq, AList.lookup_insert], hlen⟩
  · intro m fuel hfuel
    exact (collectWithin_ends h hl' m hfuel).ne_fuel

/-- A used ring that advertises ten completions of descriptor 0. -/
def repeatedIds : SharedMem := (SharedMem.new 38 (by decide)).put 26 [10, 0]

theorem accounting_survives_repeatedIds :
    ∃ d₀, Driver.new unitQueue 100 true = some d₀ ∧
      (∀ o ∈ [(DriverOp.addChain [⟨38, 1, true⟩], SharedMem.new 38 (by decide)),
        (DriverOp.collectUsed, repeatedIds)], o.1.Asserts) ∧
      ((d₀.runScript [(.addChain [⟨38, 1, true⟩], SharedMem.new 38 (by decide)),
        (.collectUsed, repeatedIds)]).freeDescs ++
        (d₀.runScript [(.addChain [⟨38, 1, true⟩], SharedMem.new 38 (by decide)),
          (.collectUsed, repeatedIds)]).outstanding.entries.flatMap fun e => e.2).Nodup := by
  have hscript : ∀ o ∈ [(DriverOp.addChain [⟨38, 1, true⟩], SharedMem.new 38 (by decide)),
      (DriverOp.collectUsed, repeatedIds)], o.1.Asserts := by
    simp [DriverOp.Asserts, readableFirst]
  obtain ⟨d₀, hnew⟩ : ∃ d₀, Driver.new unitQueue 100 true = some d₀ := ⟨_, rfl⟩
  exact ⟨d₀, hnew, hscript, (accounting_survives_any_device hnew hscript).2.1⟩

end Driver

end SystemsStudy
