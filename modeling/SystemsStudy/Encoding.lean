/-
SystemsStudy/Encoding.lean

What the driver encodes, the device decodes.

`addChain` writes one table entry per buffer, linked through the indices it
took (`chainEntries`); `ChainIter` follows the links.  `decoded` is what the
walk makes of the descriptors of a chain: all of them if their lengths sum to
less than 2^32, else the longest prefix that does and `tooManyBytes`.  The
other errors do not occur, because the driver never links out of the table,
sets the indirect flag, or puts a readable buffer after a writable one, and
because it never uses more descriptors than the ttl allows.

The walk depends on nothing but the table entries of the chain (`Encoded`), so
it is not affected by what else happens to the region.
-/
import SystemsStudy.Ownership

namespace SystemsStudy

open Bytes Fallible

/-! ### The descriptors of a chain -/

theorem isWriteOnly_descriptorFor (b : Buffer) (last : Bool) (next : UInt16) :
    (descriptorFor b last next).isWriteOnly = b.deviceWritable := by
  unfold descriptorFor Descriptor.isWriteOnly
  dsimp only
  rcases b.deviceWritable <;> cases last <;> decide

theorem hasNext_descriptorFor (b : Buffer) (last : Bool) (next : UInt16) :
    (descriptorFor b last next).hasNext = !last := by
  unfold descriptorFor Descriptor.hasNext
  dsimp only
  rcases b.deviceWritable <;> cases last <;> decide

theorem isIndirect_descriptorFor (b : Buffer) (last : Bool) (next : UInt16) :
    (descriptorFor b last next).isIndirect = false := by
  unfold descriptorFor Descriptor.isIndirect
  dsimp only
  rcases b.deviceWritable <;> cases last <;> decide

/-- The descriptors `addChain` writes for a chain. -/
def chainDescriptors (indices : List UInt16) (bufs : List Buffer) : List Descriptor :=
  (chainEntries indices bufs).map Prod.snd

theorem map_fst_chainEntries {indices : List UInt16} {bufs : List Buffer}
    (h : indices.length = bufs.length) : (chainEntries indices bufs).map Prod.fst = indices := by
  fun_induction chainEntries indices bufs with
  | case1 idx indices buf bufs ih => simp [ih (by simpa using h)]
  | case2 indices bufs hnot =>
      rcases indices with - | ⟨i, indices⟩
      · rfl
      · rcases bufs with - | ⟨b, bufs⟩
        · simp at h
        · exact absurd rfl (hnot i indices b bufs rfl)

/-- The entries are at the indices taken. -/
theorem fst_mem_chainEntries {indices : List UInt16} {bufs : List Buffer}
    (h : indices.length = bufs.length) {e : UInt16 × Descriptor}
    (he : e ∈ chainEntries indices bufs) : e.1 ∈ indices := by
  rw [← map_fst_chainEntries h]
  exact List.mem_map_of_mem he

/-- Address, length and direction are those of the buffers, in order. -/
theorem chainDescriptors_view {indices : List UInt16} {bufs : List Buffer}
    (h : indices.length = bufs.length) :
    (chainDescriptors indices bufs).map (fun d => (d.addr, d.len, d.isWriteOnly)) =
      bufs.map fun b => (b.addr, b.len, b.deviceWritable) := by
  induction bufs generalizing indices with
  | nil => rcases indices with - | ⟨i, indices⟩ <;> rfl
  | cons b bufs ih =>
      rcases indices with - | ⟨i, indices⟩
      · simp at h
      · have hlen : indices.length = bufs.length := by simpa using h
        have hrec := ih hlen
        simp only [chainDescriptors] at hrec
        simp only [chainDescriptors, chainEntries, List.map_cons, hrec,
          isWriteOnly_descriptorFor]
        rfl

/-- Every descriptor but the last has a successor. -/
theorem chainDescriptors_hasNext {indices : List UInt16} {bufs : List Buffer}
    (h : indices.length = bufs.length) (hne : bufs ≠ []) :
    (chainDescriptors indices bufs).map Descriptor.hasNext =
      List.replicate (bufs.length - 1) true ++ [false] := by
  induction bufs generalizing indices with
  | nil => exact absurd rfl hne
  | cons b bufs ih =>
      rcases indices with - | ⟨i, indices⟩
      · simp at h
      have h' : indices.length = bufs.length := by simpa using h
      simp only [chainDescriptors, chainEntries, List.map_cons, hasNext_descriptorFor]
      rcases bufs with - | ⟨c, bufs⟩
      · obtain rfl : indices = [] := by simpa using h'
        rfl
      · have hrec := ih h' (by simp)
        simp only [chainDescriptors] at hrec
        rw [hrec]
        rfl

/-! ### What a walk makes of them -/

/-- The descriptors a walk yields that starts with `n` bytes, and its error. -/
def decoded (n : ℕ) : List Descriptor → List Descriptor × Option ChainError
  | [] => ([], none)
  | d :: ds =>
      if n + d.len.toNat < 2 ^ 32 then
        (d :: (decoded (n + d.len.toNat) ds).1, (decoded (n + d.len.toNat) ds).2)
      else ([], some .tooManyBytes)

theorem decoded_of_lt {n : ℕ} {ds : List Descriptor} (h : n + totalLen ds < 2 ^ 32) :
    decoded n ds = (ds, none) := by
  induction ds generalizing n with
  | nil => rfl
  | cons d ds ih =>
      rw [totalLen_cons] at h
      rw [decoded, if_pos (by omega), ih (by omega)]

/-- Too many bytes: the walk yields the longest prefix that stays below. -/
theorem decoded_of_ge {n : ℕ} {ds : List Descriptor} (hn : n < 2 ^ 32)
    (h : 2 ^ 32 ≤ n + totalLen ds) :
    ∃ j < ds.length, decoded n ds = (ds.take j, some .tooManyBytes) ∧
      ∀ i ≤ ds.length, n + totalLen (ds.take i) < 2 ^ 32 ↔ i ≤ j := by
  induction ds generalizing n with
  | nil =>
      rw [totalLen_nil] at h
      omega
  | cons d ds ih =>
      rw [totalLen_cons] at h
      by_cases hd : n + d.len.toNat < 2 ^ 32
      · -- this descriptor still fits: the overflow is in the tail
        obtain ⟨j, hj, hdec, hlong⟩ := ih hd (by omega)
        refine ⟨j + 1, Nat.succ_lt_succ hj, by rw [decoded, if_pos hd, hdec]; rfl, ?_⟩
        intro i hi
        rcases i with - | i
        · simpa using hn
        · have hrec := hlong i (Nat.le_of_succ_le_succ hi)
          rw [List.take_succ_cons, totalLen_cons]
          omega
      · -- this descriptor is the one at which the running count leaves 32 bits
        refine ⟨0, Nat.succ_pos _, by rw [decoded, if_neg hd]; rfl, ?_⟩
        intro i hi
        rcases i with - | i
        · simpa using hn
        · rw [List.take_succ_cons, totalLen_cons]
          omega

theorem decoded_prefix (n : ℕ) (ds : List Descriptor) : (decoded n ds).1 <+: ds := by
  induction ds generalizing n with
  | nil => exact List.prefix_rfl
  | cons d ds ih =>
      rw [decoded]
      split
      · exact (List.cons_prefix_cons).mpr ⟨rfl, ih _⟩
      · exact List.nil_prefix

/-! ### The walk of an encoded chain -/

/-- The table holds the chain of `bufs` at `indices`. -/
structure Encoded (l : VirtqLayout) (m : SharedMem) (indices : List UInt16)
    (bufs : List Buffer) : Prop where
  len_eq : indices.length = bufs.length
  nonempty : bufs ≠ []
  ordered : readableFirst bufs = true
  inTable : ∀ i ∈ indices, i.toNat < l.qs
  short : indices.length ≤ l.qs
  entries : ∀ e ∈ chainEntries indices bufs, m.descAt (l.descAddr e.1) = e.2

theorem readableFirst_cons {b c : Buffer} {bufs : List Buffer}
    (h : readableFirst (b :: c :: bufs) = true) :
    (b.deviceWritable = true → c.deviceWritable = true) ∧ readableFirst (c :: bufs) = true := by
  rw [readableFirst, Bool.and_eq_true] at h
  refine ⟨fun hb => ?_, h.2⟩
  simpa [hb] using h.1

/-- An iterator at the entry of `b` yields it and goes on, or has had too many
bytes. -/
theorem walks_cons {it : ChainIter} {idx : UInt16} {b : Buffer} {last : Bool}
    {next : UInt16} {ds : List Descriptor} (hdone : it.done = false)
    (hidx : it.nextIndex = idx) (htab : idx.toNat < it.layout.qs) (httl : 0 < it.ttl.toNat)
    (hseen : it.seenWritable = true → b.deviceWritable = true)
    (hread : readDescriptor it.mem (it.layout.descAddr idx) = .ok (descriptorFor b last next))
    (hrest : it.yieldedBytes.toNat + (descriptorFor b last next).len.toNat < 2 ^ 32 →
      (it.after (descriptorFor b last next)).Walks
        (decoded (it.yieldedBytes.toNat + (descriptorFor b last next).len.toNat) ds).1
        (decoded (it.yieldedBytes.toNat + (descriptorFor b last next).len.toNat) ds).2) :
    it.Walks (decoded it.yieldedBytes.toNat (descriptorFor b last next :: ds)).1
      (decoded it.yieldedBytes.toNat (descriptorFor b last next :: ds)).2 := by
  subst hidx
  have httl' : it.ttl ≠ 0 := by
    intro h₀
    rw [h₀] at httl
    exact absurd httl (by decide)
  have hdirect := isIndirect_descriptorFor b last next
  rw [decoded]
  split
  next hsum =>
    -- the total still fits: the descriptor is returned, and the walk goes on behind it
    refine .yield hdone ⟨httl', htab, hread, hdirect, hsum, ?_⟩ (hrest hsum)
    rw [isWriteOnly_descriptorFor]
    rcases hs : it.seenWritable
    · exact .inr rfl
    · exact .inl (hseen hs)
  next hsum => exact .fail hdone (.tooManyBytes httl' htab hread hdirect (by omega))

theorem chainDescriptors_cons (idx : UInt16) (indices : List UInt16) (b : Buffer)
    (bufs : List Buffer) : chainDescriptors (idx :: indices) (b :: bufs) =
      descriptorFor b bufs.isEmpty (if bufs.isEmpty then 0 else indices.headD 0) ::
        chainDescriptors indices bufs := rfl

/-- An iterator that stands at the first of some linked entries decodes them. -/
theorem walks_chainEntries {it : ChainIter} {idx : UInt16} {indices : List UInt16} {b : Buffer}
    {bufs : List Buffer} (hlen : indices.length = bufs.length) (hdone : it.done = false)
    (hidx : it.nextIndex = idx) (htab : ∀ i ∈ idx :: indices, i.toNat < it.layout.qs)
    (httl : bufs.length + 1 ≤ it.ttl.toNat) (hord : readableFirst (b :: bufs) = true)
    (hseen : it.seenWritable = true → b.deviceWritable = true)
    (hread : ∀ e ∈ chainEntries (idx :: indices) (b :: bufs),
      readDescriptor it.mem (it.layout.descAddr e.1) = .ok e.2) :
    it.Walks (decoded it.yieldedBytes.toNat (chainDescriptors (idx :: indices) (b :: bufs))).1
      (decoded it.yieldedBytes.toNat (chainDescriptors (idx :: indices) (b :: bufs))).2 := by
  induction bufs generalizing it idx indices b with
  | nil =>
      -- the last descriptor has no successor
      obtain rfl : indices = [] := by simpa using hlen
      have hfirst := hread _ List.mem_cons_self
      rw [chainDescriptors_cons]
      refine walks_cons hdone hidx (htab idx List.mem_cons_self) (by omega) hseen hfirst
        fun _ => ?_
      exact .stop (by rw [ChainIter.after, hasNext_descriptorFor]; rfl)
  | cons c bufs ih =>
      rcases indices with - | ⟨j, indices⟩
      · simp at hlen
      have hlen' : indices.length = bufs.length := by simpa using hlen
      obtain ⟨hnext, hord'⟩ := readableFirst_cons hord
      have httl₀ : it.ttl ≠ 0 := by
        intro h₀
        rw [h₀, UInt16.toNat_zero] at httl
        omega
      -- each descriptor takes one of the ttl and its length of the budget
      have hone := Rolling.toNat_sub_one httl₀
      rw [List.length_cons] at httl
      have hfirst := hread _ List.mem_cons_self
      rw [chainDescriptors_cons]
      refine walks_cons hdone hidx (htab idx List.mem_cons_self) (by omega) hseen hfirst
        fun hsum => ?_
      set D := descriptorFor b (c :: bufs).isEmpty (if (c :: bufs).isEmpty then 0 else
        (j :: indices).headD 0) with hD
      have hhas : D.hasNext = true := hasNext_descriptorFor _ _ _
      have hbytes : (it.after D).yieldedBytes.toNat = it.yieldedBytes.toNat + D.len.toNat := by
        show (it.yieldedBytes + D.len).toNat = _
        rw [UInt32.toNat_add, Nat.mod_eq_of_lt hsum]
      rw [← hbytes]
      refine ih hlen' ?_ ?_ ?_ ?_ hord' ?_ ?_
      · rw [ChainIter.after, hhas]
        rfl
      · rw [ChainIter.after, hhas]
        rfl
      · exact fun i hi => htab i (List.mem_cons_of_mem _ hi)
      · rw [ChainIter.after, hhas]
        show bufs.length + 1 ≤ (it.ttl - 1).toNat
        omega
      · -- a writable descriptor so far makes the next one writable
        intro hseen'
        have hor : it.seenWritable = true ∨ D.isWriteOnly = true := by
          simpa [ChainIter.after] using hseen'
        rcases hor with hs | hw
        · exact hnext (hseen hs)
        · exact hnext ((isWriteOnly_descriptorFor b _ _).symm.trans hw)
      · exact fun e he => hread e (List.mem_cons_of_mem _ he)

namespace Encoded

variable {l : VirtqLayout} {m m' : SharedMem} {head : UInt16} {rest indices : List UInt16}
  {bufs : List Buffer}

/-- The chain stays encoded as long as its own entries stay. -/
theorem congr (h : Encoded l m indices bufs)
    (hsame : ∀ i ∈ indices, SharedMem.SameOn m m' (l.descAddr i) (l.descAddr i + 16)) :
    Encoded l m' indices bufs := by
  refine ⟨h.len_eq, h.nonempty, h.ordered, h.inTable, h.short, fun e he => ?_⟩
  have hmem : e.1 ∈ indices := fst_mem_chainEntries h.len_eq he
  rw [← (hsame e.1 hmem).descAt_eq]
  exact h.entries e he

/-- The walk from the head of an encoded chain. -/
theorem walks (h : Encoded l m (head :: rest) bufs) (hcov : l.Covered m) :
    (ChainIter.new m l head).Walks (decoded 0 (chainDescriptors (head :: rest) bufs)).1
      (decoded 0 (chainDescriptors (head :: rest) bufs)).2 := by
  rcases bufs with - | ⟨b, bufs⟩
  · exact absurd rfl h.nonempty
  have hlen : rest.length = bufs.length := by simpa using h.len_eq
  have hshort := h.short
  rw [List.length_cons] at hshort
  refine walks_chainEntries hlen rfl rfl h.inTable ?_ h.ordered (fun hs => by cases hs) ?_
  · show bufs.length + 1 ≤ l.qs
    omega
  · intro e he
    have hmem : e.1 ∈ head :: rest := fst_mem_chainEntries h.len_eq he
    have hend := hcov.desc (h.inTable e.1 hmem)
    refine (readDescriptor_ok ?_).trans (congrArg Except.ok (h.entries e he))
    exact hend

theorem collect (h : Encoded l m (head :: rest) bufs) (hcov : l.Covered m) :
    (ChainIter.new m l head).collect (l.qs + 1) =
      .ok (decoded 0 (chainDescriptors (head :: rest) bufs)) :=
  (ChainIter.collect_eq_ok (Nat.lt_succ_self _)).mpr (h.walks hcov)

end Encoded

/-! ### The buffers read back -/

/-- Total length of a list of buffers. -/
def buffersLen (bufs : List Buffer) : ℕ := (bufs.map fun b => b.len.toNat).sum

theorem totalLen_of_view {ds : List Descriptor} {bufs : List Buffer}
    (h : ds.map (fun d => (d.addr, d.len, d.isWriteOnly)) =
      bufs.map fun b => (b.addr, b.len, b.deviceWritable)) :
    totalLen ds = buffersLen bufs := by
  have hlens := congrArg (List.map fun v : UInt64 × UInt32 × Bool => v.2.1.toNat) h
  rw [List.map_map, List.map_map] at hlens
  exact congrArg List.sum hlens

/-- `r` is what a walk should make of the buffers: all of them, with the same
address, length and direction and all but the last linked on, or, if they are
too many bytes, the longest prefix below 2^32 and that error. -/
def ReadsBack (bufs : List Buffer)
    (r : Except (Fault MemError) (List Descriptor × Option ChainError)) : Prop :=
  ∃ ds : List Descriptor,
    ds.map (fun d => (d.addr, d.len, d.isWriteOnly)) =
      bufs.map (fun b => (b.addr, b.len, b.deviceWritable)) ∧
    ds.map Descriptor.hasNext = List.replicate (bufs.length - 1) true ++ [false] ∧
    (buffersLen bufs < 2 ^ 32 → r = .ok (ds, none)) ∧
    (2 ^ 32 ≤ buffersLen bufs → ∃ j < bufs.length, r = .ok (ds.take j, some .tooManyBytes) ∧
      ∀ i ≤ bufs.length, buffersLen (bufs.take i) < 2 ^ 32 ↔ i ≤ j)

theorem Encoded.readsBack {l : VirtqLayout} {m : SharedMem} {head : UInt16}
    {rest : List UInt16} {bufs : List Buffer} (h : Encoded l m (head :: rest) bufs)
    (hcov : l.Covered m) :
    ReadsBack bufs ((ChainIter.new m l head).collect (l.qs + 1)) := by
  have hview := chainDescriptors_view h.len_eq
  have hlen : (chainDescriptors (head :: rest) bufs).length = bufs.length := by
    simpa using congrArg List.length hview
  have htotal := totalLen_of_view hview
  refine ⟨_, hview, chainDescriptors_hasNext h.len_eq h.nonempty, fun hlt => ?_, fun hge => ?_⟩
  · rw [h.collect hcov, decoded_of_lt (by omega)]
  · obtain ⟨j, hj, hdec, hlong⟩ := decoded_of_ge (Nat.two_pow_pos 32)
      (by omega : 2 ^ 32 ≤ 0 + totalLen (chainDescriptors (head :: rest) bufs))
    refine ⟨j, hlen ▸ hj, by rw [h.collect hcov, hdec], fun i hi => ?_⟩
    have hprefix : ((chainDescriptors (head :: rest) bufs).take i).map
        (fun d => (d.addr, d.len, d.isWriteOnly)) =
        (bufs.take i).map fun b => (b.addr, b.len, b.deviceWritable) := by
      rw [List.map_take, List.map_take, hview]
    rw [← totalLen_of_view hprefix, ← hlong i (by omega), Nat.zero_add]

/-! ### What `addChain` leaves in the table -/

namespace Driver

variable {d : Driver} {m : SharedMem} {bufs : List Buffer} {head : UInt16}
  {s : Driver × SharedMem}

/-- A successful `addChain` passed its checks, and is the operation
`addChain_ok` describes. -/
theorem addChain_inv (h : d.Owned) (hcov : d.layout.Covered m)
    (hok : addChain bufs (d, m) = .ok head s) :
    ∃ rest free, bufs ≠ [] ∧ readableFirst bufs = true ∧
      (head :: rest).length = bufs.length ∧ d.freeDescs = free ++ (head :: rest).reverse ∧
      s = ((d.took head rest free).published,
        putChain d.layout m d.availIdx head (chainEntries (head :: rest) bufs)) := by
  obtain ⟨hne, hfree, hord⟩ : bufs ≠ [] ∧ bufs.length ≤ d.freeDescs.length ∧
      readableFirst bufs = true := by
    -- a call that returned has passed its three checks
    unfold addChain at hok
    rw [bind_ok (Half.self_run _)] at hok
    dsimp only at hok
    split at hok
    · cases hok
    split at hok
    · cases hok
    split at hok
    · cases hok
    · simp_all
  obtain ⟨head', rest, free, hlen, hsplit, hok'⟩ := addChain_ok hcov hne hord
    (fun i hi => h.lt_of_free hi) hfree
  rw [hok] at hok'
  obtain ⟨rfl, rfl⟩ : head = head' ∧ s = _ := by simpa using hok'
  exact ⟨rest, free, hne, hord, hlen, hsplit, rfl⟩

variable {l : VirtqLayout} {pos : UInt16} {entries : List (UInt16 × Descriptor)}

@[simp] theorem len_putChain : (putChain l m pos head entries).len = m.len := by
  simp only [putChain, SharedMem.len_put, VirtqLayout.len_putEntries]

/-- Publishing a chain changes its table entries, its avail slot and the avail
index. -/
theorem sameOn_putChain {lo hi : ℕ}
    (hent : ∀ e ∈ entries, hi ≤ l.descAddr e.1 ∨ l.descAddr e.1 + 16 ≤ lo)
    (hslot : hi ≤ l.availSlot pos ∨ l.availSlot pos + 2 ≤ lo)
    (hidx : hi ≤ l.availIdx ∨ l.availIdx + 2 ≤ lo) :
    SharedMem.SameOn (putChain l m pos head entries) m lo hi :=
  ((SharedMem.sameOn_put _ (by rw [length_toLe]; omega)).trans
    (SharedMem.sameOn_put _ (by rw [length_toLe]; omega))).trans
    (VirtqLayout.sameOn_putEntries hent)

theorem word16_availIdx_putChain (hcov : l.Covered m) :
    (putChain l m pos head entries).word16 l.availIdx = pos + 1 :=
  SharedMem.word16_put_self _ _ (by
    rw [SharedMem.len_put, VirtqLayout.len_putEntries]
    exact hcov.availIdx)

theorem word16_availSlot_putChain (hcov : l.Covered m) :
    (putChain l m pos head entries).word16 (l.availSlot pos) = head := by
  have hslot := l.le_availSlot pos
  have hidx : l.availIdx = l.availRing + 2 := rfl
  have hs : SharedMem.SameOn (putChain l m pos head entries)
      ((l.putEntries entries m).put (l.availSlot pos) (toLe 2 head.toNat)) (l.availSlot pos)
      (l.availSlot pos + 2) :=
    SharedMem.sameOn_put _ (by rw [length_toLe]; omega)
  rw [hs.word16_eq, SharedMem.word16_put_self _ _ (by
    rw [VirtqLayout.len_putEntries]
    exact hcov.availSlot pos)]

/-- The published chain is encoded. -/
theorem encoded_putChain (hcov : l.Covered m) {indices : List UInt16}
    (hlen : indices.length = bufs.length) (hne : bufs ≠ []) (hord : readableFirst bufs = true)
    (htab : ∀ i ∈ indices, i.toNat < l.qs) (hnd : indices.Nodup)
    (hshort : indices.length ≤ l.qs) :
    Encoded l (putChain l m pos head (chainEntries indices bufs)) indices bufs := by
  refine ⟨hlen, hne, hord, htab, hshort, fun e he => ?_⟩
  have hmem : ∀ e ∈ chainEntries indices bufs, e.1.toNat < l.qs := by
    intro e he
    exact htab e.1 (fst_mem_chainEntries hlen he)
  have hend : l.descAddr e.1 + 16 ≤ l.availRing := by
    have := l.table_end_le
    have := hmem e he
    rw [VirtqLayout.descAddr]
    omega
  have hslot := l.le_availSlot pos
  have hidx : l.availIdx = l.availRing + 2 := rfl
  -- the slot and the index are behind the table
  have hs : SharedMem.SameOn (putChain l m pos head (chainEntries indices bufs))
      (l.putEntries (chainEntries indices bufs) m) (l.descAddr e.1) (l.descAddr e.1 + 16) :=
    (SharedMem.sameOn_put _ (by omega)).trans (SharedMem.sameOn_put _ (by omega))
  rw [hs.descAt_eq]
  refine VirtqLayout.descAt_putEntries (by rwa [map_fst_chainEntries hlen]) (fun e' he' => ?_) he
  exact hcov.desc (hmem e' he')

/-- A chain at other indices stays encoded. -/
theorem encoded_putChain_of_disjoint {indices taken : List UInt16} {bufs' : List Buffer}
    (h : Encoded l m indices bufs') (hlen : taken.length = bufs.length)
    (hdisj : taken.Disjoint indices) :
    Encoded l (putChain l m pos head (chainEntries taken bufs)) indices bufs' := by
  refine h.congr fun i hi => (sameOn_putChain (fun e he => ?_) ?_ ?_).symm
  · have hmem : e.1 ∈ taken := fst_mem_chainEntries hlen he
    exact VirtqLayout.descAddr_disjoint fun heq => hdisj hmem (heq ▸ hi)
  · have hi' := h.inTable i hi
    have := l.table_end_le
    have := l.le_availSlot pos
    rw [VirtqLayout.descAddr]
    omega
  · have hi' := h.inTable i hi
    have hlay := l.bounds
    rw [VirtqLayout.descAddr]
    omega

end Driver

end SystemsStudy
