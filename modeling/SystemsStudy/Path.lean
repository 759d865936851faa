/-
SystemsStudy/Path.lean

Which chains the iterator accepts.

The descriptor table is a set of nodes with pointers: `pathIndex` is the index
the path from a head reaches after so many descriptors, and `path` is the list
of these descriptors.  Neither knows about the ttl, the byte count or the
direction flag of `ChainIter`.

`Admits n` collects the conditions on the first `n` descriptors of the path.
The iterator yields the longest prefix that satisfies them, and then reports an
error unless the path ends there (`chain_accepts_exactly`).  The invariant
behind it is `At`: after `n` descriptors the fields of the iterator are those
of the path.

The ttl needs no condition on paths that end: a path inside the table that ends
visits every slot at most once.
-/
import SystemsStudy.Chain
import SystemsStudy.Lib.Chase

namespace SystemsStudy

open Fallible

/-! ### The path through the table -/

@[simp] theorem totalLen_append (ds es : List Descriptor) :
    totalLen (ds ++ es) = totalLen ds + totalLen es := by
  simp [totalLen]

namespace VirtqLayout

variable (l : VirtqLayout) (m : SharedMem) (head : UInt16)

/-- The entry of the descriptor table at an index. -/
def entry (i : UInt16) : Descriptor := m.descAt (l.descTable + 16 * i.toNat)

/-- The index that the entry at `i` names as the next. -/
def successor (i : UInt16) : Option UInt16 :=
  if i.toNat < l.qs ∧ (l.entry m i).hasNext = true then some (l.entry m i).next else none

/-- The index the path from `head` reaches after `n` descriptors. -/
def pathIndex (n : ℕ) : Option UInt16 := Chase.node (l.successor m) head n

/-- The first `n` descriptors of the path from `head`. -/
def path (n : ℕ) : List Descriptor :=
  (List.range n).filterMap fun i => (l.pathIndex m head i).map (l.entry m)

/-- The first `n` descriptors exist and violate none of the conditions. -/
structure Admits (n : ℕ) : Prop where
  length_le : n ≤ l.qs
  inTable : ∀ i < n, ∃ j, l.pathIndex m head i = some j ∧ j.toNat < l.qs
  direct : ∀ d ∈ l.path m head n, d.isIndirect = false
  bytes_lt : totalLen (l.path m head n) < 2 ^ 32
  ordered : (l.path m head n).Pairwise fun d e => d.isWriteOnly = true → e.isWriteOnly = true

variable {l m head} {n k : ℕ}

theorem path_succ {j : UInt16} (h : l.pathIndex m head n = some j) :
    l.path m head (n + 1) = l.path m head n ++ [l.entry m j] := by
  simp [path, List.range_succ, List.filterMap_append, h]

theorem path_prefix (h : k ≤ n) : l.path m head k <+: l.path m head n := by
  have hr : List.range k <+: List.range n := by
    obtain ⟨c, rfl⟩ := Nat.exists_eq_add_of_le h
    rw [List.range_add]
    exact List.prefix_append _ _
  exact hr.filterMap _

theorem pathIndex_succ {j : UInt16} (h : l.pathIndex m head n = some j) (hj : j.toNat < l.qs) :
    l.pathIndex m head (n + 1) =
      if (l.entry m j).hasNext = true then some (l.entry m j).next else none := by
  have h' : Chase.node (l.successor m) head n = some j := h
  rw [pathIndex, Chase.node_succ, h', Option.bind_some, successor]
  simp [hj]

namespace Admits

theorem zero : l.Admits m head 0 where
  length_le := Nat.zero_le _
  inTable := fun _ hi => absurd hi (Nat.not_lt_zero _)
  direct := by simp [path]
  bytes_lt := by simp [path]
  ordered := by simp [path]

/-- The conditions on a prefix follow from those on the whole. -/
theorem mono (h : l.Admits m head n) (hk : k ≤ n) : l.Admits m head k := by
  have hp : l.path m head k <+: l.path m head n := path_prefix hk
  obtain ⟨rest, hrest⟩ := hp
  refine ⟨hk.trans h.length_le, fun i hi => h.inTable i (hi.trans_le hk), ?_, ?_, ?_⟩
  · exact fun d hd => h.direct d (by rw [← hrest]; exact List.mem_append_left _ hd)
  · have hlt := h.bytes_lt
    rw [← hrest, totalLen_append] at hlt
    omega
  · have hord := h.ordered
    rw [← hrest] at hord
    exact (List.pairwise_append.mp hord).1

/-- Only the longest prefix can be followed by the end of the path. -/
theorem eq_of_ends (h : l.Admits m head n) (hend : l.pathIndex m head n = none)
    (hk : l.Admits m head k) (hmax : ∀ k', l.Admits m head k' → k' ≤ k) : n = k := by
  refine le_antisymm (hmax n h) ?_
  by_contra hlt
  obtain ⟨j, hj, -⟩ := hk.inTable n (Nat.lt_of_not_le hlt)
  rw [hend] at hj
  cases hj

end Admits

/-- The slots of the table. -/
def slots (l : VirtqLayout) : Finset UInt16 := (Finset.range l.qs).image UInt16.ofNat

theorem card_slots_le : l.slots.card ≤ l.qs :=
  Finset.card_image_le.trans_eq (Finset.card_range _)

theorem mem_slots {j : UInt16} (h : j.toNat < l.qs) : j ∈ l.slots :=
  Finset.mem_image.mpr ⟨j.toNat, Finset.mem_range.mpr h, UInt16.ofNat_toNat⟩

/-- A path that stays inside the table for longer than it has slots comes back. -/
theorem exists_revisit (hn : l.qs < n)
    (h : ∀ i < n, ∃ j, l.pathIndex m head i = some j ∧ j.toNat < l.qs) :
    ∃ i j a, i < j ∧ j < n ∧ l.pathIndex m head i = some a ∧ l.pathIndex m head j = some a := by
  refine Chase.exists_repeat l.slots (card_slots_le.trans_lt hn) fun i hi => ?_
  obtain ⟨j, hj, hlt⟩ := h i hi
  exact ⟨j, mem_slots hlt, hj⟩

end VirtqLayout

/-! ### The iterator follows it -/

namespace ChainIter

/-- The iterator after yielding the first `n` descriptors of the path. -/
structure At (l : VirtqLayout) (m : SharedMem) (head : UInt16) (n : ℕ) (it : ChainIter) :
    Prop where
  mem : it.mem = m
  layout : it.layout = l
  admits : l.Admits m head n
  bytes : it.yieldedBytes.toNat = totalLen (l.path m head n)
  seen : it.seenWritable = true ↔ ∃ d ∈ l.path m head n, d.isWriteOnly = true
  index : it.done = false → l.pathIndex m head n = some it.nextIndex
  ttl : it.done = false → it.ttl.toNat + n = l.qs
  ended : it.done = true → l.pathIndex m head n = none

variable {l : VirtqLayout} {m : SharedMem} {head : UInt16} {n : ℕ} {it : ChainIter}

theorem at_new (l : VirtqLayout) (m : SharedMem) (head : UInt16) :
    At l m head 0 (ChainIter.new m l head) where
  mem := rfl
  layout := rfl
  admits := .zero
  bytes := rfl
  seen := by simp [VirtqLayout.path, ChainIter.new]
  index := fun _ => rfl
  ttl := fun _ => rfl
  ended := fun h => by cases h

namespace At

/-- The descriptor the iterator reads is the next one of the path. -/
theorem read (h : At l m head n it) (htable : l.descTable + 16 * l.qs ≤ m.len)
    (hlt : it.nextIndex.toNat < l.qs) :
    readDescriptor it.mem it.addr = .ok (l.entry m it.nextIndex) := by
  rw [addr, h.mem, h.layout]
  exact readDescriptor_ok (by omega)

/-- A descriptor the iterator yields is admitted. -/
theorem admits_yield (h : At l m head n it) (hdone : it.done = false) {d : Descriptor}
    (hy : it.Yields d) (hlt : it.nextIndex.toNat < l.qs)
    (hpath : l.path m head (n + 1) = l.path m head n ++ [d]) : l.Admits m head (n + 1) := by
  have httl := h.ttl hdone
  have hpos : it.ttl.toNat ≠ 0 := fun h₀ => hy.ttl_ne (UInt16.toNat_inj.mp h₀)
  refine ⟨by omega, ?_, ?_, ?_, ?_⟩
  · intro i hi
    rcases Nat.lt_succ_iff_lt_or_eq.mp hi with hi | rfl
    · exact h.admits.inTable i hi
    · exact ⟨it.nextIndex, h.index hdone, hlt⟩
  · rw [hpath]
    intro e he
    rcases List.mem_append.mp he with he | he
    · exact h.admits.direct e he
    · rw [List.mem_singleton.mp he]
      exact hy.direct
  · have hbytes := hy.bytes_lt
    rw [h.bytes] at hbytes
    rw [hpath, totalLen_append, totalLen_cons, totalLen_nil]
    omega
  · -- a readable descriptor behind a writable one would not have been yielded
    rw [hpath]
    refine List.pairwise_append.mpr ⟨h.admits.ordered, List.pairwise_singleton _ _, ?_⟩
    intro e he e' he' hwrite
    rw [List.mem_singleton.mp he']
    refine hy.ordered.resolve_right ?_
    rw [h.seen.mpr ⟨e, he, hwrite⟩]
    exact Bool.noConfusion

/-- Yielding a descriptor goes one further on the path. -/
theorem yield (h : At l m head n it) (htable : l.descTable + 16 * l.qs ≤ m.len)
    (hdone : it.done = false) {d : Descriptor} (hy : it.Yields d) :
    l.path m head (n + 1) = l.path m head n ++ [d] ∧ At l m head (n + 1) (it.after d) := by
  have hlt : it.nextIndex.toNat < l.qs := by
    rw [← h.layout]
    exact hy.index_lt
  obtain rfl : l.entry m it.nextIndex = d := Except.ok.inj ((h.read htable hlt).symm.trans hy.read)
  set d := l.entry m it.nextIndex with hd
  have hindex := h.index hdone
  have hpath : l.path m head (n + 1) = l.path m head n ++ [d] := VirtqLayout.path_succ hindex
  have hnext := VirtqLayout.pathIndex_succ hindex hlt
  have httl := h.ttl hdone
  have hpos : it.ttl.toNat ≠ 0 := fun h₀ => hy.ttl_ne (UInt16.toNat_inj.mp h₀)
  refine ⟨hpath, h.mem, h.layout, h.admits_yield hdone hy hlt hpath, ?_, ?_, ?_, ?_, ?_⟩
  · have hbytes := hy.bytes_lt
    rw [hpath, totalLen_append, totalLen_cons, totalLen_nil, ← h.bytes]
    show (it.yieldedBytes + d.len).toNat = _
    rw [UInt32.toNat_add, Nat.mod_eq_of_lt hbytes]
    omega
  · show (it.seenWritable || d.isWriteOnly) = true ↔ _
    rw [hpath, Bool.or_eq_true, h.seen]
    simp [or_and_right, exists_or]
  · -- the chain goes on: the next index is where the path goes
    intro hdone'
    have hn : d.hasNext = true := by simpa [after] using hdone'
    rw [hnext, if_pos hn, after, hn]
    rfl
  · -- the time to live drops by one as the path grows by one
    intro hdone'
    have hn : d.hasNext = true := by simpa [after] using hdone'
    have hle : (1 : UInt16) ≤ it.ttl := by
      rw [UInt16.le_iff_toNat_le]
      show 1 ≤ it.ttl.toNat
      omega
    show (if d.hasNext then it.ttl - 1 else it.ttl).toNat + (n + 1) = l.qs
    rw [if_pos hn, UInt16.toNat_sub_of_le _ _ hle]
    show it.ttl.toNat - 1 + (n + 1) = l.qs
    omega
  · -- the chain ends here, and so does the path
    intro hdone'
    have hn : d.hasNext = false := by simpa [after] using hdone'
    rw [hnext, hn]
    rfl

/-- Reporting an error means that one more descriptor is not admitted. -/
theorem not_admits (h : At l m head n it) (htable : l.descTable + 16 * l.qs ≤ m.len)
    (hdone : it.done = false) {e : ChainError} (hf : it.Fails e) :
    ¬ l.Admits m head (n + 1) := by
  intro hadm
  have hindex := h.index hdone
  have hlt : it.nextIndex.toNat < l.qs := by
    obtain ⟨j, hj, hlt⟩ := hadm.inTable n (Nat.lt_succ_self n)
    rw [hindex] at hj
    rwa [Option.some.inj hj]
  have hread := h.read htable hlt
  have hpath : l.path m head (n + 1) = l.path m head n ++ [l.entry m it.nextIndex] :=
    VirtqLayout.path_succ hindex
  have hmem : l.entry m it.nextIndex ∈ l.path m head (n + 1) := by
    rw [hpath]
    exact List.mem_append_right _ (List.mem_singleton_self _)
  -- each error contradicts one condition of an admissible path
  cases hf with
  | tooLong hz =>
      have := h.ttl hdone
      have := hadm.length_le
      rw [hz, UInt16.toNat_zero] at *
      omega
  | indexOutOfRange _ hge =>
      rw [h.layout] at hge
      omega
  | mem _ _ he =>
      rw [hread] at he
      cases he
  | indirect _ _ hd hi =>
      obtain rfl := Except.ok.inj (hread.symm.trans hd)
      rw [hadm.direct _ hmem] at hi
      cases hi
  | tooManyBytes _ _ hd _ hge =>
      obtain rfl := Except.ok.inj (hread.symm.trans hd)
      have hbytes := hadm.bytes_lt
      rw [hpath, totalLen_append, totalLen_cons, totalLen_nil, ← h.bytes] at hbytes
      omega
  | readableAfterWritable _ _ hd _ _ hw hs =>
      obtain rfl := Except.ok.inj (hread.symm.trans hd)
      obtain ⟨e, he, hwrite⟩ := h.seen.mp hs
      have hord := hadm.ordered
      rw [hpath] at hord
      have := (List.pairwise_append.mp hord).2.2 e he _ (List.mem_singleton_self _) hwrite
      rw [hw] at this
      cases this

/-- A walk ends at a position of the path: where the path ends, or where one
call reports the error. -/
theorem walks (h : At l m head n it) (htable : l.descTable + 16 * l.qs ≤ m.len)
    {ds : List Descriptor} {e : Option ChainError} (hw : it.Walks ds e) :
    ∃ k it', l.path m head k = l.path m head n ++ ds ∧ At l m head k it' ∧
      (e = none → it'.done = true) ∧
      ∀ e', e = some e' → it'.done = false ∧ it'.Fails e' := by
  induction hw generalizing n with
  | stop hdone => exact ⟨n, _, (List.append_nil _).symm, h, fun _ => hdone, by simp⟩
  | fail hdone hf =>
      refine ⟨n, _, (List.append_nil _).symm, h, by simp, fun e' he' => ?_⟩
      rw [← Option.some.inj he']
      exact ⟨hdone, hf⟩
  | yield hdone hy _ ih =>
      obtain ⟨hpath, h'⟩ := h.yield htable hdone hy
      obtain ⟨k, it', hk, hat, hnone, hsome⟩ := ih h'
      refine ⟨k, it', ?_, hat, hnone, hsome⟩
      rw [hk, hpath, List.append_assoc]
      rfl

end At

/-! ### Another region with the same table -/

/-- The iterator over another region. -/
def withMem (it : ChainIter) (m : SharedMem) : ChainIter := { it with mem := m }

/-- The two regions hold the same table. -/
structure SameTable (l : VirtqLayout) (m m' : SharedMem) : Prop where
  le : l.descTable + 16 * l.qs ≤ m.len
  le' : l.descTable + 16 * l.qs ≤ m'.len
  same : SharedMem.SameOn m' m l.descTable (l.descTable + 16 * l.qs)

theorem SameTable.read {m' : SharedMem} (h : SameTable it.layout it.mem m')
    (hlt : it.nextIndex.toNat < it.layout.qs) :
    ∃ d, readDescriptor it.mem it.addr = .ok d ∧ readDescriptor m' it.addr = .ok d := by
  have hle := h.le
  have hle' := h.le'
  refine ⟨_, readDescriptor_ok (by rw [addr]; omega), ?_⟩
  rw [readDescriptor_ok (by rw [addr]; omega),
    (h.same.mono (by rw [addr]; omega) (by rw [addr]; omega)).descAt_eq]

theorem Yields.withMem {m' : SharedMem} (h : SameTable it.layout it.mem m') {d : Descriptor}
    (hy : it.Yields d) : (it.withMem m').Yields d := by
  obtain ⟨d', hd, hd'⟩ := h.read hy.index_lt
  obtain rfl := Except.ok.inj (hd.symm.trans hy.read)
  exact ⟨hy.ttl_ne, hy.index_lt, hd', hy.direct, hy.bytes_lt, hy.ordered⟩

theorem Fails.withMem {m' : SharedMem} (h : SameTable it.layout it.mem m') {e : ChainError}
    (hf : it.Fails e) : (it.withMem m').Fails e := by
  cases hf with
  | tooLong hz => exact .tooLong hz
  | indexOutOfRange hz hge => exact .indexOutOfRange hz hge
  | mem _ hlt he =>
      obtain ⟨d', hd, -⟩ := h.read hlt
      rw [hd] at he
      cases he
  | indirect hz hlt hread hi =>
      obtain ⟨d', hd, hd'⟩ := h.read hlt
      obtain rfl := Except.ok.inj (hd.symm.trans hread)
      exact .indirect hz hlt hd' hi
  | tooManyBytes hz hlt hread hi hge =>
      obtain ⟨d', hd, hd'⟩ := h.read hlt
      obtain rfl := Except.ok.inj (hd.symm.trans hread)
      exact .tooManyBytes hz hlt hd' hi hge
  | readableAfterWritable hz hlt hread hi hb hw hs =>
      obtain ⟨d', hd, hd'⟩ := h.read hlt
      obtain rfl := Except.ok.inj (hd.symm.trans hread)
      exact .readableAfterWritable hz hlt hd' hi hb hw hs

/-- A walk reads nothing but the table. -/
theorem Walks.withMem {m' : SharedMem} {ds : List Descriptor} {e : Option ChainError}
    (hw : it.Walks ds e) (h : SameTable it.layout it.mem m') : (it.withMem m').Walks ds e := by
  induction hw with
  | stop hdone => exact .stop hdone
  | fail hdone hf => exact .fail hdone (hf.withMem h)
  | yield hdone hy _ ih => exact .yield hdone (hy.withMem h) (ih h)

/-! ### Calling it forever -/

/-- The call of `next` after `i` earlier ones. -/
def nth : ℕ → ChainIter →
    Except (Fault MemError) (Option (Except ChainError Descriptor) × ChainIter)
  | 0, it => it.next
  | i + 1, it => do
      let r ← it.next
      r.2.nth i

/-- The calls return these items one by one, and then nothing forever. -/
def Returns (it : ChainIter) (items : List (Except ChainError Descriptor)) : Prop :=
  ∀ i, ∃ it', it.nth i = .ok (items[i]?, it')

theorem nth_succ {r : Option (Except ChainError Descriptor)} {it' : ChainIter}
    (h : it.next = .ok (r, it')) (i : ℕ) : it.nth (i + 1) = it'.nth i := by
  rw [nth, h]
  rfl

theorem Returns.cons {r : Except ChainError Descriptor} {it' : ChainIter}
    {items : List (Except ChainError Descriptor)} (h : it.next = .ok (some r, it'))
    (h' : it'.Returns items) : it.Returns (r :: items) := by
  intro i
  rcases i with - | i
  · exact ⟨it', h⟩
  · rw [nth_succ h]
    exact h' i

theorem next_of_done (h : it.done = true) : it.next = .ok (none, it) := if_pos h

theorem returns_of_done (h : it.done = true) : it.Returns [] := by
  intro i
  induction i with
  | zero => exact ⟨it, next_of_done h⟩
  | succ i ih =>
      rw [nth_succ (next_of_done h)]
      exact ih

/-- What a walk says about the calls. -/
theorem Walks.returns {ds : List Descriptor} {e : Option ChainError} (hw : it.Walks ds e) :
    it.Returns (ds.map .ok ++ e.toList.map .error) := by
  induction hw with
  | stop hdone => exact returns_of_done hdone
  | @fail it e hdone hf =>
      obtain ⟨r, hr, hspec⟩ := it.next_spec
      cases hspec with
      | stop hd => simp [hdone] at hd
      | fail _ hf' hd' =>
          obtain rfl := hf.unique hf'
          exact .cons hr (returns_of_done hd')
      | yield _ hy => exact absurd hy hf.not_yields
  | @yield it d ds e hdone hy _ ih =>
      obtain ⟨r, hr, hspec⟩ := it.next_spec
      cases hspec with
      | stop hd => simp [hdone] at hd
      | fail _ hf => exact absurd hy hf.not_yields
      | yield _ hy' =>
          obtain rfl := hy.unique hy'
          exact .cons hr ih

end ChainIter

/-! ### What is accepted -/

namespace VirtqLayout

variable {l : VirtqLayout} {m : SharedMem} {head : UInt16} {n : ℕ}

/-- The path has `n` descriptors, and all of them satisfy the conditions. -/
structure WellFormed (l : VirtqLayout) (m : SharedMem) (head : UInt16) (n : ℕ) : Prop where
  pos : 1 ≤ n
  ends : l.pathIndex m head n = none
  admits : l.Admits m head n

theorem Admits.length_path (h : l.Admits m head n) : (l.path m head n).length = n := by
  induction n with
  | zero => rfl
  | succ n ih =>
      obtain ⟨j, hj, -⟩ := h.inTable n (Nat.lt_succ_self n)
      rw [path_succ hj, List.length_append, ih (h.mono (Nat.le_succ n)), List.length_singleton]

/-- The path visits no index twice. -/
def Acyclic (l : VirtqLayout) (m : SharedMem) (head : UInt16) : Prop :=
  ∀ i j a, i < j → l.pathIndex m head i = some a → l.pathIndex m head j ≠ some a

/-- An acyclic path inside the table ends, after at most as many descriptors as
there are. -/
theorem Acyclic.ends (h : l.Acyclic m head)
    (htable : ∀ i j, l.pathIndex m head i = some j → j.toNat < l.qs) :
    l.pathIndex m head l.qs = none := by
  by_contra hsome
  obtain ⟨i, j, a, hij, -, hi, hj⟩ := exists_revisit (Nat.lt_succ_self l.qs) fun i hi => by
    obtain ⟨b, hb⟩ := Chase.exists_node_of_le hsome (Nat.lt_succ_iff.mp hi)
    exact ⟨b, hb, htable i b hb⟩
  exact h i j a hij hi hj

end VirtqLayout

namespace ChainIter

variable {l : VirtqLayout} {m : SharedMem} {head : UInt16} {n : ℕ}

/-- Where the walk from `head` ends: at the end of the longest prefix of the path
that satisfies the conditions. -/
structure EndsAt (l : VirtqLayout) (m : SharedMem) (head : UInt16) (n : ℕ) (it : ChainIter)
    (err : Option ChainError) : Prop where
  walks : (ChainIter.new m l head).Walks (l.path m head n) err
  at_ : At l m head n it
  longest : ∀ k, l.Admits m head k → k ≤ n
  finished : err = none → it.done = true
  failed : ∀ e, err = some e → it.done = false ∧ it.Fails e

theorem exists_endsAt (htable : l.descTable + 16 * l.qs ≤ m.len) (head : UInt16) :
    ∃ n it err, EndsAt l m head n it err := by
  obtain ⟨ds, err, -, hw⟩ := @collect_walks _ (ChainIter.new m l head) (Nat.lt_succ_self _)
  obtain ⟨n, it, hpath, hat, hnone, hsome⟩ := (at_new l m head).walks htable hw
  obtain rfl : l.path m head n = ds := hpath
  refine ⟨n, it, err, hw, hat, fun k hk => ?_, hnone, hsome⟩
  by_contra hlt
  have hk' : l.Admits m head (n + 1) := hk.mono (Nat.lt_of_not_le hlt)
  rcases err with - | e
  · obtain ⟨j, hj, -⟩ := hk'.inTable n (Nat.lt_succ_self n)
    rw [hat.ended (hnone rfl)] at hj
    cases hj
  · obtain ⟨hdone, hf⟩ := hsome e rfl
    exact hat.not_admits htable hdone hf hk'

/-- The walk ends without an error exactly if the path is well formed. -/
theorem EndsAt.eq_none_iff {it : ChainIter} {err : Option ChainError}
    (h : EndsAt l m head n it err) : err = none ↔ ∃ k, l.WellFormed m head k := by
  constructor
  · intro he
    have hend := h.at_.ended (h.finished he)
    refine ⟨n, ?_, hend, h.at_.admits⟩
    by_contra hz
    obtain rfl : n = 0 := by omega
    cases hend
  · rintro ⟨k, -, hend, hadm⟩
    obtain rfl := hadm.eq_of_ends hend h.at_.admits h.longest
    rcases err with - | e
    · rfl
    · obtain ⟨hdone, -⟩ := h.failed e rfl
      rw [h.at_.index hdone] at hend
      cases hend

/-- The ttl runs out after as many descriptors as the table has. -/
theorem EndsAt.of_tooLong {it : ChainIter} {limit : UInt16}
    (h : EndsAt l m head n it (some (.tooLong limit))) :
    n = l.qs ∧ ∃ j, l.pathIndex m head l.qs = some j := by
  obtain ⟨hdone, hf⟩ := h.failed _ rfl
  cases hf with
  | tooLong hz =>
      have httl := h.at_.ttl hdone
      have hindex := h.at_.index hdone
      rw [hz, UInt16.toNat_zero, Nat.zero_add] at httl
      rw [httl] at hindex
      exact ⟨httl, _, hindex⟩

end ChainIter

open VirtqLayout in
/-- For every head over every region that covers the table: the calls of `next`
return the descriptors of the longest prefix of the path that satisfies the
conditions, then one error unless the whole path does, and then nothing
forever. -/
theorem chain_accepts_exactly (l : VirtqLayout) (m : SharedMem) (head : UInt16)
    (htable : l.descTable + 16 * l.qs ≤ m.len) :
    ∃ n err,
      (ChainIter.new m l head).Returns ((l.path m head n).map .ok ++ err.toList.map .error) ∧
      -- the longest prefix, of `n` descriptors
      (l.path m head n).length = n ∧ l.Admits m head n ∧ (∀ k, l.Admits m head k → k ≤ n) ∧
      n + err.toList.length ≤ l.qs + 1 ∧
      -- no error exactly if the path is well formed, and then all of it is returned
      (err = none ↔ ∃ k, l.WellFormed m head k) ∧ (∀ k, l.WellFormed m head k → k = n) ∧
      -- nothing but the table is read
      (∀ m', l.descTable + 16 * l.qs ≤ m'.len →
        SharedMem.SameOn m' m l.descTable (l.descTable + 16 * l.qs) →
        (ChainIter.new m' l head).Returns
          ((l.path m head n).map .ok ++ err.toList.map .error)) ∧
      -- the ttl stops no acyclic path inside the table
      (l.Acyclic m head → (∀ i j, l.pathIndex m head i = some j → j.toNat < l.qs) →
        (∃ k ≤ l.qs, l.pathIndex m head k = none) ∧ ∀ limit, err ≠ some (.tooLong limit)) := by
  obtain ⟨n, it, err, h⟩ := ChainIter.exists_endsAt htable head
  refine ⟨n, err, h.walks.returns, h.at_.admits.length_path, h.at_.admits, h.longest, ?_,
    h.eq_none_iff, ?_, ?_, ?_⟩
  · have hle := h.at_.admits.length_le
    rcases err with - | e
    · exact Nat.le_succ_of_le hle
    · exact Nat.succ_le_succ hle
  · exact fun k hk => hk.admits.eq_of_ends hk.ends h.at_.admits h.longest
  · intro m' hle hsame
    have hw := @ChainIter.Walks.withMem _ m' _ _ h.walks ⟨htable, hle, hsame⟩
    exact hw.returns
  · intro hac hin
    have hend := hac.ends hin
    refine ⟨⟨l.qs, le_rfl, hend⟩, ?_⟩
    rintro limit rfl
    obtain ⟨-, j, hj⟩ := h.of_tooLong
    rw [hend] at hj
    cases hj

/-- A table of one descriptor, whose `next` is far outside. -/
def escaping : SharedMem :=
  (SharedMem.new 40 (by decide)).put 12 (Bytes.toLe 2 1 ++ Bytes.toLe 2 60000)

theorem chain_accepts_exactly_escaping :
    (ChainIter.new escaping unitQueue 0).Returns [.ok ⟨0, 0, 1, 60000⟩, .error (.tooLong 1)] ∧
      unitQueue.Admits escaping 0 1 ∧ (∀ k, unitQueue.Admits escaping 0 k → k ≤ 1) ∧
      ¬ ∃ k, unitQueue.WellFormed escaping 0 k := by
  obtain ⟨n, err, hret, hlen, hadmits, hlongest, -, hnone, -⟩ :=
    chain_accepts_exactly unitQueue escaping 0 (by decide)
  obtain ⟨it, hnth⟩ : ∃ it, (ChainIter.new escaping unitQueue 0).nth 1 =
      .ok (some (.error (.tooLong 1)), it) := ⟨_, rfl⟩
  obtain ⟨_, hsecond⟩ := hret 1
  -- the second item is evaluated, and pins the error of the theorem
  have hitem := (Prod.mk.inj (Except.ok.inj (hsecond.symm.trans hnth))).1
  have hpath : unitQueue.path escaping 0 1 = [⟨0, 0, 1, 60000⟩] := by decide +kernel
  have hone : unitQueue.Admits escaping 0 1 :=
    { length_le := le_rfl
      inTable := fun i hi => ⟨0, by rw [Nat.lt_one_iff.mp hi]; rfl, by decide⟩
      direct := by rw [hpath]; decide
      bytes_lt := by rw [hpath]; decide
      ordered := by rw [hpath]; exact List.pairwise_singleton _ _ }
  have hle := hlongest 1 hone
  have hn : n = 1 := by
    have := hadmits.length_le
    have : unitQueue.qs = 1 := rfl
    omega
  subst hn
  rw [hpath] at hret hitem
  rcases err with - | e
  · cases hitem
  · obtain rfl : e = .tooLong 1 := by simpa using hitem
    exact ⟨hret, hadmits, hlongest, fun hw => by cases hnone.mpr hw⟩

end SystemsStudy
