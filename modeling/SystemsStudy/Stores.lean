/-
SystemsStudy/Stores.lean

An iteration of `Device::process` as a list of stores.

The region after an iteration is the region before it with some strings written
over it: the pieces of the response, and the used element with its index.
`scattered` lists the former.  It depends on the region only through its length,
so two regions of one length get the same stores from the same response
(`scatter_replay`).
-/
import SystemsStudy.Process

namespace SystemsStudy

open Bytes Fallible

namespace SharedMem

/-- Perform stores, each an address and the bytes that go there, in order. -/
def putAll (m : SharedMem) (st : List (ℕ × List UInt8)) : SharedMem :=
  ⟨overwriteAll m.buf st, by simpa using m.len_lt⟩

variable {m m' : SharedMem} {st st' : List (ℕ × List UInt8)} {i : ℕ}

@[simp] theorem len_putAll : (m.putAll st).len = m.len := length_overwriteAll _ _

@[simp] theorem putAll_nil : m.putAll [] = m := rfl

theorem putAll_cons (a : ℕ) (d : List UInt8) :
    m.putAll ((a, d) :: st) = (m.put a d).putAll st := rfl

theorem putAll_append : m.putAll (st ++ st') = (m.putAll st).putAll st' := by
  induction st generalizing m with
  | nil => rfl
  | cons s st ih => exact ih (m := m.put s.1 s.2)

theorem putAll_getElem? (h : ∀ s ∈ st, i < s.1 ∨ s.1 + s.2.length ≤ i) :
    (m.putAll st).buf[i]? = m.buf[i]? :=
  getElem?_overwriteAll_of_not_mem h

/-- Where two regions agree, they agree after the same stores. -/
theorem putAll_agree (hlen : m.len = m'.len) (st : List (ℕ × List UInt8))
    (h : m.buf[i]? = m'.buf[i]?) : (m.putAll st).buf[i]? = (m'.putAll st).buf[i]? :=
  getElem?_overwriteAll_congr hlen st h

/-- Where something was stored, two regions of one length agree. -/
theorem putAll_agree_of_mem (hlen : m.len = m'.len) {s : ℕ × List UInt8} (hs : s ∈ st)
    (hlo : s.1 ≤ i) (hhi : i < s.1 + s.2.length) :
    (m.putAll st).buf[i]? = (m'.putAll st).buf[i]? :=
  getElem?_overwriteAll_of_mem hlen hs hlo hhi

end SharedMem

/-! ### The stores of the scatter loop -/

/-- What the scatter loop writes over a region of `len` bytes, from `cursor` on. -/
def scattered (len : ℕ) (response : List UInt8) : List BufferRef → ℕ → List (ℕ × List UInt8)
  | [], _ => []
  | (addr, n) :: rest, cursor =>
      if cursor ≥ response.length then []
      else
        let k := min n.toNat (response.length - cursor)
        if addr.toNat + k ≤ len then
          (addr.toNat, slice response cursor k) :: scattered len response rest (cursor + k)
        else []

variable {len : ℕ} {response : List UInt8} {ws : List BufferRef} {cursor : ℕ}

theorem scattered_full (h : response.length ≤ cursor) :
    scattered len response ws cursor = [] := by
  rcases ws with - | ⟨⟨addr, n⟩, rest⟩
  · rfl
  · rw [scattered, if_pos h]

theorem scattered_cons {addr : UInt64} {n : UInt32} (h : cursor < response.length)
    (hfit : addr.toNat + min n.toNat (response.length - cursor) ≤ len) :
    scattered len response ((addr, n) :: ws) cursor =
      (addr.toNat, slice response cursor (min n.toNat (response.length - cursor))) ::
        scattered len response ws (cursor + min n.toNat (response.length - cursor)) := by
  rw [scattered, if_neg (Nat.not_le.mpr h)]
  exact if_pos hfit

theorem scattered_unfit {addr : UInt64} {n : UInt32} (h : cursor < response.length)
    (hfit : ¬ addr.toNat + min n.toNat (response.length - cursor) ≤ len) :
    scattered len response ((addr, n) :: ws) cursor = [] := by
  rw [scattered, if_neg (Nat.not_le.mpr h)]
  exact if_neg hfit

/-- As address and length these are the pieces before the first that does not
fit. -/
theorem map_scattered :
    (scattered len response ws cursor).map (fun q => (q.1, q.2.length)) =
      writtenPieces len response.length ws cursor := by
  induction ws generalizing cursor with
  | nil => rfl
  | cons b rest ih =>
      obtain ⟨addr, n⟩ := b
      rw [writtenPieces, pieces, scattered]
      split
      · rfl
      next hcur =>
        dsimp only
        split
        next hfit =>
          rw [List.takeWhile_cons_of_pos (by simpa [fits] using hfit), List.map_cons, ih,
            length_slice (by omega)]
          rfl
        next hfit =>
          rw [List.takeWhile_cons_of_neg (by simpa [fits] using hfit)]
          rfl

/-- One round of the scatter loop, as long as some of the response is left. -/
theorem scatter_cons {addr : UInt64} {n : UInt32} (h : cursor < response.length)
    (m : SharedMem) (written : UInt32) {k : ℕ} (hk : k = min n.toNat (response.length - cursor)) :
    scatter response ((addr, n) :: ws) m cursor written =
      if addr.toNat + k ≤ m.len then
        match checkedAddU32 written (UInt32.ofNat k) with
        | none => .error .panic
        | some w => scatter response ws (m.put addr.toNat (slice response cursor k)) (cursor + k) w
      else .ok (m, written, some (.outOfBounds addr.toNat k m.len)) := by
  have hindex : ¬ cursor + k > response.length := by omega
  have hslice : (slice response cursor k).length = k := length_slice (by omega)
  rw [scatter, if_neg (Nat.not_le.mpr h)]
  simp only [← hk, if_neg hindex, SharedMem.writeSlice_eq, hslice]
  by_cases hfit : addr.toNat + k ≤ m.len
  · rw [if_pos hfit]
    exact (if_pos hfit).symm
  · rw [if_neg hfit, if_neg hfit]

/-- A scatter loop that ended did so with these stores, and ends in the same way
over every region of the same length. -/
theorem scatter_replay {m m₁ : SharedMem} {written written₁ : UInt32} {err : Option MemError}
    (h : scatter response ws m cursor written = .ok (m₁, written₁, err)) :
    m₁ = m.putAll (scattered m.len response ws cursor) ∧
      ∀ m' : SharedMem, m'.len = m.len → scatter response ws m' cursor written =
        .ok (m'.putAll (scattered m.len response ws cursor), written₁, err) := by
  induction ws generalizing m cursor written with
  | nil =>
      cases h
      exact ⟨rfl, fun _ _ => rfl⟩
  | cons b rest ih =>
      obtain ⟨addr, n⟩ := b
      -- the response is used up, so the remaining buffers are not looked at
      by_cases hfull : cursor ≥ response.length
      · rw [scatter, if_pos hfull] at h
        cases h
        rw [scattered_full hfull]
        exact ⟨rfl, fun m' _ => by rw [scatter, if_pos hfull]; rfl⟩
      have hcur : cursor < response.length := Nat.lt_of_not_le hfull
      rw [scatter_cons hcur m written rfl] at h
      -- whether a store fits depends on the length of the region, which is the same
      by_cases hfit : addr.toNat + min n.toNat (response.length - cursor) ≤ m.len
      · rw [if_pos hfit] at h
        rcases hadd : checkedAddU32 written (UInt32.ofNat (min n.toNat (response.length - cursor)))
          with - | w
        · rw [hadd] at h
          cases h
        · rw [hadd] at h
          obtain ⟨hm₁, hrest⟩ := ih h
          rw [SharedMem.len_put] at hm₁ hrest
          rw [scattered_cons hcur hfit]
          refine ⟨hm₁, fun m' hm' => ?_⟩
          rw [scatter_cons hcur m' written rfl, hm', if_pos hfit, hadd]
          exact hrest _ ((SharedMem.len_put _ _ _).trans hm')
      · have hnone : scattered m.len response ((addr, n) :: rest) cursor = [] :=
          scattered_unfit hcur hfit
        rw [if_neg hfit] at h
        obtain ⟨rfl, rfl, rfl⟩ : m = m₁ ∧ written = written₁ ∧ _ = err := by simpa using h
        rw [hnone]
        refine ⟨rfl, fun m' hm' => ?_⟩
        rw [scatter_cons hcur m' written rfl, hm', if_neg hfit]
        rfl

/-! ### The bytes of the buffers -/

/-- The addresses of the bytes of the buffers, in order. -/
def addresses (bs : List BufferRef) : List ℕ :=
  bs.flatMap fun b => List.range' b.1.toNat b.2.toNat

@[simp] theorem addresses_cons (b : BufferRef) (bs : List BufferRef) :
    addresses (b :: bs) = List.range' b.1.toNat b.2.toNat ++ addresses bs := rfl

/-- How many bytes the stores write. -/
def storedLen (st : List (ℕ × List UInt8)) : ℕ := (st.map fun q => q.2.length).sum

/-- What the scatter loop counts is what it stores. -/
theorem ScatterSpec.toNat_written {m m' : SharedMem} {written : UInt32} {err : Option MemError}
    (h : ScatterSpec response ws m 0 0 m' written err) :
    written.toNat = storedLen (scattered m.len response ws 0) := by
  rw [h.count, ← map_scattered, List.map_map, UInt32.toNat_zero, Nat.zero_add]
  rfl

/-- The scatter loop fills the buffers from the front: the first bytes of the
buffers, as many as it writes, are the ones it stores to. -/
theorem mem_scattered_of_mem_take {a : ℕ}
    (h : a ∈ (addresses ws).take (storedLen (scattered len response ws cursor))) :
    ∃ q ∈ scattered len response ws cursor, q.1 ≤ a ∧ a < q.1 + q.2.length := by
  induction ws generalizing cursor with
  | nil => simp [addresses] at h
  | cons b rest ih =>
      obtain ⟨addr, n⟩ := b
      rcases Nat.lt_or_ge cursor response.length with hcur | hfull
      · set k := min n.toNat (response.length - cursor) with hk
        by_cases hfit : addr.toNat + k ≤ len
        · rw [scattered_cons hcur hfit] at h ⊢
          have hslice : (slice response cursor k).length = k := length_slice (by omega)
          have hstored : storedLen ((addr.toNat, slice response cursor k) ::
              scattered len response rest (cursor + k)) =
              k + storedLen (scattered len response rest (cursor + k)) := by
            simp [storedLen, hslice]
          rw [addresses_cons, List.take_append, ← hk, hstored, List.length_range'] at h
          dsimp only at h
          -- the loop goes on only once the buffer is full
          have hlast : k < n.toNat → storedLen (scattered len response rest (cursor + k)) = 0 := by
            intro hlt
            rw [scattered_full (by omega)]
            rfl
          rcases List.mem_append.mp h with h | h
          · refine ⟨_, List.mem_cons_self, ?_⟩
            dsimp only
            rw [hslice]
            rcases Nat.lt_or_ge k n.toNat with hlt | hge
            · rw [hlast hlt, List.take_range'_of_length_ge (by omega), List.mem_range'_1] at h
              omega
            · have h' := List.mem_range'_1.mp (List.mem_of_mem_take h)
              omega
          · rcases Nat.lt_or_ge k n.toNat with hlt | hge
            · rw [hlast hlt, show k + 0 - n.toNat = 0 by omega, List.take_zero] at h
              cases h
            · rw [show k + storedLen (scattered len response rest (cursor + k)) - n.toNat =
                storedLen (scattered len response rest (cursor + k)) by omega] at h
              obtain ⟨q, hq, hlo, hhi⟩ := ih h
              exact ⟨q, List.mem_cons_of_mem _ hq, hlo, hhi⟩
        · rw [scattered_unfit hcur hfit] at h
          simp [storedLen] at h
      · rw [scattered_full hfull] at h
        simp [storedLen] at h

end SystemsStudy
