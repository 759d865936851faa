/-
SystemsStudy/Lib/Bytes.lean

Lists used as flat storage: reading a range, overwriting a range in place,
and the little-endian value of a byte string.

`overwrite l a d` puts `d` over the elements of `l` from position `a` on.  It
never changes the length, so a part of `d` that would stick out past the end
of `l` is dropped; every use below is under a bound that rules this out.

The two facts a proof about storage needs are that a range just written reads
back (`slice_overwrite_self`) and that an element outside it is not affected
(`getElem?_overwrite_of_not_mem`).  Both come from one pointwise description,
`getElem?_overwrite`.
-/
import Mathlib.Tactic

namespace Bytes

variable {α : Type*}

/-! ### Ranges of a list -/

/-- The `n` elements of `l` from position `a` on. -/
def slice (l : List α) (a n : ℕ) : List α := (l.drop a).take n

theorem getElem?_slice (l : List α) (a n j : ℕ) :
    (slice l a n)[j]? = if j < n then l[a + j]? else none := by
  simp [slice, List.getElem?_take, List.getElem?_drop]

theorem length_slice {l : List α} {a n : ℕ} (h : a + n ≤ l.length) :
    (slice l a n).length = n := by
  simp only [slice, List.length_take, List.length_drop]
  omega

/-- A range depends only on the elements it covers. -/
theorem slice_congr {l l' : List α} {a n : ℕ}
    (h : ∀ i, a ≤ i → i < a + n → l[i]? = l'[i]?) : slice l a n = slice l' a n := by
  apply List.ext_getElem?
  intro j
  rw [getElem?_slice, getElem?_slice]
  split
  · exact h _ (by omega) (by omega)
  · rfl

/-- A range in two parts. -/
theorem slice_add (l : List α) (a n k : ℕ) :
    slice l a (n + k) = slice l a n ++ slice l (a + n) k := by
  rw [slice, slice, slice, List.take_add, List.drop_drop]

/-! ### Overwriting in place -/

/-- `l` with `d` written over the elements from position `a` on. -/
def overwrite : List α → ℕ → List α → List α
  | [], _, _ => []
  | x :: xs, 0, [] => x :: xs
  | _ :: xs, 0, d :: ds => d :: overwrite xs 0 ds
  | x :: xs, a + 1, ds => x :: overwrite xs a ds

@[simp] theorem length_overwrite (l : List α) (a : ℕ) (d : List α) :
    (overwrite l a d).length = l.length := by
  fun_induction overwrite l a d <;> simp_all

theorem getElem?_overwrite (l : List α) (a : ℕ) (d : List α) (i : ℕ) :
    (overwrite l a d)[i]? =
      if a ≤ i ∧ i < a + d.length ∧ i < l.length then d[i - a]? else l[i]? := by
  fun_induction overwrite l a d generalizing i with
  | case1 => simp
  | case2 => simp
  | case3 x xs d ds ih =>
      rcases i with - | i
      · simp
      · simp [ih]
  | case4 x xs a ds ih =>
      rcases i with - | i
      · simp
      · simp only [List.getElem?_cons_succ, ih, List.length_cons, Nat.succ_eq_add_one,
          Nat.add_sub_add_right, Nat.add_le_add_iff_right, Nat.add_lt_add_iff_right,
          show a + 1 + ds.length = a + ds.length + 1 by omega]

theorem getElem?_overwrite_of_not_mem {l : List α} {a : ℕ} {d : List α} {i : ℕ}
    (h : i < a ∨ a + d.length ≤ i) : (overwrite l a d)[i]? = l[i]? := by
  rw [getElem?_overwrite, if_neg (by omega)]

/-- A range just written reads back. -/
theorem slice_overwrite_self {l : List α} {a : ℕ} {d : List α}
    (h : a + d.length ≤ l.length) : slice (overwrite l a d) a d.length = d := by
  apply List.ext_getElem?
  intro j
  rw [getElem?_slice]
  split
  · rw [getElem?_overwrite, if_pos (by omega), Nat.add_sub_cancel_left]
  · rw [List.getElem?_eq_none (by omega)]

/-- A range of which the front was written. -/
theorem slice_overwrite_front {l : List α} {a n : ℕ} {d : List α} (hd : d.length ≤ n)
    (h : a + n ≤ l.length) :
    slice (overwrite l a d) a n = d ++ (slice l a n).drop d.length := by
  apply List.ext_getElem?
  intro j
  rw [getElem?_slice, getElem?_overwrite, List.getElem?_append, List.getElem?_drop, getElem?_slice]
  rcases Nat.lt_or_ge j d.length with hj | hj
  · rw [if_pos (by omega), if_pos (by omega), if_pos hj, Nat.add_sub_cancel_left]
  · rw [if_neg (show ¬ (a ≤ a + j ∧ a + j < a + d.length ∧ a + j < l.length) by omega),
      if_neg (Nat.not_lt.mpr hj), Nat.add_sub_cancel' hj]

/-- Laying `r` over `b ++ c` from the front: over `b` first, and what is left of
it over `c`. -/
theorem lay_append (r b c : List α) (n : ℕ) :
    (r.take (min b.length r.length) ++ b.drop (min b.length r.length)) ++
        ((r.drop (min b.length r.length)).take n ++ c.drop (r.length - min b.length r.length)) =
      r.take (b.length + n) ++ (b ++ c).drop r.length := by
  rw [List.drop_append]
  rcases le_total b.length r.length with h | h
  · rw [min_eq_left h, List.drop_length, List.append_nil, List.take_add,
      List.drop_eq_nil_of_le h, List.nil_append, List.append_assoc]
  · rw [min_eq_right h, List.take_length, List.drop_length, List.take_nil, List.nil_append,
      Nat.sub_self, Nat.sub_eq_zero_of_le h, List.take_of_length_le (by omega),
      List.append_assoc]

/-! ### Several writes -/

/-- `l` with several strings written over it, one after the other. -/
def overwriteAll (l : List α) (st : List (ℕ × List α)) : List α :=
  st.foldl (fun l s => overwrite l s.1 s.2) l

@[simp] theorem overwriteAll_nil (l : List α) : overwriteAll l [] = l := rfl

@[simp] theorem overwriteAll_cons (l : List α) (s : ℕ × List α) (st : List (ℕ × List α)) :
    overwriteAll l (s :: st) = overwriteAll (overwrite l s.1 s.2) st := rfl

@[simp] theorem length_overwriteAll (l : List α) (st : List (ℕ × List α)) :
    (overwriteAll l st).length = l.length := by
  induction st generalizing l with
  | nil => rfl
  | cons s st ih => rw [overwriteAll_cons, ih, length_overwrite]

theorem getElem?_overwriteAll_of_not_mem {l : List α} {st : List (ℕ × List α)} {i : ℕ}
    (h : ∀ s ∈ st, i < s.1 ∨ s.1 + s.2.length ≤ i) : (overwriteAll l st)[i]? = l[i]? := by
  induction st generalizing l with
  | nil => rfl
  | cons s st ih =>
      rw [overwriteAll_cons, ih fun s' hs' => h s' (List.mem_cons_of_mem _ hs'),
        getElem?_overwrite_of_not_mem (h s List.mem_cons_self)]

/-- Where two lists agree, they agree after the same writes. -/
theorem getElem?_overwriteAll_congr {l l' : List α} (hlen : l.length = l'.length)
    (st : List (ℕ × List α)) {i : ℕ} (h : l[i]? = l'[i]?) :
    (overwriteAll l st)[i]? = (overwriteAll l' st)[i]? := by
  induction st generalizing l l' with
  | nil => exact h
  | cons s st ih =>
      refine ih (by simpa using hlen) ?_
      rw [getElem?_overwrite, getElem?_overwrite, hlen, h]

/-- Where something was written, two lists of one length agree. -/
theorem getElem?_overwriteAll_of_mem {l l' : List α} (hlen : l.length = l'.length)
    {st : List (ℕ × List α)} {s : ℕ × List α} (hs : s ∈ st) {i : ℕ} (hlo : s.1 ≤ i)
    (hhi : i < s.1 + s.2.length) : (overwriteAll l st)[i]? = (overwriteAll l' st)[i]? := by
  induction st generalizing l l' with
  | nil => cases hs
  | cons s' st ih =>
      rcases List.mem_cons.mp hs with rfl | hs
      · refine getElem?_overwriteAll_congr (by simpa using hlen) st ?_
        rw [getElem?_overwrite, getElem?_overwrite, hlen]
        split
        · rfl
        · rw [List.getElem?_eq_none (by omega), List.getElem?_eq_none (by omega)]
      · exact ih (by simpa using hlen) hs

/-! ### Little-endian byte strings -/

/-- The `n` low bytes of `v`, least significant first. -/
def toLe : ℕ → ℕ → List UInt8
  | 0, _ => []
  | n + 1, v => UInt8.ofNat v :: toLe n (v / 256)

/-- The number a byte string spells, least significant byte first. -/
def fromLe : List UInt8 → ℕ
  | [] => 0
  | b :: bs => b.toNat + 256 * fromLe bs

@[simp] theorem length_toLe (n v : ℕ) : (toLe n v).length = n := by
  induction n generalizing v with
  | zero => rfl
  | succ n ih => simp [toLe, ih]

/-- Decoding an encoded number gives it back up to the width. -/
theorem fromLe_toLe (n v : ℕ) : fromLe (toLe n v) = v % 256 ^ n := by
  induction n generalizing v with
  | zero => simp [toLe, fromLe, Nat.mod_one]
  | succ n ih =>
      have hbyte : (UInt8.ofNat v).toNat = v % 256 := by simp
      rw [toLe, fromLe, ih, hbyte, pow_succ', Nat.mod_mul]

theorem fromLe_toLe_of_lt {n v : ℕ} (h : v < 256 ^ n) : fromLe (toLe n v) = v := by
  rw [fromLe_toLe, Nat.mod_eq_of_lt h]

theorem fromLe_lt (d : List UInt8) : fromLe d < 256 ^ d.length := by
  induction d with
  | nil => exact Nat.one_pos
  | cons b d ih =>
      have hb : b.toNat < 256 := UInt8.toNat_lt b
      rw [fromLe, List.length_cons, pow_succ]
      omega

/-- A number is encoded by the string that spells it. -/
theorem toLe_fromLe (d : List UInt8) : toLe d.length (fromLe d) = d := by
  induction d with
  | nil => rfl
  | cons b d ih =>
      have hb : b.toNat < 256 := UInt8.toNat_lt b
      have hhigh : (b.toNat + 256 * fromLe d) / 256 = fromLe d := by omega
      have hlow : UInt8.ofNat (b.toNat + 256 * fromLe d) = b := by
        apply UInt8.toNat_inj.mp
        rw [UInt8.toNat_ofNat']
        omega
      rw [List.length_cons, fromLe, toLe, hhigh, hlow, ih]

theorem fromLe_append (d d' : List UInt8) :
    fromLe (d ++ d') = fromLe d + 256 ^ d.length * fromLe d' := by
  induction d with
  | nil => simp [fromLe]
  | cons b d ih =>
      rw [List.cons_append, fromLe, ih, fromLe, List.length_cons, pow_succ]
      ring

end Bytes
