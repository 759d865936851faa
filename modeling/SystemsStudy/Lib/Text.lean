/-
SystemsStudy/Lib/Text.lean

Text as a list of characters: trimming, cutting at a separator, and decimal
numbers.

`trim p` drops the characters of `p` from both ends, so a text and its trimmed
form differ by two strings of `p` (`exists_trim`), and more of `p` at an end
changes nothing (`trim_append_left`, `trim_append_right`).

A reader that cuts a text at a separator and does not care for blanks at the
ends of a piece does not care for blanks at the ends of the text either
(`flatMap_splitOn_trim_intercalate`).

`readNat bound` reads a number digit by digit and gives up as soon as the value
leaves the range.  Since the value only grows, this is a test of the whole
number (`readNat_eq_some`).
-/
import Mathlib.Data.List.DropRight
import Mathlib.Data.List.TakeWhile
import Mathlib.Tactic

namespace Text

variable {α β : Type*}

/-! ### Words in a text -/

/-- A word does not reach to a character that it does not have. -/
theorem infix_of_infix_cons {c : α} {w l : List α} (hc : c ∉ w) (h : w <:+: c :: l) :
    w <:+: l := by
  rcases List.infix_cons_iff.mp h with h | h
  · rcases w with - | ⟨c', w⟩
    · exact List.nil_infix
    · obtain ⟨rfl, -⟩ := List.cons_prefix_cons.mp h
      exact absurd List.mem_cons_self hc
  · exact h

/-- It lies before such a character or behind it. -/
theorem infix_of_infix_append {c : α} {w a b : List α} (hc : c ∉ w) (h : w <:+: a ++ c :: b) :
    w <:+: a ∨ w <:+: b := by
  induction a with
  | nil => exact .inr (infix_of_infix_cons hc h)
  | cons d a ih =>
      rcases List.infix_cons_iff.mp h with h | h
      · left
        obtain ⟨r, hr⟩ := h
        replace hr : w ++ r = (d :: a) ++ c :: b := hr
        rcases List.append_eq_append_iff.mp hr with ⟨e, hae, -⟩ | ⟨e, hwe, he⟩
        · exact ⟨[], e, hae.symm⟩
        · rcases e with - | ⟨c', e⟩
          · rw [hwe, List.append_nil]
          · obtain ⟨rfl, -⟩ := List.cons.inj he
            rw [hwe] at hc
            exact absurd (List.mem_append_right _ List.mem_cons_self) hc
      · rcases ih h with ha | hb
        · exact .inl (ha.trans (List.suffix_cons d a).isInfix)
        · exact .inr hb

/-! ### Trimming -/

/-- The characters that are whitespace in Unicode. -/
def isWhitespace (c : Char) : Bool :=
  decide (9 ≤ c.toNat ∧ c.toNat ≤ 13) || decide (0x2000 ≤ c.toNat ∧ c.toNat ≤ 0x200a) ||
    [0x20, 0x85, 0xa0, 0x1680, 0x2028, 0x2029, 0x202f, 0x205f, 0x3000].contains c.toNat

/-- `l` without the elements of `p` at either end. -/
def trim (p : α → Bool) (l : List α) : List α := (l.dropWhile p).rdropWhile p

section Trim

variable {p : α → Bool} {l w : List α}

theorem rdropWhile_append (hw : ∀ c ∈ w, p c) : (l ++ w).rdropWhile p = l.rdropWhile p := by
  rw [List.rdropWhile, List.reverse_append,
    List.dropWhile_append_of_pos fun c hc => hw c (List.mem_reverse.mp hc), List.rdropWhile]

/-- What is dropped at either end. -/
theorem exists_trim (p : α → Bool) (l : List α) :
    ∃ a b, (∀ c ∈ a, p c) ∧ (∀ c ∈ b, p c) ∧ l = a ++ (trim p l ++ b) := by
  refine ⟨l.takeWhile p, (l.dropWhile p).rtakeWhile p, fun c hc => List.mem_takeWhile_imp hc,
    fun c hc => List.mem_rtakeWhile_imp hc, ?_⟩
  rw [trim, List.rdropWhile_append_rtakeWhile, List.takeWhile_append_dropWhile]

theorem trim_append_left (hw : ∀ c ∈ w, p c) : trim p (w ++ l) = trim p l := by
  rw [trim, List.dropWhile_append_of_pos hw, trim]

theorem trim_append_right (hw : ∀ c ∈ w, p c) : trim p (l ++ w) = trim p l := by
  rw [trim, trim, List.dropWhile_append]
  split
  · next h =>
      rw [List.isEmpty_iff.mp h, List.dropWhile_eq_nil_iff.mpr hw]
  · exact rdropWhile_append hw

/-- A word without characters of `p` stays. -/
theorem trim_eq_self (h : ∀ c ∈ l, ¬ p c) : trim p l = l := by
  have hdrop : l.dropWhile p = l := List.dropWhile_eq_self_iff.mpr fun _ => h _ (List.getElem_mem _)
  rw [trim, hdrop]
  exact List.rdropWhile_eq_self_iff.mpr fun hl => h _ (List.getLast_mem hl)

/-- A word without characters of `p` survives the trimming. -/
theorem infix_dropWhile (hw : ∀ c ∈ w, ¬ p c) (h : w <:+: l) : w <:+: l.dropWhile p := by
  induction l with
  | nil => exact h
  | cons c l ih =>
      rw [List.dropWhile_cons]
      split
      · next hc => exact ih (infix_of_infix_cons (fun hmem => hw c hmem hc) h)
      · exact h

theorem infix_trim (hw : ∀ c ∈ w, ¬ p c) (h : w <:+: l) : w <:+: trim p l := by
  rw [trim, List.rdropWhile, ← List.reverse_infix, List.reverse_reverse]
  apply infix_dropWhile fun c hc => hw c (List.mem_reverse.mp hc)
  exact List.reverse_infix.mpr (infix_dropWhile hw h)

end Trim

/-! ### Cutting at a separator -/

/-- The parts before and after the first `sep`. -/
def splitOnce [DecidableEq α] (sep : α) : List α → Option (List α × List α)
  | [] => none
  | c :: l => if c = sep then some ([], l) else (splitOnce sep l).map fun p => (c :: p.1, p.2)

section Split

variable [DecidableEq α] {sep : α}

theorem splitOnce_of_not_mem {l : List α} (h : sep ∉ l) : splitOnce sep l = none := by
  induction l with
  | nil => rfl
  | cons c l ih =>
      rw [List.mem_cons, not_or] at h
      obtain ⟨hne, hl⟩ := h
      rw [splitOnce, if_neg (Ne.symm hne), ih hl]
      rfl

theorem splitOnce_append {a : List α} (h : sep ∉ a) (b : List α) :
    splitOnce sep (a ++ sep :: b) = some (a, b) := by
  induction a with
  | nil => exact if_pos rfl
  | cons c a ih =>
      rw [List.mem_cons, not_or] at h
      obtain ⟨hne, ha⟩ := h
      rw [List.cons_append, splitOnce, if_neg (Ne.symm hne), ih ha]
      rfl

/-- A text has no separator, or it is cut at the first one. -/
theorem splitOnce_cases (sep : α) (l : List α) :
    sep ∉ l ∧ splitOnce sep l = none ∨
      ∃ a b, sep ∉ a ∧ l = a ++ sep :: b ∧ splitOnce sep l = some (a, b) := by
  by_cases h : sep ∈ l
  · right
    obtain ⟨a, b, hl, ha⟩ := List.eq_append_cons_of_mem h
    exact ⟨a, b, ha, hl, by rw [hl, splitOnce_append ha]⟩
  · exact .inl ⟨h, splitOnce_of_not_mem h⟩

theorem not_mem_of_mem_splitOn {l t : List α} (ht : t ∈ l.splitOn sep) : sep ∉ t := by
  induction l generalizing t with
  | nil =>
      rw [List.splitOn_nil, List.mem_singleton] at ht
      rw [ht]
      exact List.not_mem_nil
  | cons c l ih =>
      rw [List.splitOn_cons_eq_if_modifyHead] at ht
      split at ht
      · rcases List.mem_cons.mp ht with rfl | ht
        · exact List.not_mem_nil
        · exact ih ht
      · next hne =>
          obtain ⟨a, as, has⟩ := List.exists_cons_of_ne_nil (List.splitOn_ne_nil sep l)
          rw [has, List.modifyHead_cons] at ht
          rw [has] at ih
          rcases List.mem_cons.mp ht with rfl | ht
          · exact List.not_mem_cons_of_ne_of_not_mem (fun h => hne (beq_iff_eq.mpr h.symm))
              (ih List.mem_cons_self)
          · exact ih (List.mem_cons_of_mem _ ht)

theorem splitOn_append_left {w : List α} (hw : sep ∉ w) (l : List α) :
    (w ++ l).splitOn sep = (l.splitOn sep).modifyHead (w ++ ·) := by
  induction w with
  | nil => exact (congrFun List.modifyHead_id _).symm
  | cons c w ih =>
      rw [List.mem_cons, not_or] at hw
      obtain ⟨hne, hw⟩ := hw
      rw [List.cons_append, List.splitOn_cons_eq_if_modifyHead,
        if_neg (fun h => hne (beq_iff_eq.mp h).symm), ih hw, List.modifyHead_modifyHead]
      rfl

/-! ### Reading piece by piece

`f` reads a piece, and blanks at its ends make no difference. -/

variable {p : α → Bool} {f : List α → List β}

/-- Blanks before the text. -/
theorem flatMap_splitOn_append_left (hf : ∀ w t, (∀ c ∈ w, p c) → f (w ++ t) = f t)
    (hsep : ¬ p sep) {w : List α} (hw : ∀ c ∈ w, p c) (l : List α) :
    ((w ++ l).splitOn sep).flatMap f = (l.splitOn sep).flatMap f := by
  obtain ⟨t, ts, hts⟩ := List.exists_cons_of_ne_nil (List.splitOn_ne_nil sep l)
  rw [splitOn_append_left fun h => hsep (hw sep h), hts, List.modifyHead_cons, List.flatMap_cons,
    List.flatMap_cons, hf w t hw]

/-- Blanks behind the text of several pieces. -/
theorem flatMap_splitOn_append_right (hf : ∀ t w, (∀ c ∈ w, p c) → f (t ++ w) = f t)
    (hsep : ¬ p sep) {ts : List (List α)} (hts : ∀ t ∈ ts, sep ∉ t) (hne : ts ≠ [])
    {w : List α} (hw : ∀ c ∈ w, p c) :
    (([sep].intercalate ts ++ w).splitOn sep).flatMap f = ts.flatMap f := by
  have hsepw : sep ∉ w := fun h => hsep (hw sep h)
  induction ts with
  | nil => exact absurd rfl hne
  | cons t ts ih =>
      have ht : sep ∉ t := hts t List.mem_cons_self
      rcases ts with - | ⟨t', ts⟩
      · have htw : sep ∉ t ++ w := List.not_mem_append ht hsepw
        rw [List.intercalate_singleton, List.splitOn_eq_singleton htw, List.flatMap_singleton,
          List.flatMap_singleton, hf t w hw]
      · rw [List.intercalate_cons_cons, List.append_assoc, List.append_assoc, List.singleton_append,
          List.splitOn_append_cons_self_of_not_mem ht, List.flatMap_cons, List.flatMap_cons,
          ih (fun u hu => hts u (List.mem_cons_of_mem _ hu)) (List.cons_ne_nil _ _)]

theorem flatMap_splitOn_trim (hleft : ∀ w t, (∀ c ∈ w, p c) → f (w ++ t) = f t)
    (hright : ∀ t w, (∀ c ∈ w, p c) → f (t ++ w) = f t) (hsep : ¬ p sep) (l : List α) :
    ((trim p l).splitOn sep).flatMap f = (l.splitOn sep).flatMap f := by
  obtain ⟨a, b, ha, hb, hl⟩ := exists_trim p l
  have hmid := flatMap_splitOn_append_right hright hsep
    (fun t ht => not_mem_of_mem_splitOn ht) (List.splitOn_ne_nil sep (trim p l)) hb
  rw [List.intercalate_splitOn] at hmid
  conv_rhs => rw [hl]
  rw [flatMap_splitOn_append_left hleft hsep ha, hmid]

/-- The pieces of a text that has blanks at both ends. -/
theorem flatMap_splitOn_trim_intercalate (hleft : ∀ w t, (∀ c ∈ w, p c) → f (w ++ t) = f t)
    (hright : ∀ t w, (∀ c ∈ w, p c) → f (t ++ w) = f t) (hnil : f [] = []) (hsep : ¬ p sep)
    {ts : List (List α)} (hts : ∀ t ∈ ts, sep ∉ t) {a b : List α} (ha : ∀ c ∈ a, p c)
    (hb : ∀ c ∈ b, p c) :
    ((trim p (a ++ ([sep].intercalate ts ++ b))).splitOn sep).flatMap f = ts.flatMap f := by
  rw [flatMap_splitOn_trim hleft hright hsep, flatMap_splitOn_append_left hleft hsep ha]
  rcases eq_or_ne ts [] with rfl | hne
  · have hb' : sep ∉ b := fun h => hsep (hb sep h)
    rw [List.intercalate_nil, List.nil_append, List.splitOn_eq_singleton hb',
      List.flatMap_singleton, ← List.nil_append b, hright [] b hb, hnil]
    rfl
  · exact flatMap_splitOn_append_right hright hsep hts hne hb

end Split

/-! ### Decimal numbers -/

/-- `ds` is a numeral with the value `n`. -/
structure Numeral (ds : List Char) (n : ℕ) : Prop where
  ne_nil : ds ≠ []
  isDigit : ∀ c ∈ ds, c.isDigit
  value : Nat.ofDigitChars 10 ds 0 = n

theorem numeral_toDigits (n : ℕ) : Numeral (Nat.toDigits 10 n) n where
  ne_nil := List.ne_nil_of_length_pos Nat.length_toDigits_pos
  isDigit _ hc := Nat.isDigit_of_mem_toDigits (by decide) (by decide) hc
  value := Nat.ofDigitChars_ten_toDigits

/-- One more digit of a number below `bound`. -/
def pushDigit (bound v : ℕ) (c : Char) : Option ℕ :=
  if c.isDigit ∧ 10 * v + (c.toNat - 48) < bound then some (10 * v + (c.toNat - 48)) else none

/-- The number below `bound` that a string of digits spells. -/
def readNat (bound : ℕ) (ds : List Char) : Option ℕ := ds.foldlM (pushDigit bound) 0

theorem le_ofDigitChars (ds : List Char) (v : ℕ) : v ≤ Nat.ofDigitChars 10 ds v := by
  induction ds generalizing v with
  | nil => exact Nat.ofDigitChars_nil.ge
  | cons c ds ih =>
      rw [Nat.ofDigitChars_cons]
      have h := ih (10 * v + (c.toNat - '0'.toNat))
      omega

/-- A number is at least every part of it. -/
theorem ofDigitChars_le_append (a ds b : List Char) :
    Nat.ofDigitChars 10 ds 0 ≤ Nat.ofDigitChars 10 (a ++ (ds ++ b)) 0 := by
  rw [Nat.ofDigitChars_append, Nat.ofDigitChars_append]
  calc
    Nat.ofDigitChars 10 ds 0 ≤ Nat.ofDigitChars 10 ds (Nat.ofDigitChars 10 a 0) := by
      conv_rhs => rw [Nat.ofDigitChars_eq_ofDigitChars_zero]
      exact Nat.le_add_left _ _
    _ ≤ _ := le_ofDigitChars b _

theorem foldlM_pushDigit {bound n : ℕ} (ds : List Char) {v : ℕ} (hv : v < bound) :
    ds.foldlM (pushDigit bound) v = some n ↔
      (∀ c ∈ ds, c.isDigit) ∧ Nat.ofDigitChars 10 ds v = n ∧ n < bound := by
  induction ds generalizing v with
  | nil =>
      rw [Nat.ofDigitChars_nil, List.foldlM_nil]
      constructor
      · rintro ⟨⟩
        exact ⟨nofun, rfl, hv⟩
      · rintro ⟨-, rfl, -⟩
        rfl
  | cons c ds ih =>
      have hval : c.toNat - '0'.toNat = c.toNat - 48 := rfl
      rw [List.foldlM_cons, Nat.ofDigitChars_cons, pushDigit, List.forall_mem_cons, hval]
      -- more digits only grow the value, so once past the bound it stays past it
      by_cases h : c.isDigit ∧ 10 * v + (c.toNat - 48) < bound
      · rw [if_pos h]
        show ds.foldlM (pushDigit bound) _ = _ ↔ _
        rw [ih h.2, and_assoc]
        exact (and_iff_right h.1).symm
      · rw [if_neg h]
        refine ⟨nofun, ?_⟩
        rintro ⟨⟨hc, -⟩, rfl, hlt⟩
        exact absurd ⟨hc, (le_ofDigitChars ds _).trans_lt hlt⟩ h

theorem readNat_eq_some {bound n : ℕ} (hbound : 0 < bound) {ds : List Char} :
    readNat bound ds = some n ↔
      (∀ c ∈ ds, c.isDigit) ∧ Nat.ofDigitChars 10 ds 0 = n ∧ n < bound :=
  foldlM_pushDigit ds hbound

end Text
