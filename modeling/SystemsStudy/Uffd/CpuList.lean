/-
SystemsStudy/Uffd/CpuList.lean

`topology.rs`: the CPU lists of sysfs.

A list such as `0-3,8` is a text of parts with commas between them, and a part
is a number or a range.  `Lists t cpus` says which CPUs a part lists, with
blanks allowed around every number; a part that is blank, has a letter in it or
a number that does not fit lists none.

`readPart` finds these CPUs (`readPart_eq`), and since blanks at the ends of a
part make no difference to it, neither do blanks at the ends of the file.  So
the file is read part by part (`readList_eq`), and the kernel's own rendering of
a set, which writes its maximal runs in ascending order, is read as the set
(`readList_parses`).
-/
import SystemsStudy.Lib.Text
import Mathlib.Data.Finset.Sort
import Mathlib.Data.List.Infix

namespace SystemsStudy.Uffd

open Text

/-! ### Reading -/

/-- What `read_to_string` makes of the file with this path: its text, or nothing
where it cannot be read. -/
abbrev Files := String → Option String

/-- The digits of a number, behind an optional plus sign. -/
def unsigned : List Char → List Char
  | [] => []
  | c :: s => if c = '+' then s else c :: s

/-- `str::parse::<usize>`. -/
def parseUsize (s : List Char) : Option ℕ :=
  if unsigned s = [] then none else readNat (2 ^ 64) (unsigned s)

/-- The CPUs of `a..=b`.  A `Vec` holds fewer than `2 ^ 60` of them; that the
program runs out of memory before is left out. -/
def cpuRange (a b : ℕ) : List ℕ := List.range' a (b + 1 - a)

/-- The CPUs that one part of the list adds. -/
def readPart (part : List Char) : List ℕ :=
  match splitOnce '-' part with
  | some (a, b) =>
      match parseUsize (trim isWhitespace a), parseUsize (trim isWhitespace b) with
      | some a, some b => cpuRange a b
      | _, _ => []
  | none =>
      match parseUsize (trim isWhitespace part) with
      | some v => [v]
      | none => []

/-- Parse a sysfs CPU list such as `0,4` or `0-3`.  The list that is returned can
be of any length. -/
def readList (fs : Files) (path : String) : List ℕ :=
  match fs path with
  | none => []
  | some s =>
      ((trim isWhitespace s.toList).splitOn ',').foldl (fun out part => out ++ readPart part) []

/-- The first CPU of a list, which in a sysfs list is the least. -/
def readFirst (fs : Files) (path : String) : Option ℕ := (readList fs path).head?

/-! ### What a part lists -/

/-- A number with blanks around it. -/
inductive Padded : List Char → ℕ → Prop
  | mk {l ds r a} : (∀ c ∈ l, isWhitespace c) → (∀ c ∈ r, isWhitespace c) → Numeral ds a →
      Padded (l ++ (ds ++ r)) a

/-- A letter, or any other character that no list of numbers has. -/
structure Foreign (c : Char) : Prop where
  not_digit : ¬ c.isDigit
  not_blank : ¬ isWhitespace c
  not_mark : c ∉ [',', '-', '+']

/-- A letter, or a number that does not fit, makes a part worthless. -/
inductive Malformed : List Char → Prop
  | letter {t c} : c ∈ t → Foreign c → Malformed t
  | overflow {t ds} : ds <:+: t → (∀ c ∈ ds, c.isDigit) → 2 ^ 64 ≤ Nat.ofDigitChars 10 ds 0 →
      Malformed t

/-- The CPUs that a part of a list stands for. -/
inductive Lists : List Char → List ℕ → Prop
  | cpu {t a} : Padded t a → a < 2 ^ 64 → Lists t [a]
  | range {t u a b} : Padded t a → Padded u b → a ≤ b → b < 2 ^ 64 →
      Lists (t ++ '-' :: u) (cpuRange a b)
  | empty {t} : (∀ c ∈ t, isWhitespace c) → Lists t []
  | malformed {t} : ',' ∉ t → Malformed t → Lists t []

/-! ### One number -/

theorem not_isDigit_plus : ¬ '+'.isDigit := by decide

theorem isWhitespace_digit {c : Char} (h : c.isDigit) : ¬ isWhitespace c := by
  have hval : 48 ≤ c.toNat ∧ c.toNat ≤ 57 := Char.isDigit_iff_toNat.mp h
  simp only [isWhitespace, Bool.or_eq_true, decide_eq_true_eq, List.contains_iff_mem,
    List.mem_cons, List.not_mem_nil, or_false]
  omega

theorem parseUsize_numeral {ds : List Char} {a : ℕ} (h : Numeral ds a) (ha : a < 2 ^ 64) :
    parseUsize ds = some a := by
  have hunsigned : unsigned ds = ds := by
    rcases ds with - | ⟨c, ds⟩
    · rfl
    · have hc := h.isDigit c List.mem_cons_self
      rw [unsigned, if_neg]
      rintro rfl
      exact not_isDigit_plus hc
  rw [parseUsize, hunsigned, if_neg h.ne_nil]
  exact (readNat_eq_some (by norm_num)).mpr ⟨h.isDigit, h.value, ha⟩

/-- What a text that is a number has to look like. -/
theorem parseUsize_eq_some {s : List Char} {a : ℕ} (h : parseUsize s = some a) :
    (∀ c ∈ unsigned s, c.isDigit) ∧ Nat.ofDigitChars 10 (unsigned s) 0 < 2 ^ 64 := by
  unfold parseUsize at h
  split at h
  · cases h
  · obtain ⟨hdigits, rfl, hlt⟩ := (readNat_eq_some (by norm_num)).mp h
    exact ⟨hdigits, hlt⟩

/-- Blanks are none of the marks in a list. -/
theorem not_mem_of_blank {w : List Char} (hw : ∀ c ∈ w, isWhitespace c) {c : Char}
    (hc : ¬ isWhitespace c) : c ∉ w :=
  fun h => hc (hw c h)

theorem not_mem_of_digits {ds : List Char} (hds : ∀ c ∈ ds, c.isDigit) {c : Char}
    (hc : ¬ c.isDigit) : c ∉ ds :=
  fun h => hc (hds c h)

theorem Padded.not_mem {t : List Char} {a : ℕ} (h : Padded t a) {c : Char} (hdigit : ¬ c.isDigit)
    (hblank : ¬ isWhitespace c) : c ∉ t := by
  obtain ⟨hl, hr, hds⟩ := h
  exact List.not_mem_append (not_mem_of_blank hl hblank)
    (List.not_mem_append (not_mem_of_digits hds.isDigit hdigit) (not_mem_of_blank hr hblank))

theorem Padded.parse {t : List Char} {a : ℕ} (h : Padded t a) (ha : a < 2 ^ 64) :
    parseUsize (trim isWhitespace t) = some a := by
  obtain ⟨hl, hr, hds⟩ := h
  rw [trim_append_left hl, trim_append_right hr,
    trim_eq_self fun c hc => isWhitespace_digit (hds.isDigit c hc)]
  exact parseUsize_numeral hds ha

/-! ### Malformed parts -/

/-- A word is not affected by the optional plus sign. -/
theorem infix_unsigned {s ds : List Char} (hplus : '+' ∉ ds) (hds : ds <:+: s) :
    ds <:+: unsigned s := by
  rcases s with - | ⟨c, s⟩
  · exact hds
  · rw [unsigned]
    split
    · next hc =>
        rw [hc] at hds
        exact infix_of_infix_cons hplus hds
    · exact hds

theorem foreign_of_isAlpha {c : Char} (h : c.isAlpha) : Foreign c := by
  have hval : 65 ≤ c.toNat ∧ c.toNat ≤ 90 ∨ 97 ≤ c.toNat ∧ c.toNat ≤ 122 := by
    rcases Bool.or_eq_true_iff.mp h with h | h
    · obtain ⟨hlo, hhi⟩ := of_decide_eq_true h
      exact .inl ⟨UInt32.le_iff_toNat_le.mp hlo, UInt32.le_iff_toNat_le.mp hhi⟩
    · obtain ⟨hlo, hhi⟩ := Bool.and_eq_true_iff.mp h
      exact .inr ⟨UInt32.le_iff_toNat_le.mp (of_decide_eq_true hlo),
        UInt32.le_iff_toNat_le.mp (of_decide_eq_true hhi)⟩
  refine ⟨?_, ?_, ?_⟩
  · intro hdigit
    have hval' : 48 ≤ c.toNat ∧ c.toNat ≤ 57 := Char.isDigit_iff_toNat.mp hdigit
    omega
  · simp only [isWhitespace, Bool.or_eq_true, decide_eq_true_eq, List.contains_iff_mem,
      List.mem_cons, List.not_mem_nil, or_false]
    omega
  · intro hmark
    have hlt : c.toNat < 65 := by
      simp only [List.mem_cons, List.not_mem_nil, or_false] at hmark
      rcases hmark with rfl | rfl | rfl <;> decide
    omega

theorem Foreign.not_mem_mark {c d : Char} (h : Foreign c) (hd : d ∈ [',', '-', '+']) :
    d ∉ [c] := by
  rw [List.mem_singleton]
  rintro rfl
  exact h.not_mark hd

/-- A malformed text is no number. -/
theorem Malformed.parse {t : List Char} (h : Malformed t) :
    parseUsize (trim isWhitespace t) = none := by
  rcases e : parseUsize (trim isWhitespace t) with - | a
  · rfl
  exfalso
  obtain ⟨hdigits, hlt⟩ := parseUsize_eq_some e
  rcases h with ⟨hc, hforeign⟩ | ⟨hds, hall, hbig⟩
  · have htrim := infix_trim (p := isWhitespace)
      (fun d hd => (List.mem_singleton.mp hd) ▸ hforeign.not_blank)
      ((List.singleton_infix_iff _ _).mpr hc)
    have hmem := infix_unsigned (hforeign.not_mem_mark (by decide)) htrim
    exact hforeign.not_digit (hdigits _ (hmem.subset List.mem_cons_self))
  · have htrim := infix_trim (p := isWhitespace)
      (fun c hc => isWhitespace_digit (hall c hc)) hds
    obtain ⟨a, b, hab⟩ := infix_unsigned (not_mem_of_digits hall not_isDigit_plus) htrim
    rw [← hab, List.append_assoc] at hlt
    exact absurd (hbig.trans (ofDigitChars_le_append _ _ _)) (Nat.not_le.mpr hlt)

/-- If a range is malformed, one of its two numbers is. -/
theorem Malformed.cut {a b : List Char} (h : Malformed (a ++ '-' :: b)) :
    Malformed a ∨ Malformed b := by
  rcases h with ⟨hc, hforeign⟩ | ⟨hds, hall, hbig⟩
  · have hdash := hforeign.not_mem_mark (d := '-') (by decide)
    have hword := infix_of_infix_append hdash ((List.singleton_infix_iff _ _).mpr hc)
    rcases hword with ha | hb
    · exact .inl (.letter (ha.subset List.mem_cons_self) hforeign)
    · exact .inr (.letter (hb.subset List.mem_cons_self) hforeign)
  · rcases infix_of_infix_append (not_mem_of_digits hall (by decide)) hds with ha | hb
    · exact .inl (.overflow ha hall hbig)
    · exact .inr (.overflow hb hall hbig)

/-! ### One part -/

theorem readPart_single {t : List Char} (h : '-' ∉ t) :
    readPart t = (parseUsize (trim isWhitespace t)).toList := by
  rw [readPart, splitOnce_of_not_mem h]
  rcases parseUsize (trim isWhitespace t) with - | a <;> rfl

theorem readPart_pair {a : List Char} (h : '-' ∉ a) (b : List Char) :
    readPart (a ++ '-' :: b) =
      match parseUsize (trim isWhitespace a), parseUsize (trim isWhitespace b) with
      | some a, some b => cpuRange a b
      | _, _ => [] := by
  rw [readPart, splitOnce_append h]

/-- Blanks before a part. -/
theorem readPart_append_left (w t : List Char) (hw : ∀ c ∈ w, isWhitespace c) :
    readPart (w ++ t) = readPart t := by
  have hdash : '-' ∉ w := not_mem_of_blank hw (by decide)
  rcases splitOnce_cases '-' t with ⟨ht, -⟩ | ⟨a, b, ha, rfl, -⟩
  · rw [readPart_single ht, readPart_single (List.not_mem_append hdash ht), trim_append_left hw]
  · rw [readPart_pair ha, ← List.append_assoc, readPart_pair (List.not_mem_append hdash ha),
      trim_append_left hw]

/-- Blanks behind a part. -/
theorem readPart_append_right (t w : List Char) (hw : ∀ c ∈ w, isWhitespace c) :
    readPart (t ++ w) = readPart t := by
  have hdash : '-' ∉ w := not_mem_of_blank hw (by decide)
  rcases splitOnce_cases '-' t with ⟨ht, -⟩ | ⟨a, b, ha, rfl, -⟩
  · rw [readPart_single ht, readPart_single (List.not_mem_append ht hdash), trim_append_right hw]
  · rw [readPart_pair ha, List.append_assoc, List.cons_append, readPart_pair ha,
      trim_append_right hw]

theorem Malformed.readPart {t : List Char} (h : Malformed t) : readPart t = [] := by
  rcases splitOnce_cases '-' t with ⟨ht, -⟩ | ⟨a, b, ha, rfl, -⟩
  · rw [readPart_single ht, h.parse]
    rfl
  · rw [readPart_pair ha]
    rcases h.cut with h | h
    · rw [h.parse]
    · rw [h.parse]
      split
      · next heq => cases heq
      · rfl

theorem readPart_eq {t : List Char} {cpus : List ℕ} (h : Lists t cpus) : readPart t = cpus := by
  cases h with
  | cpu ht ha =>
      rw [readPart_single (ht.not_mem (by decide) (by decide)), ht.parse ha]
      rfl
  | range ht hu hle hb =>
      rw [readPart_pair (ht.not_mem (by decide) (by decide)), ht.parse (hle.trans_lt hb),
        hu.parse hb]
  | empty ht =>
      have hnil := readPart_append_left t [] ht
      rw [List.append_nil] at hnil
      rw [hnil]
      rfl
  | malformed _ ht => exact ht.readPart

/-- No part has a comma. -/
theorem Lists.not_mem {t : List Char} {cpus : List ℕ} (h : Lists t cpus) : ',' ∉ t := by
  cases h with
  | cpu ht => exact ht.not_mem (by decide) (by decide)
  | range ht hu =>
      exact List.not_mem_append (ht.not_mem (by decide) (by decide))
        (List.not_mem_cons_of_ne_of_not_mem (by decide) (hu.not_mem (by decide) (by decide)))
  | empty ht => exact not_mem_of_blank ht (by decide)
  | malformed ht => exact ht

/-! ### A whole list -/

theorem map_readPart {parts : List (List Char)} {cpus : List (List ℕ)}
    (h : List.Forall₂ Lists parts cpus) : parts.map readPart = cpus := by
  induction h with
  | nil => rfl
  | cons hpart _ ih => rw [List.map_cons, readPart_eq hpart, ih]

theorem not_mem_parts {parts : List (List Char)} {cpus : List (List ℕ)}
    (h : List.Forall₂ Lists parts cpus) : ∀ t ∈ parts, ',' ∉ t := by
  induction h with
  | nil => nofun
  | cons hpart _ ih => exact List.forall_mem_cons.mpr ⟨hpart.not_mem, ih⟩

/-- The parts of a list are read one by one. -/
theorem readList_eq {fs : Files} {path : String} {l r : List Char} {parts : List (List Char)}
    {cpus : List (List ℕ)} (hl : ∀ c ∈ l, isWhitespace c) (hr : ∀ c ∈ r, isWhitespace c)
    (hparts : List.Forall₂ Lists parts cpus)
    (h : fs path = some (String.ofList (l ++ ([','].intercalate parts ++ r)))) :
    readList fs path = cpus.flatten := by
  rw [readList, h]
  dsimp only
  rw [← List.flatMap_eq_foldl, String.toList_ofList, flatMap_splitOn_trim_intercalate
    readPart_append_left readPart_append_right rfl (by decide) (not_mem_parts hparts) hl hr,
    List.flatMap_def, map_readPart hparts]

/-! ### The rendering of the kernel -/

/-- The maximal runs of an ascending list, each with its two ends. -/
def runs : List ℕ → List (ℕ × ℕ)
  | [] => []
  | a :: l =>
      match runs l with
      | [] => [(a, a)]
      | (b, c) :: rs => if b = a + 1 then (a, c) :: rs else (a, a) :: (b, c) :: rs

/-- A run of a single CPU is written as a number. -/
def runText (r : ℕ × ℕ) : List Char :=
  if r.1 = r.2 then Nat.toDigits 10 r.1
  else Nat.toDigits 10 r.1 ++ '-' :: Nat.toDigits 10 r.2

/-- The list that the kernel writes for a set of CPUs. -/
def canonical (s : Finset ℕ) : List Char := [','].intercalate ((runs s.sort).map runText)

/-- The ends of a run are elements, in order. -/
theorem runs_ends {l : List ℕ} {r : ℕ × ℕ} (hr : r ∈ runs l) : r.1 ≤ r.2 ∧ r.1 ∈ l ∧ r.2 ∈ l := by
  induction l generalizing r with
  | nil => cases hr
  | cons a l ih =>
      have hrest : ∀ {r}, r ∈ runs l → r.1 ≤ r.2 ∧ r.1 ∈ a :: l ∧ r.2 ∈ a :: l := fun hr =>
        (ih hr).imp_right fun h => h.imp (List.mem_cons_of_mem a) (List.mem_cons_of_mem a)
      have hhead : a ≤ a ∧ a ∈ a :: l ∧ a ∈ a :: l :=
        ⟨le_rfl, List.mem_cons_self, List.mem_cons_self⟩
      rw [runs] at hr
      -- the new element opens a run, extends the first one, or stands alone before it
      split at hr
      · obtain rfl := List.mem_singleton.mp hr
        exact hhead
      · next b c rs hruns =>
          rw [hruns] at hrest
          obtain ⟨hbc, -, hc⟩ := hrest List.mem_cons_self
          split at hr
          · next hb =>
              rcases List.mem_cons.mp hr with rfl | hr
              · dsimp only at hbc hc ⊢
                exact ⟨by omega, List.mem_cons_self, hc⟩
              · exact hrest (List.mem_cons_of_mem _ hr)
          · rcases List.mem_cons.mp hr with rfl | hr
            · exact hhead
            · exact hrest hr

theorem cpuRange_self (a : ℕ) : cpuRange a a = [a] := by
  rw [cpuRange, Nat.add_sub_cancel_left]
  rfl

theorem cpuRange_cons {a b : ℕ} (h : a ≤ b) : cpuRange a b = a :: cpuRange (a + 1) b := by
  rw [cpuRange, cpuRange, show b + 1 - a = b + 1 - (a + 1) + 1 by omega]
  rfl

/-- The runs cover the list. -/
theorem flatMap_runs (l : List ℕ) : (runs l).flatMap (fun r => cpuRange r.1 r.2) = l := by
  induction l with
  | nil => rfl
  | cons a l ih =>
      rw [runs]
      split
      · next hruns =>
          rw [hruns] at ih
          rw [← ih, List.flatMap_singleton, cpuRange_self]
          rfl
      · next b c rs hruns =>
          have hbc : b ≤ c := (runs_ends (hruns ▸ List.mem_cons_self)).1
          rw [hruns, List.flatMap_cons] at ih
          split
          · next hb =>
              subst hb
              rw [List.flatMap_cons, cpuRange_cons (show a ≤ c by omega), List.cons_append, ih]
          · rw [List.flatMap_cons, List.flatMap_cons, ih, cpuRange_self]
            rfl

/-- The runs are maximal: the next one does not start right behind. -/
theorem runs_maximal {l : List ℕ} (h : l.Pairwise (· < ·)) :
    (runs l).IsChain fun r s => r.2 + 1 < s.1 := by
  induction l with
  | nil => exact .nil
  | cons a l ih =>
      obtain ⟨hlt, hl⟩ := List.pairwise_cons.mp h
      have hchain := ih hl
      rw [runs]
      split
      · exact .singleton _
      · next b c rs hruns =>
          rw [hruns] at hchain
          have hab : a < b := hlt b (runs_ends (hruns ▸ List.mem_cons_self)).2.1
          split
          · rcases rs with - | ⟨r, rs⟩
            · exact .singleton _
            · exact List.isChain_cons_cons.mpr (List.isChain_cons_cons.mp hchain)
          · refine List.isChain_cons_cons.mpr ⟨?_, hchain⟩
            show a + 1 < b
            omega

theorem padded_toDigits (a : ℕ) : Padded (Nat.toDigits 10 a) a := by
  have h := Padded.mk (l := []) (r := []) nofun nofun (numeral_toDigits a)
  rwa [List.nil_append, List.append_nil] at h

theorem lists_runText {r : ℕ × ℕ} (hle : r.1 ≤ r.2) (hlt : r.2 < 2 ^ 64) :
    Lists (runText r) (cpuRange r.1 r.2) := by
  rw [runText]
  split
  · next heq =>
      rw [← heq, cpuRange_self]
      exact .cpu (padded_toDigits _) (hle.trans_lt hlt)
  · exact .range (padded_toDigits _) (padded_toDigits _) hle hlt

theorem forall₂_runs {rs : List (ℕ × ℕ)} (h : ∀ r ∈ rs, r.1 ≤ r.2 ∧ r.2 < 2 ^ 64) :
    List.Forall₂ Lists (rs.map runText) (rs.map fun r => cpuRange r.1 r.2) := by
  induction rs with
  | nil => exact .nil
  | cons r rs ih =>
      obtain ⟨⟨hle, hlt⟩, hrest⟩ := List.forall_mem_cons.mp h
      exact .cons (lists_runText hle hlt) (ih hrest)

/-- The rendering of a set is read as the set. -/
theorem readList_canonical {fs : Files} {path : String} {l r : List Char} {s : Finset ℕ}
    (hl : ∀ c ∈ l, isWhitespace c) (hr : ∀ c ∈ r, isWhitespace c) (hs : ∀ a ∈ s, a < 2 ^ 64)
    (h : fs path = some (String.ofList (l ++ (canonical s ++ r)))) :
    readList fs path = s.sort := by
  have hends : ∀ r ∈ runs s.sort, r.1 ≤ r.2 ∧ r.2 < 2 ^ 64 := by
    intro r hr
    obtain ⟨hle, -, hmem⟩ := runs_ends hr
    exact ⟨hle, hs _ ((Finset.mem_sort _).mp hmem)⟩
  rw [readList_eq hl hr (forall₂_runs hends) h, ← List.flatMap_def, flatMap_runs]

theorem head?_sort_eq_some {s : Finset ℕ} {a : ℕ} :
    s.sort.head? = some a ↔ IsLeast (s : Set ℕ) a := by
  have hsorted : s.sort.Pairwise (· ≤ ·) := s.pairwise_sort _
  constructor
  · intro h
    obtain ⟨l, hl⟩ := List.head?_eq_some_iff.mp h
    rw [hl] at hsorted
    have hmem : ∀ b, b ∈ s ↔ b ∈ a :: l := fun b => by rw [← hl, Finset.mem_sort]
    refine ⟨(hmem a).mpr List.mem_cons_self, fun b hb => ?_⟩
    rcases List.mem_cons.mp ((hmem b).mp hb) with rfl | hb
    · exact le_rfl
    · exact (List.pairwise_cons.mp hsorted).1 b hb
  · -- the head is in the set and below the least element
    rintro ⟨hmem, hleast⟩
    rcases e : s.sort with - | ⟨b, l⟩
    · rw [Finset.mem_coe, ← Finset.mem_sort (· ≤ ·), e] at hmem
      cases hmem
    · have hb : b ∈ s := (Finset.mem_sort _).mp (e ▸ List.mem_cons_self)
      rw [Finset.mem_coe, ← Finset.mem_sort (· ≤ ·), e] at hmem
      rw [e] at hsorted ⊢
      rcases List.mem_cons.mp hmem with rfl | hmem
      · rfl
      · have hba := (List.pairwise_cons.mp hsorted).1 a hmem
        rw [List.head?_cons, le_antisymm hba (hleast hb)]

/-- `read_list` and `read_first` on the text of a CPU list, and on the text the
kernel writes for a set, which has the maximal runs of the set. -/
theorem readList_parses (fs : Files) (path : String) {l r : List Char}
    (hl : ∀ c ∈ l, isWhitespace c) (hr : ∀ c ∈ r, isWhitespace c) :
    (∀ parts cpus, List.Forall₂ Lists parts cpus →
        fs path = some (String.ofList (l ++ ([','].intercalate parts ++ r))) →
        readList fs path = cpus.flatten) ∧
      ∀ s : Finset ℕ, (∀ a ∈ s, a < 2 ^ 64) →
        fs path = some (String.ofList (l ++ (canonical s ++ r))) →
        readList fs path = s.sort ∧
          (∀ a, readFirst fs path = some a ↔ IsLeast (s : Set ℕ) a) ∧
          (runs s.sort).IsChain fun r r' => r.2 + 1 < r'.1 := by
  refine ⟨fun parts cpus hparts h => readList_eq hl hr hparts h, fun s hs h => ?_⟩
  have hread := readList_canonical hl hr hs h
  refine ⟨hread, fun a => ?_, runs_maximal s.sortedLT_sort.pairwise⟩
  rw [readFirst, hread]
  exact head?_sort_eq_some

theorem readList_parses_mixed :
    let fs : Files := fun _ => some "0-2, 4,x7,18446744073709551616,,9\n"
    readList fs "" = [0, 1, 2, 4, 9] := by
  have hrange : Lists ['0', '-', '2'] [0, 1, 2] :=
    .range (padded_toDigits 0) (padded_toDigits 2) (by decide) (by decide)
  have hpadded : Lists [' ', '4'] [4] :=
    .cpu (.mk (r := []) (List.forall_mem_singleton.mpr (by decide)) nofun (numeral_toDigits 4))
      (by decide)
  have hletter : Lists ['x', '7'] [] :=
    .malformed (by decide) (.letter List.mem_cons_self (foreign_of_isAlpha (by decide)))
  have hbig : Lists (Nat.toDigits 10 (2 ^ 64)) [] :=
    .malformed (by decide) (.overflow List.infix_rfl (numeral_toDigits _).isDigit (by decide))
  have hblank : Lists [] [] := .empty nofun
  have hsingle : Lists ['9'] [9] := .cpu (padded_toDigits 9) (by decide)
  have hparts := List.Forall₂.cons hrange (.cons hpadded (.cons hletter (.cons hbig
    (.cons hblank (.cons hsingle .nil)))))
  have hnewline : ∀ c ∈ ['\n'], isWhitespace c := List.forall_mem_singleton.mpr (by decide)
  exact (readList_parses _ "" (l := []) nofun hnewline).1 _ _ hparts rfl

end SystemsStudy.Uffd
