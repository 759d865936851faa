/-
SystemsStudy/Lib/Csv.lean

Comma-separated values, as the usual dialect reads them.

A `Reader` takes a line character by character: fields end at commas, a field
that begins with a quote goes on to the closing one, a doubled quote stands for
one, and a line may be followed by any newline characters but by nothing else.
A record that ends inside quotes goes on in the next line.

What is written without quotes is read back as it was, as long as no field has
a comma or a newline in it or begins with a quote (`records_render`).  A record
of a single empty field is the one exception: its line is blank.

`pushTo` and `groupBy` collect the entries of a list by a key, in the order in
which the keys first occur; what was written one key after another is collected
as it was written (`groupBy_flatMap`).
-/
import Mathlib.Tactic

namespace Csv

/-! ### Lines -/

/-- A character that ends a line. -/
def isNewline (c : Char) : Bool := c == '\n' || c == '\r'

/-- The lines of a text, each with its end, after the part `acc` of the first. -/
def linesFrom (acc : List Char) : List Char → List (List Char)
  | [] => if acc = [] then [] else [acc]
  | '\r' :: '\n' :: rest => (acc ++ ['\r', '\n']) :: linesFrom [] rest
  | c :: rest =>
      if isNewline c then (acc ++ [c]) :: linesFrom [] rest else linesFrom (acc ++ [c]) rest

/-- A line ends at its newline. -/
theorem linesFrom_line {l : List Char} (hl : ∀ c ∈ l, isNewline c = false) (acc rest : List Char) :
    linesFrom acc (l ++ '\n' :: rest) = (acc ++ (l ++ ['\n'])) :: linesFrom [] rest := by
  induction l generalizing acc with
  | nil =>
      rw [List.nil_append, List.nil_append, linesFrom.eq_3 _ _ _ (by simp)]
      rfl
  | cons c l ih =>
      have hc := hl c List.mem_cons_self
      have hne : c ≠ '\r' := by
        rintro rfl
        cases hc
      rw [List.cons_append, linesFrom.eq_3 _ _ _ (by simp [hne]), hc, if_neg (by decide),
        ih fun c hc => hl c (List.mem_cons_of_mem _ hc), List.append_assoc]
      rfl

/-! ### The reader -/

/-- Where the reader is in a record. -/
inductive Mode where
  | startRecord
  | startField
  | inField
  | inQuoted
  | quoteInQuoted
  | eatNewline
  deriving DecidableEq

/-- The state of the reader: its mode, and what it has of the field and the record. -/
structure Reader where
  mode : Mode
  field : List Char
  record : List (List Char)
  deriving DecidableEq

namespace Reader

/-- Before a record. -/
def fresh : Reader where
  mode := .startRecord
  field := []
  record := []

/-- The field is complete. -/
def save (r : Reader) (mode : Mode) : Reader where
  mode := mode
  field := []
  record := r.record ++ [r.field]

/-- The character belongs to the field. -/
def push (r : Reader) (c : Char) (mode : Mode) : Reader where
  mode := mode
  field := r.field ++ [c]
  record := r.record

/-- A character at the beginning of a field. -/
def begin (r : Reader) (c : Char) : Reader :=
  if isNewline c then r.save .eatNewline
  else if c = '"' then { r with mode := .inQuoted }
  else if c = ',' then r.save .startField
  else r.push c .inField

/-- A character; there is an error where something follows the newline. -/
def char (r : Reader) (c : Char) : Option Reader :=
  match r.mode with
  | .startRecord => some (if isNewline c then { r with mode := .eatNewline } else r.begin c)
  | .startField => some (r.begin c)
  | .inField =>
      some (if isNewline c then r.save .eatNewline
        else if c = ',' then r.save .startField else r.push c .inField)
  | .inQuoted => some (if c = '"' then { r with mode := .quoteInQuoted } else r.push c .inQuoted)
  | .quoteInQuoted =>
      some (if c = '"' then r.push c .inQuoted
        else if c = ',' then r.save .startField
        else if isNewline c then r.save .eatNewline
        else r.push c .inField)
  | .eatNewline => if isNewline c then some r else none

/-- The end of a line. -/
def endLine (r : Reader) : Reader :=
  match r.mode with
  | .startRecord => r
  | .startField | .inField | .quoteInQuoted => r.save .startRecord
  | .inQuoted => r
  | .eatNewline => { r with mode := .startRecord }

end Reader

/-- The records of some lines.  The last one may lack its closing quote. -/
def recordsFrom (r : Reader) : List (List Char) → Option (List (List (List Char)))
  | [] => some (if r.mode = .inQuoted then [r.record ++ [r.field]] else [])
  | line :: lines => do
      let r ← line.foldlM Reader.char r
      let r := r.endLine
      if r.mode = .startRecord then return r.record :: (← recordsFrom .fresh lines)
      else recordsFrom r lines

/-- The records of a text. -/
def records (text : List Char) : Option (List (List (List Char))) :=
  recordsFrom .fresh (linesFrom [] text)

/-! ### Writing without quotes -/

/-- A field that needs no quotes. -/
structure Plain (field : List Char) : Prop where
  comma : ',' ∉ field
  newline : ∀ c ∈ field, isNewline c = false
  quote : field.head? ≠ some '"'

/-- The characters of a name. -/
def isWord (c : Char) : Bool := c.isAlphanum || c == '_'

/-- A name needs no quotes. -/
theorem plain_of_isWord {f : List Char} (h : ∀ c ∈ f, isWord c = true) : Plain f where
  comma hmem := nomatch h _ hmem
  newline c hc := by
    rw [isNewline, Bool.or_eq_false_iff, beq_eq_false_iff_ne, beq_eq_false_iff_ne]
    constructor
    · rintro rfl
      cases h _ hc
    · rintro rfl
      cases h _ hc
  quote hhead := nomatch h _ (List.mem_of_mem_head? hhead)

/-- A record that needs no quotes. -/
structure PlainRecord (record : List (List Char)) : Prop where
  ne_nil : record ≠ []
  ne_blank : record ≠ [[]]
  plain : ∀ field ∈ record, Plain field

/-- The fields with a comma after each but the last. -/
def renderFields : List (List Char) → List Char
  | [] => []
  | [field] => field
  | field :: fields => field ++ ',' :: renderFields fields

/-- The text of the rows, each ended by a newline. -/
def render (rows : List (List (List Char))) : List Char :=
  rows.flatMap fun row => renderFields row ++ ['\n']

/-! ### Reading it back -/

theorem newline_renderFields {fields : List (List Char)} (h : ∀ field ∈ fields, Plain field) :
    ∀ c ∈ renderFields fields, isNewline c = false := by
  induction fields using renderFields.induct with
  | case1 => exact nofun
  | case2 field =>
      intro c hc
      exact (h field List.mem_cons_self).newline c hc
  | case3 field fields _ ih =>
      intro c hc
      rw [renderFields.eq_3 _ _ (by assumption)] at hc
      rcases List.mem_append.mp hc with hc | hc
      · exact (h field List.mem_cons_self).newline c hc
      · rcases List.mem_cons.mp hc with rfl | hc
        · rfl
        · exact ih (fun f hf => h f (List.mem_cons_of_mem _ hf)) c hc

/-- The line of a record that needs no quotes is not blank. -/
theorem renderFields_ne_nil {record : List (List Char)} (h : PlainRecord record) :
    renderFields record ≠ [] := by
  rcases hr : record with - | ⟨field, - | ⟨field', fields⟩⟩
  · exact absurd hr h.ne_nil
  · rintro rfl
    exact h.ne_blank hr
  · show field ++ ',' :: renderFields (field' :: fields) ≠ []
    exact List.append_ne_nil_of_right_ne_nil _ (List.cons_ne_nil _ _)

/-- The rest of a field that has begun. -/
theorem foldlM_inField {f : List Char} (hf : ∀ c ∈ f, c ≠ ',' ∧ isNewline c = false)
    (a : List Char) (record : List (List Char)) :
    f.foldlM Reader.char ⟨.inField, a, record⟩ = some ⟨.inField, a ++ f, record⟩ := by
  induction f generalizing a with
  | nil =>
      rw [List.append_nil]
      rfl
  | cons c f ih =>
      obtain ⟨hcomma, hnewline⟩ := hf c List.mem_cons_self
      have hstep : Reader.char ⟨.inField, a, record⟩ c = some ⟨.inField, a ++ [c], record⟩ := by
        show some (if isNewline c then _ else if c = ',' then _ else _) = _
        rw [hnewline, if_neg (by decide), if_neg hcomma]
        rfl
      rw [List.foldlM_cons, hstep]
      show List.foldlM _ _ f = _
      rw [ih (fun c hc => hf c (List.mem_cons_of_mem _ hc)), List.append_assoc]
      rfl

/-- What ends a field, and where the reader is then. -/
inductive Ends : Char → Mode → Prop
  | comma : Ends ',' .startField
  | newline : Ends '\n' .eatNewline

/-- A whole field and the character that ends it. -/
theorem foldlM_field {f : List Char} (hf : Plain f) {c : Char} {m : Mode} (hc : Ends c m)
    (rest : List Char) (record : List (List Char)) :
    (f ++ c :: rest).foldlM Reader.char ⟨.startField, [], record⟩ =
      rest.foldlM Reader.char ⟨m, [], record ++ [f]⟩ := by
  -- an empty field ends where it starts
  rcases f with - | ⟨d, f⟩
  · cases hc with
    | comma => rfl
    | newline => rfl
  have hd := hf.newline d List.mem_cons_self
  have hcomma : d ≠ ',' := by
    rintro rfl
    exact hf.comma List.mem_cons_self
  have hquote : d ≠ '"' := by
    rintro rfl
    exact hf.quote rfl
  -- a plain first character opens the field, and the rest stays inside it
  have hbegin : Reader.char ⟨.startField, [], record⟩ d = some ⟨.inField, [d], record⟩ := by
    show some (if isNewline d then _ else if d = '"' then _ else if d = ',' then _ else _) = _
    rw [hd, if_neg (by decide), if_neg hquote, if_neg hcomma]
    rfl
  have hrest : ∀ c ∈ f, c ≠ ',' ∧ isNewline c = false := by
    intro c hc
    have hmem := List.mem_cons_of_mem d hc
    refine ⟨?_, hf.newline c hmem⟩
    rintro rfl
    exact hf.comma hmem
  have hend : Reader.char ⟨.inField, d :: f, record⟩ c = some ⟨m, [], record ++ [d :: f]⟩ := by
    cases hc with
    | comma => rfl
    | newline => rfl
  rw [List.cons_append, List.foldlM_cons, hbegin]
  show (f ++ c :: rest).foldlM Reader.char ⟨.inField, [d], record⟩ = _
  rw [List.foldlM_append, foldlM_inField hrest]
  show (c :: rest).foldlM Reader.char ⟨.inField, d :: f, record⟩ = _
  rw [List.foldlM_cons, hend]
  rfl

/-- The line of a record, from the beginning of its first field. -/
theorem foldlM_renderFields {fields : List (List Char)} (h : ∀ field ∈ fields, Plain field)
    (hne : fields ≠ []) (record : List (List Char)) :
    (renderFields fields ++ ['\n']).foldlM Reader.char ⟨.startField, [], record⟩ =
      some ⟨.eatNewline, [], record ++ fields⟩ := by
  induction fields using renderFields.induct generalizing record with
  | case1 => exact absurd rfl hne
  | case2 field => exact foldlM_field (h field List.mem_cons_self) .newline [] record
  | case3 field fields hne' ih =>
      rw [renderFields.eq_3 _ _ hne', List.append_assoc, List.cons_append,
        foldlM_field (h field List.mem_cons_self) .comma,
        ih (fun f hf => h f (List.mem_cons_of_mem _ hf)) hne', List.append_assoc]
      rfl

/-- The line of a record that needs no quotes is read as the record. -/
theorem foldlM_line {record : List (List Char)} (h : PlainRecord record) :
    (renderFields record ++ ['\n']).foldlM Reader.char .fresh =
      some ⟨.eatNewline, [], record⟩ := by
  have hline := foldlM_renderFields h.plain h.ne_nil []
  obtain ⟨c, tail, hc⟩ := List.exists_cons_of_ne_nil (renderFields_ne_nil h)
  have hnewline : isNewline c = false :=
    newline_renderFields h.plain c (by rw [hc]; exact List.mem_cons_self)
  rw [hc, List.cons_append, List.foldlM_cons] at hline ⊢
  have hfirst : Reader.char .fresh c = Reader.char ⟨.startField, [], []⟩ c := by
    show some (if isNewline c then _ else _) = _
    rw [hnewline]
    rfl
  rw [hfirst]
  exact hline

/-- Records that need no quotes are read back as they were written. -/
theorem records_render {rows : List (List (List Char))} (h : ∀ row ∈ rows, PlainRecord row) :
    records (render rows) = some rows := by
  induction rows with
  | nil => rfl
  | cons row rows ih =>
      have hrow := h row List.mem_cons_self
      have hlines : linesFrom [] (render (row :: rows)) =
          (renderFields row ++ ['\n']) :: linesFrom [] (render rows) := by
        rw [render, List.flatMap_cons, List.append_assoc]
        exact linesFrom_line (newline_renderFields hrow.plain) [] _
      rw [records, hlines, recordsFrom, foldlM_line hrow]
      have hrest := ih fun row hr => h row (List.mem_cons_of_mem _ hr)
      rw [records] at hrest
      show (recordsFrom .fresh (linesFrom [] (render rows))).bind _ = _
      rw [hrest]
      rfl

/-- Quotes keep a comma in a field, and a doubled one stands for one. -/
example : records "a,\"b,\"\"c\"\n".toList = some [[['a'], ['b', ',', '"', 'c']]] := by
  decide

/-! ### Collecting by key -/

section Group

variable {κ α : Type*} [DecidableEq κ]

/-- Add an entry to the list of its key. -/
def pushTo (k : κ) (x : α) : List (κ × List α) → List (κ × List α)
  | [] => [(k, [x])]
  | (k', xs) :: groups =>
      if k' = k then (k', xs ++ [x]) :: groups else (k', xs) :: pushTo k x groups

/-- The values by key, the keys in the order in which they first occur. -/
def groupBy (entries : List (κ × α)) : List (κ × List α) :=
  entries.foldl (fun groups e => pushTo e.1 e.2 groups) []

/-- A key that occurs first begins a list at the end. -/
theorem pushTo_new {k : κ} {groups : List (κ × List α)} (h : k ∉ groups.map Prod.fst) (x : α) :
    pushTo k x groups = groups ++ [(k, [x])] := by
  induction groups with
  | nil => rfl
  | cons g groups ih =>
      rw [List.map_cons, List.mem_cons, not_or] at h
      rw [pushTo, if_neg (Ne.symm h.1), ih h.2]
      rfl

/-- The key of the last list. -/
theorem pushTo_last {k : κ} {groups : List (κ × List α)} (h : k ∉ groups.map Prod.fst)
    (xs : List α) (x : α) : pushTo k x (groups ++ [(k, xs)]) = groups ++ [(k, xs ++ [x])] := by
  induction groups with
  | nil => exact if_pos rfl
  | cons g groups ih =>
      rw [List.map_cons, List.mem_cons, not_or] at h
      rw [List.cons_append, pushTo, if_neg (Ne.symm h.1), ih h.2]
      rfl

theorem foldl_pushTo {k : κ} {groups : List (κ × List α)} (h : k ∉ groups.map Prod.fst)
    (xs ys : List α) :
    (ys.map (k, ·)).foldl (fun groups e => pushTo e.1 e.2 groups) (groups ++ [(k, xs)]) =
      groups ++ [(k, xs ++ ys)] := by
  induction ys generalizing xs with
  | nil =>
      rw [List.append_nil]
      rfl
  | cons y ys ih =>
      rw [List.map_cons, List.foldl_cons, pushTo_last h, ih, List.append_assoc]
      rfl

/-- Lists that were written one after another, each under its own key, are
collected as they were; empty ones leave no trace. -/
theorem groupBy_flatMap {lists : List (κ × List α)} (hkeys : (lists.map Prod.fst).Nodup) :
    groupBy (lists.flatMap fun l => l.2.map (l.1, ·)) =
      lists.filter fun l => !l.2.isEmpty := by
  have hfrom : ∀ groups : List (κ × List α), ((groups ++ lists).map Prod.fst).Nodup →
      (lists.flatMap fun l => l.2.map (l.1, ·)).foldl
        (fun groups e => pushTo e.1 e.2 groups) groups =
          groups ++ lists.filter fun l => !l.2.isEmpty := by
    induction lists with
    | nil => exact fun groups _ => (List.append_nil groups).symm
    | cons l lists ih =>
        intro groups hnodup
        obtain ⟨k, - | ⟨x, xs⟩⟩ := l
        · -- nothing is written
          refine ih (List.nodup_cons.mp hkeys).2 groups ?_
          refine hnodup.sublist (List.Sublist.map _ ?_)
          exact (List.Sublist.refl groups).append (List.sublist_cons_self _ _)
        · have hnew : k ∉ groups.map Prod.fst := by
            intro hk
            rw [List.map_append, List.map_cons] at hnodup
            exact List.disjoint_of_nodup_append hnodup hk List.mem_cons_self
          have hassoc : ∀ rest, groups ++ (k, [x] ++ xs) :: rest =
              groups ++ [(k, [x] ++ xs)] ++ rest := fun rest => List.append_cons ..
          have hrest := ih (List.nodup_cons.mp hkeys).2 (groups ++ [(k, [x] ++ xs)])
            (hassoc lists ▸ hnodup)
          rw [List.flatMap_cons, List.foldl_append, List.map_cons, List.foldl_cons,
            pushTo_new hnew, foldl_pushTo hnew, hrest, ← hassoc]
          rfl
  exact hfrom [] hkeys

end Group

end Csv
