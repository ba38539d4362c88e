import Infinito.Orders.Customers

/-!
# Rows and cells

The writer and the reader of the users CSV, before anything is known about users. The writer puts
a cell into quotes when it has a quote, a comma or a line feed in it (`escapeCsvCell`). The reader
ends a row at a line feed outside of quotes, and at a carriage return.

So a cell with a carriage return and none of the three is cut when it is read back. `Written` is
what can be said of every cell that is read, whatever was written: it has no carriage return, or it
was in quotes (`parseCsvRows_written`). Without such cells the rows come back (`parseCsvRows_text`).
-/

set_option autoImplicit false

namespace Infinito.Panel

open Py
open Infinito.Orders (isJsSpace jsTrim)

/-! ## Writing -/

/-- `/[",\n]/` -/
def isQuoting (c : Char) : Bool := c = '"' || c = ',' || c = '\n'

/-- `text.replace(/"/g, "\"\"")` -/
def doubleQuotes (t : Text) : Text := t.flatMap fun c => if c = '"' then ['"', '"'] else [c]

def escapeCsvCell (t : Text) : Text :=
  if t.any isQuoting then '"' :: doubleQuotes t ++ ['"'] else t

/-- `row.map(escapeCsvCell).join(",")` -/
def csvLine (cells : List Text) : Text := [','].intercalate (cells.map escapeCsvCell)

/-- `lines.join("\n")` -/
def csvText (rows : List (List Text)) : Text := ['\n'].intercalate (rows.map csvLine)

/-! ## Reading -/

structure CsvState where
  rows : List (List Text)
  row : List Text
  cell : Text
  inQuotes : Bool

namespace CsvState

def start : CsvState := ⟨[], [], [], false⟩

def add (s : CsvState) (t : Text) : CsvState := { s with cell := s.cell ++ t }

def endCell (s : CsvState) : CsvState := { s with row := s.row ++ [s.cell], cell := [] }

def endRow (s : CsvState) : CsvState :=
  { s with rows := s.rows ++ [s.row ++ [s.cell]], row := [], cell := [] }

end CsvState

/-- The loop of `parseCsvRows`. -/
def csvLoop : Text → CsvState → CsvState
  | [], s => s
  | char :: rest, s =>
      if char = '"' then
        match s.inQuotes, rest with
        | true, '"' :: rest => csvLoop rest (s.add ['"'])
        | inQuotes, rest => csvLoop rest { s with inQuotes := !inQuotes }
      else if s.inQuotes = false ∧ char = ',' then csvLoop rest s.endCell
      else if s.inQuotes = false ∧ (char = '\n' ∨ char = '\r') then
        match char, rest with
        | '\r', '\n' :: rest => csvLoop rest s.endRow
        | _, rest => csvLoop rest s.endRow
      else csvLoop rest (s.add [char])

/-- `entry.replace(/^\uFEFF/, "")` -/
def dropMark : Text → Text
  | c :: t => if c = '\uFEFF' then t else c :: t
  | [] => []

def parseCsvRows (content : Text) : List (List Text) :=
  ((csvLoop content .start).endRow.rows.map (·.map dropMark)).filter
    (·.any fun entry => jsTrim entry ≠ [])

/-! ## One character -/

section Steps
variable {s : CsvState} {c : Char} {t rest : Text}

theorem loop_open (hs : s.inQuotes = false) :
    csvLoop ('"' :: rest) s = csvLoop rest { s with inQuotes := true } := by
  rw [csvLoop.eq_def]
  dsimp only
  rw [if_pos rfl, hs]
  rfl

theorem loop_pair (hs : s.inQuotes = true) :
    csvLoop ('"' :: '"' :: rest) s = csvLoop rest (s.add ['"']) := by
  rw [csvLoop.eq_def]
  dsimp only
  rw [if_pos rfl, hs]
  rfl

theorem loop_close (hs : s.inQuotes = true) (hrest : rest.head? ≠ some '"') :
    csvLoop ('"' :: rest) s = csvLoop rest { s with inQuotes := false } := by
  rw [csvLoop.eq_def]
  dsimp only
  rw [if_pos rfl, hs]
  split
  · exact absurd rfl hrest
  · rfl

/-- A character that is a cell's own. -/
theorem loop_add (hc : c ≠ '"') (hs : s.inQuotes = true ∨ c ≠ ',' ∧ c ≠ '\n' ∧ c ≠ '\r') :
    csvLoop (c :: rest) s = csvLoop rest (s.add [c]) := by
  have hcomma : ¬ (s.inQuotes = false ∧ c = ',') := by
    rintro ⟨hno, hcomma⟩
    rcases hs with hs | hs
    · rw [hs] at hno
      cases hno
    · exact hs.1 hcomma
  have hbreak : ¬ (s.inQuotes = false ∧ (c = '\n' ∨ c = '\r')) := by
    rintro ⟨hno, hbreak⟩
    rcases hs with hs | ⟨-, hfeed, hreturn⟩
    · rw [hs] at hno
      cases hno
    · exact hbreak.elim hfeed hreturn
  rw [csvLoop.eq_def]
  dsimp only
  rw [if_neg hc, if_neg hcomma, if_neg hbreak]

theorem loop_comma (hs : s.inQuotes = false) : csvLoop (',' :: rest) s = csvLoop rest s.endCell := by
  rw [csvLoop.eq_def]
  dsimp only
  rw [if_neg (by decide), if_pos ⟨hs, rfl⟩]

theorem loop_feed (hs : s.inQuotes = false) : csvLoop ('\n' :: rest) s = csvLoop rest s.endRow := by
  rw [csvLoop.eq_def]
  dsimp only
  rw [if_neg (by decide), if_neg fun h => absurd h.2 (by decide), if_pos ⟨hs, Or.inl rfl⟩]
  rfl

theorem loop_return (hs : s.inQuotes = false) (hrest : rest.head? ≠ some '\n') :
    csvLoop ('\r' :: rest) s = csvLoop rest s.endRow := by
  rw [csvLoop.eq_def]
  dsimp only
  rw [if_neg (by decide), if_neg fun h => absurd h.2 (by decide), if_pos ⟨hs, Or.inr rfl⟩]
  split
  · exact absurd rfl hrest
  · rfl

@[simp] theorem add_nil : s.add [] = s := by
  cases s
  simp [CsvState.add]

@[simp] theorem add_add (u : Text) : (s.add t).add u = s.add (t ++ u) := by
  simp [CsvState.add]

@[simp] theorem add_inQuotes : (s.add t).inQuotes = s.inQuotes := rfl

end Steps

/-! ## One cell -/

section Cells
variable {s : CsvState} {t rest : Text}

theorem isQuoting_iff {c : Char} : isQuoting c = false ↔ c ≠ '"' ∧ c ≠ ',' ∧ c ≠ '\n' := by
  simp [isQuoting]
  tauto

theorem loop_quoted (hs : s.inQuotes = true) :
    csvLoop (doubleQuotes t ++ rest) s = csvLoop rest (s.add t) := by
  induction t generalizing s with
  | nil => rw [add_nil]; rfl
  | cons c t ih =>
    unfold doubleQuotes at ih ⊢
    rw [List.flatMap_cons]
    by_cases hc : c = '"'
    · rw [if_pos hc, hc]
      rw [List.append_assoc, List.cons_append, List.singleton_append, loop_pair hs, ih (by rw [add_inQuotes, hs]), add_add]
      rfl
    · rw [if_neg hc]
      rw [List.append_assoc, List.singleton_append, loop_add hc (Or.inl hs), ih (by rw [add_inQuotes, hs]), add_add]
      rfl

theorem loop_plain (hs : s.inQuotes = false) (ht : ∀ c ∈ t, isQuoting c = false ∧ c ≠ '\r') :
    csvLoop (t ++ rest) s = csvLoop rest (s.add t) := by
  induction t generalizing s with
  | nil => rw [add_nil]; rfl
  | cons c t ih =>
    obtain ⟨⟨hc, hreturn⟩, ht⟩ := List.forall_mem_cons.mp ht
    obtain ⟨hquote, hcomma, hfeed⟩ := isQuoting_iff.mp hc
    rw [List.cons_append, loop_add hquote (Or.inr ⟨hcomma, hfeed, hreturn⟩),
      ih (by rw [add_inQuotes, hs]) ht, add_add]
    rfl

theorem loop_escaped_quoting (hs : s.inQuotes = false) (ht : t.any isQuoting = true)
    (hrest : rest.head? ≠ some '"') :
    csvLoop (escapeCsvCell t ++ rest) s = csvLoop rest (s.add t) := by
  unfold escapeCsvCell
  rw [if_pos ht, List.cons_append, List.cons_append, List.append_assoc, List.singleton_append,
    loop_open hs, loop_quoted rfl, loop_close rfl hrest]
  cases s
  subst hs
  rfl

/-- A cell that comes back: it has no carriage return, or it is put into quotes. -/
def Survives (t : Text) : Prop := '\r' ∉ t ∨ t.any isQuoting = true

theorem loop_survives (hs : s.inQuotes = false) (ht : Survives t) (hrest : rest.head? ≠ some '"') :
    csvLoop (escapeCsvCell t ++ rest) s = csvLoop rest (s.add t) := by
  by_cases hquoting : t.any isQuoting = true
  · exact loop_escaped_quoting hs hquoting hrest
  · have hreturn := ht.resolve_right hquoting
    unfold escapeCsvCell
    rw [if_neg hquoting]
    refine loop_plain hs fun c hc => ⟨?_, ?_⟩
    · cases hcq : isQuoting c with
      | false => rfl
      | true => exact absurd (List.any_eq_true.mpr ⟨c, hc, hcq⟩) hquoting
    · rintro rfl
      exact hreturn hc

end Cells

/-! ## Lines that come back -/

section Lines
variable {s : CsvState} {cells : List Text} {rows : List (List Text)} {rest : Text}

theorem intercalate_cons {c : Char} {first : Text} {more : List Text} :
    [c].intercalate (first :: more) = first ++ more.flatMap (c :: ·) := by
  induction more generalizing first with
  | nil => simp
  | cons next more ih =>
    rw [List.intercalate_cons_cons, ih, List.flatMap_cons]
    simp

/-- The text goes on with the next cell or the next row, or it is at its end. -/
def AtEnd (rest : Text) : Prop := ∀ c, rest.head? = some c → c = ',' ∨ c = '\n'

theorem AtEnd.no_quote (h : AtEnd rest) : rest.head? ≠ some '"' := by
  intro hquote
  rcases h _ hquote with h | h <;> exact absurd h (by decide)

theorem atEnd_nil : AtEnd [] := nofun

theorem atEnd_lines (rows : List (List Text)) : AtEnd (rows.flatMap ('\n' :: csvLine ·)) := by
  cases rows with
  | nil => exact atEnd_nil
  | cons row rows =>
    rintro c hc
    exact Or.inr (Option.some.inj hc).symm

theorem atEnd_cells (h : AtEnd rest) (cells : List Text) :
    AtEnd (cells.flatMap (',' :: escapeCsvCell ·) ++ rest) := by
  cases cells with
  | nil => exact h
  | cons cell cells =>
    rintro c hc
    exact Or.inl (Option.some.inj hc).symm

/-- The cells of a row after the first. -/
theorem loop_cells (hs : s.inQuotes = false) (hcells : ∀ cell ∈ cells, Survives cell)
    (hrest : AtEnd rest) : ∃ s', csvLoop (cells.flatMap (',' :: escapeCsvCell ·) ++ rest) s =
      csvLoop rest s' ∧ s'.inQuotes = false ∧ s'.rows = s.rows ∧
        s'.row ++ [s'.cell] = s.row ++ s.cell :: cells := by
  induction cells generalizing s with
  | nil => exact ⟨s, rfl, hs, rfl, rfl⟩
  | cons cell cells ih =>
    obtain ⟨hcell, hcells⟩ := List.forall_mem_cons.mp hcells
    have hstep : csvLoop ((cell :: cells).flatMap (',' :: escapeCsvCell ·) ++ rest) s =
        csvLoop (cells.flatMap (',' :: escapeCsvCell ·) ++ rest) (s.endCell.add cell) := by
      rw [List.flatMap_cons, List.append_assoc, List.cons_append, loop_comma hs,
        loop_survives (s := s.endCell) hs hcell (atEnd_cells hrest cells).no_quote]
    obtain ⟨s', hloop, hquotes, hrows, hrow⟩ := @ih (s.endCell.add cell) hs hcells
    refine ⟨s', hstep.trans hloop, hquotes, hrows, hrow.trans ?_⟩
    simp [CsvState.endCell, CsvState.add]

/-- One row. -/
theorem loop_row (hs : s.inQuotes = false) (hrow : s.row = []) (hcell : s.cell = [])
    (hne : cells ≠ []) (hcells : ∀ cell ∈ cells, Survives cell) (hrest : AtEnd rest) :
    ∃ s', csvLoop (csvLine cells ++ rest) s = csvLoop rest s' ∧ s'.inQuotes = false ∧
      s'.endRow.rows = s.rows ++ [cells] := by
  obtain ⟨first, more, rfl⟩ := List.exists_cons_of_ne_nil hne
  obtain ⟨hfirst, hmore⟩ := List.forall_mem_cons.mp hcells
  have hstep : csvLoop (csvLine (first :: more) ++ rest) s =
      csvLoop (more.flatMap (',' :: escapeCsvCell ·) ++ rest) (s.add first) := by
    unfold csvLine
    rw [List.map_cons, intercalate_cons, List.flatMap_map, List.append_assoc,
      loop_survives hs hfirst (atEnd_cells hrest more).no_quote]
  obtain ⟨s', hloop, hquotes, hrows, hlast⟩ := @loop_cells (s.add first) more rest hs hmore hrest
  refine ⟨s', hstep.trans hloop, hquotes, ?_⟩
  unfold CsvState.endRow
  rw [hrows, hlast]
  simp [CsvState.add, hrow, hcell]

theorem loop_lines (hs : s.inQuotes = false)
    (hrows : ∀ row ∈ rows, row ≠ [] ∧ ∀ cell ∈ row, Survives cell) :
    (csvLoop (rows.flatMap ('\n' :: csvLine ·)) s).endRow.rows = s.endRow.rows ++ rows := by
  induction rows generalizing s with
  | nil => simp [csvLoop]
  | cons row rows ih =>
    obtain ⟨⟨hne, hcells⟩, hrows⟩ := List.forall_mem_cons.mp hrows
    obtain ⟨s', hloop, hquotes, hend⟩ := @loop_row s.endRow row (rows.flatMap ('\n' :: csvLine ·)) hs
      rfl rfl hne hcells (atEnd_lines rows)
    rw [List.flatMap_cons, List.cons_append, loop_feed hs, hloop, ih hquotes hrows, hend]
    simp

/-- The rows that are read, before anything is left out. -/
theorem loop_text (hne : rows ≠ []) (hrows : ∀ row ∈ rows, row ≠ [] ∧ ∀ cell ∈ row, Survives cell) :
    (csvLoop (csvText rows) .start).endRow.rows = rows := by
  obtain ⟨first, more, rfl⟩ := List.exists_cons_of_ne_nil hne
  obtain ⟨⟨hfirst, hcells⟩, hmore⟩ := List.forall_mem_cons.mp hrows
  obtain ⟨s', hloop, hquotes, hend⟩ := @loop_row .start first (more.flatMap ('\n' :: csvLine ·)) rfl
    rfl rfl hfirst hcells (atEnd_lines more)
  unfold csvText
  rw [List.map_cons, intercalate_cons, List.flatMap_map, hloop, loop_lines hquotes hmore, hend]
  rfl

theorem dropMark_of_trimmed {t : Text} (h : jsTrim t = t) : dropMark t = t := by
  cases t with
  | nil => rfl
  | cons c t =>
    rw [dropMark, if_neg]
    rintro rfl
    have hhead : (List.dropWhile isJsSpace ('\uFEFF' :: t)).length ≤ t.length := by
      rw [List.dropWhile_cons_of_pos (by decide)]
      exact (List.dropWhile_suffix _).length_le
    have hlen := congrArg List.length h
    have hle : (jsTrim ('\uFEFF' :: t)).length ≤ t.length :=
      ((List.rdropWhile_prefix _ _).length_le).trans hhead
    rw [hlen] at hle
    exact absurd hle (Nat.not_succ_le_self _)

/-- **Rows come back**, if none of their cells is cut, and each has a cell that is not blank. -/
theorem parseCsvRows_text (hne : rows ≠ [])
    (hrows : ∀ row ∈ rows, (∃ cell ∈ row, jsTrim cell ≠ []) ∧
      ∀ cell ∈ row, Survives cell ∧ dropMark cell = cell) :
    parseCsvRows (csvText rows) = rows := by
  unfold parseCsvRows
  rw [loop_text hne fun row hrow => ⟨?_, fun cell hcell => ((hrows row hrow).2 cell hcell).1⟩]
  · have hmarks : rows.map (·.map dropMark) = rows := by
      conv_rhs => rw [← List.map_id rows]
      refine List.map_congr_left fun row hrow => ?_
      conv_rhs => rw [id_eq, ← List.map_id row]
      exact List.map_congr_left fun cell hcell => ((hrows row hrow).2 cell hcell).2
    rw [hmarks, List.filter_eq_self]
    intro row hrow
    obtain ⟨cell, hcell, hblank⟩ := (hrows row hrow).1
    exact List.any_eq_true.mpr ⟨cell, hcell, decide_eq_true hblank⟩
  · obtain ⟨cell, hcell, -⟩ := (hrows row hrow).1
    exact List.ne_nil_of_mem hcell

end Lines

/-! ## Whatever is written -/

section Written
variable {s : CsvState} {t rest : Text} {cells : List Text} {rows : List (List Text)}

/-- What any cell is that is read: without carriage return, or as it stood between quotes. -/
def Written (t : Text) : Prop := '\r' ∉ t ∨ (t.any isQuoting = true ∧ jsTrim t = t)

/-- A cell as the panel has them. -/
def Trimmed (t : Text) : Prop := '\r' ∉ t ∨ jsTrim t = t

structure CsvState.AllWritten (s : CsvState) : Prop where
  rows : ∀ row ∈ s.rows, ∀ cell ∈ row, Written cell
  row : ∀ cell ∈ s.row, Written cell

theorem written_nil : Written [] := Or.inl List.not_mem_nil

theorem allWritten_endRow (h : s.AllWritten) (hcell : Written s.cell) : s.endRow.AllWritten where
  rows row hrow := by
    rcases List.mem_append.mp hrow with hrow | hrow
    · exact h.rows row hrow
    · rw [List.mem_singleton.mp hrow]
      intro cell hmem
      rcases List.mem_append.mp hmem with hmem | hmem
      · exact h.row cell hmem
      · rw [List.mem_singleton.mp hmem]
        exact hcell
  row _ hmem := absurd hmem List.not_mem_nil

theorem allWritten_endCell (h : s.AllWritten) (hcell : Written s.cell) :
    s.endCell.AllWritten where
  rows := h.rows
  row cell hmem := by
    rcases List.mem_append.mp hmem with hmem | hmem
    · exact h.row cell hmem
    · rw [List.mem_singleton.mp hmem]
      exact hcell

/-- A text with nothing that is put into quotes is cut at its carriage returns. -/
theorem loop_cut (hs : s.inQuotes = false) (hwritten : s.AllWritten) (hcell : '\r' ∉ s.cell)
    (ht : ∀ c ∈ t, isQuoting c = false) (hlast : t.getLast? ≠ some '\r') :
    ∃ s', csvLoop (t ++ rest) s = csvLoop rest s' ∧ s'.inQuotes = false ∧ s'.AllWritten ∧
      '\r' ∉ s'.cell := by
  induction t generalizing s with
  | nil => exact ⟨s, rfl, hs, hwritten, hcell⟩
  | cons c t ih =>
    obtain ⟨hc, ht⟩ := List.forall_mem_cons.mp ht
    obtain ⟨hquote, hcomma, hfeed⟩ := isQuoting_iff.mp hc
    have hlast' : t.getLast? ≠ some '\r' := by
      cases t with
      | nil => nofun
      | cons d t => rwa [List.getLast?_cons_cons] at hlast
    by_cases hreturn : c = '\r'
    · have hrest : (t ++ rest).head? ≠ some '\n' := by
        cases t with
        | nil => exact absurd (by rw [hreturn]; rfl) hlast
        | cons d t =>
          intro h
          have hd := (List.forall_mem_cons.mp ht).1
          rw [Option.some.inj h] at hd
          exact absurd hd (by decide)
      rw [hreturn, List.cons_append, loop_return hs hrest]
      exact @ih s.endRow hs (allWritten_endRow hwritten (Or.inl hcell)) List.not_mem_nil ht hlast'
    · rw [List.cons_append, loop_add hquote (Or.inr ⟨hcomma, hfeed, hreturn⟩)]
      refine @ih (s.add [c]) hs ⟨hwritten.rows, hwritten.row⟩ ?_ ht hlast'
      intro hmem
      rcases List.mem_append.mp hmem with hmem | hmem
      · exact hcell hmem
      · exact hreturn (List.mem_singleton.mp hmem).symm

theorem getLast_of_trimmed (h : jsTrim t = t) : t.getLast? ≠ some '\r' := by
  intro hlast
  have hne : t ≠ [] := by
    rintro rfl
    cases hlast
  have hfix : (t.dropWhile isJsSpace).rdropWhile isJsSpace = t := h
  have hdrop : t.rdropWhile isJsSpace = t := by
    rw [← hfix]
    exact List.rdropWhile_idempotent ..
  have hspace := List.rdropWhile_eq_self_iff.mp hdrop hne
  rw [List.getLast?_eq_some_getLast hne, Option.some.injEq] at hlast
  rw [hlast] at hspace
  exact hspace (by decide)

/-- One cell, whatever is in it. -/
theorem loop_written (hs : s.inQuotes = false) (hwritten : s.AllWritten) (hcell : s.cell = [])
    (ht : Trimmed t) (hrest : AtEnd rest) :
    ∃ s', csvLoop (escapeCsvCell t ++ rest) s = csvLoop rest s' ∧ s'.inQuotes = false ∧
      s'.AllWritten ∧ Written s'.cell := by
  by_cases hquoting : t.any isQuoting = true
  · refine ⟨s.add t, loop_escaped_quoting hs hquoting hrest.no_quote, hs,
      ⟨hwritten.rows, hwritten.row⟩, ?_⟩
    have hadd : (s.add t).cell = t := by
      unfold CsvState.add
      rw [hcell, List.nil_append]
    rw [hadd]
    exact ht.imp_right fun htrim => ⟨hquoting, htrim⟩
  · have hplain : ∀ c ∈ t, isQuoting c = false := by
      intro c hc
      cases hcq : isQuoting c with
      | false => rfl
      | true => exact absurd (List.any_eq_true.mpr ⟨c, hc, hcq⟩) hquoting
    have hlast : t.getLast? ≠ some '\r' := by
      rcases ht with hreturn | htrim
      · exact fun h => hreturn (List.mem_of_getLast? h)
      · exact getLast_of_trimmed htrim
    unfold escapeCsvCell
    rw [if_neg hquoting]
    obtain ⟨s', hloop, hquotes, hall, hcell'⟩ :=
      @loop_cut s t rest hs hwritten (by rw [hcell]; exact List.not_mem_nil) hplain hlast
    exact ⟨s', hloop, hquotes, hall, Or.inl hcell'⟩

theorem loop_cells_written (hs : s.inQuotes = false) (hwritten : s.AllWritten)
    (hcell : Written s.cell) (hcells : ∀ cell ∈ cells, Trimmed cell) (hrest : AtEnd rest) :
    ∃ s', csvLoop (cells.flatMap (',' :: escapeCsvCell ·) ++ rest) s = csvLoop rest s' ∧
      s'.inQuotes = false ∧ s'.AllWritten ∧ Written s'.cell := by
  induction cells generalizing s with
  | nil => exact ⟨s, rfl, hs, hwritten, hcell⟩
  | cons cell cells ih =>
    obtain ⟨hfirst, hcells⟩ := List.forall_mem_cons.mp hcells
    obtain ⟨s', hloop, hquotes, hall, hcell'⟩ := @loop_written s.endCell cell
      (cells.flatMap (',' :: escapeCsvCell ·) ++ rest) hs (allWritten_endCell hwritten hcell) rfl
      hfirst (atEnd_cells hrest cells)
    obtain ⟨s'', hloop', hquotes', hall', hcell''⟩ := @ih s' hquotes hall hcell' hcells
    refine ⟨s'', ?_, hquotes', hall', hcell''⟩
    rw [List.flatMap_cons, List.append_assoc, List.cons_append, loop_comma hs, hloop, hloop']

theorem loop_row_written (hs : s.inQuotes = false) (hwritten : s.AllWritten) (hcell : s.cell = [])
    (hcells : ∀ cell ∈ cells, Trimmed cell) (hrest : AtEnd rest) :
    ∃ s', csvLoop (csvLine cells ++ rest) s = csvLoop rest s' ∧ s'.inQuotes = false ∧
      s'.AllWritten ∧ Written s'.cell := by
  cases cells with
  | nil => exact ⟨s, rfl, hs, hwritten, by rw [hcell]; exact written_nil⟩
  | cons first more =>
    obtain ⟨hfirst, hmore⟩ := List.forall_mem_cons.mp hcells
    obtain ⟨s', hloop, hquotes, hall, hcell'⟩ := @loop_written s first
      (more.flatMap (',' :: escapeCsvCell ·) ++ rest) hs hwritten hcell hfirst
      (atEnd_cells hrest more)
    obtain ⟨s'', hloop', hrest'⟩ := loop_cells_written hquotes hall hcell' hmore hrest
    refine ⟨s'', ?_, hrest'⟩
    unfold csvLine
    rw [List.map_cons, intercalate_cons, List.flatMap_map, List.append_assoc, hloop, hloop']

theorem loop_lines_written (hs : s.inQuotes = false) (hwritten : s.AllWritten)
    (hcell : Written s.cell) (hrows : ∀ row ∈ rows, ∀ cell ∈ row, Trimmed cell) :
    (csvLoop (rows.flatMap ('\n' :: csvLine ·)) s).endRow.AllWritten := by
  induction rows generalizing s with
  | nil => exact allWritten_endRow hwritten hcell
  | cons row rows ih =>
    obtain ⟨hrow, hrows⟩ := List.forall_mem_cons.mp hrows
    obtain ⟨s', hloop, hquotes, hall, hcell'⟩ := @loop_row_written s.endRow
      (rows.flatMap ('\n' :: csvLine ·)) row hs (allWritten_endRow hwritten hcell) rfl hrow
      (atEnd_lines rows)
    rw [List.flatMap_cons, List.cons_append, loop_feed hs, hloop]
    exact ih hquotes hall hcell' hrows

theorem Written.dropMark (h : Written t) : Written (dropMark t) := by
  rcases h with hreturn | ⟨hquoting, htrim⟩
  · refine Or.inl fun hmem => hreturn ?_
    cases t with
    | nil => exact hmem
    | cons c t =>
      rw [Panel.dropMark] at hmem
      split at hmem
      · exact List.mem_cons_of_mem _ hmem
      · exact hmem
  · rw [dropMark_of_trimmed htrim]
    exact Or.inr ⟨hquoting, htrim⟩

/-- **Every cell that is read** from rows of trimmed cells. -/
theorem parseCsvRows_written (hrows : ∀ row ∈ rows, ∀ cell ∈ row, Trimmed cell) :
    ∀ row ∈ parseCsvRows (csvText rows), ∀ cell ∈ row, Written cell := by
  have hstart : CsvState.AllWritten .start :=
    ⟨fun _ h => absurd h List.not_mem_nil, fun _ h => absurd h List.not_mem_nil⟩
  have hall : (csvLoop (csvText rows) .start).endRow.AllWritten := by
    cases rows with
    | nil => exact allWritten_endRow hstart written_nil
    | cons first more =>
      obtain ⟨hfirst, hmore⟩ := List.forall_mem_cons.mp hrows
      obtain ⟨s', hloop, hquotes, hall, hcell⟩ := @loop_row_written .start
        (more.flatMap ('\n' :: csvLine ·)) first rfl hstart rfl hfirst (atEnd_lines more)
      unfold csvText
      rw [List.map_cons, intercalate_cons, List.flatMap_map, hloop]
      exact loop_lines_written hquotes hall hcell hmore
  intro row hrow cell hcell
  obtain ⟨read, hread, rfl⟩ := List.mem_map.mp (List.mem_of_mem_filter hrow)
  obtain ⟨entry, hentry, rfl⟩ := List.mem_map.mp hcell
  exact (hall.rows read hread entry hentry).dropMark

end Written

end Infinito.Panel
