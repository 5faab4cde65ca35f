import Formula.Proofs.Latex.Atoms
import Formula.Proofs.Reader.Tables

/-!
  **Tables of atoms.**

  A cell is an atom or, for `Nothing`, no text at all, so the cells of a row have to be found from
  the separators alone.  That is possible for every row but the one of a single empty cell, which
  is no row.  A block around rows is an atom again.
-/

namespace Formula

open Latex Reader
open Token (scan)

variable {engine : Engine Unit}

/-! ### Separators -/

/-- What stands between two cells. -/
def cellSeparator : List Char := " & ".toList

/-- What stands between two rows. -/
def rowSeparator : List Char := "\\\\ ".toList

theorem skipSpace_cellSeparator (text : List Char) :
    skipSpace (scan (cellSeparator ++ text)) = .char '&' :: scan (' ' :: text) := by
  have hordinary : Ordinary '&' := ⟨by decide, by decide, by decide, by decide, by decide⟩
  show skipSpace (scan (' ' :: (['&'] ++ ' ' :: text))) = _
  rw [skipSpace_scan_blank, scans_char hordinary]
  rfl

theorem skipSpace_rowSeparator (text : List Char) :
    skipSpace (scan (rowSeparator ++ text)) = .command "\\\\" :: scan (' ' :: text) := by
  show skipSpace (scan (['\\', '\\'] ++ ' ' :: text)) = _
  rw [scans_sign (by decide)]
  rfl

theorem stops_cellSeparator (text : List Char) : Stops engine (cellSeparator ++ text) := by
  refine ⟨clear_blank _, ?_⟩
  rw [skipSpace_cellSeparator]
  rintro t ⟨rfl⟩
  left
  decide

/-- A row ends here. -/
structure RowEnds (engine : Engine Unit) (after : List Char) : Prop where
  stops : Stops engine after
  last : nextIs (Token.isChar '&') (skipSpace (scan after)) = false

/-- A table ends here. -/
structure TableEnds (engine : Engine Unit) (after : List Char) : Prop where
  row : RowEnds engine after
  last : nextIs (Token.isCommand "\\\\") (skipSpace (scan after)) = false

theorem rowEnds_rowSeparator (text : List Char) : RowEnds engine (rowSeparator ++ text) := by
  refine ⟨⟨clear_command _, ?_⟩, ?_⟩
  · rw [skipSpace_rowSeparator]
    rintro t ⟨rfl⟩
    left
    decide
  · rw [skipSpace_rowSeparator]
    rfl

/-! ### Cells -/

/-- What is read of a cell. -/
def cellOf (cell : Expr) : Option Expr := if isNothing cell then none else some cell

theorem getD_cellOf (cell : Expr) : (cellOf cell).getD (.symbol "Nothing") = cell := by
  unfold cellOf
  split
  · rename_i hnothing
    cases cell with
    | symbol name =>
      rw [isNothing, beq_iff_eq] at hnothing
      rw [hnothing]
      rfl
    | _ => cases hnothing
  · rfl

theorem isSome_cellOf {cell : Expr} (h : cell ≠ .symbol "Nothing") :
    (cellOf cell).isSome = true := by
  have hget := getD_cellOf cell
  cases hcell : cellOf cell with
  | some e => rfl
  | none =>
    rw [hcell] at hget
    exact absurd hget.symm h

/-- The text is read as the cell where every expression ends behind it. -/
def CellReads (engine : Engine Unit) (text : List Char) (cell : Expr) : Prop :=
  ∀ ⦃after : List Char⦄, Stops engine after →
    expression engine engine.host {} (scan (text ++ after)) =
      pure (cellOf cell, skipSpace (scan after))

theorem cellReads_nothing (h : engine.Accepted) :
    CellReads engine [] (.symbol "Nothing") := by
  intro after hafter
  exact hafter.nothing h {}

theorem Atom.cellReads (h : engine.Accepted) {text : List Char} {e : Expr}
    (he : Atom engine text e) (hcell : isNothing e = false) : CellReads engine text e := by
  intro after hafter
  rw [cellOf, hcell, he.read h proper_default hafter.clear (hafter.halts _)]
  rfl

/-! ### Rows -/

theorem rowFrom_blank (h : engine.Accepted) (row : List Expr) (text : List Char) :
    rowFrom engine row (scan (' ' :: text)) = rowFrom engine row (scan text) := by
  rw [← rowFrom_skipSpace h, skipSpace_scan_blank, rowFrom_skipSpace h]

/-- The text is read as a row of the cells. -/
def RowReads (engine : Engine Unit) (text : List Char) (row : List Expr) : Prop :=
  ∀ ⦃after : List Char⦄, RowEnds engine after →
    rowFrom engine [] (scan (text ++ after)) = pure (row, skipSpace (scan after))

/-- Cells behind others.  One that is not read is one all the same if there are others. -/
theorem rowFrom_cells (h : engine.Accepted) {text : List Char} {texts : List (List Char)}
    {cell : Expr} {cells : List Expr} (hcell : CellReads engine text cell)
    (hcells : List.Forall₂ (CellReads engine) texts cells) {row : List Expr}
    (hrow : row ≠ [] ∨ cell :: cells ≠ [.symbol "Nothing"]) {after : List Char}
    (hafter : RowEnds engine after) :
    rowFrom engine row (scan (cellSeparator.intercalate (text :: texts) ++ after)) =
      pure (row ++ cell :: cells, skipSpace (scan after)) := by
  induction hcells generalizing text cell row with
  | nil =>
    have hkept : ((cellOf cell).isSome || !row.isEmpty) = true := by
      rcases hrow with hrow | hrow
      · simp [hrow]
      · rw [isSome_cellOf (by simpa using hrow), Bool.true_or]
    have hlast := hafter.last
    rw [← skipSpace_skipSpace] at hlast
    rw [List.intercalate_singleton, rowFrom_last (hcell hafter.stops) hlast, hkept, if_pos rfl,
      getD_cellOf, skipSpace_skipSpace]
  | @cons text' cell' texts cells hcell' _ ih =>
    have htext : cellSeparator.intercalate (text :: text' :: texts) ++ after =
        text ++ (cellSeparator ++ (cellSeparator.intercalate (text' :: texts) ++ after)) := by
      simp only [List.intercalate_cons_cons, List.append_assoc]
    have hnext : skipSpace (skipSpace (scan (cellSeparator ++
        (cellSeparator.intercalate (text' :: texts) ++ after)))) =
          .char '&' :: scan (' ' :: (cellSeparator.intercalate (text' :: texts) ++ after)) := by
      rw [skipSpace_skipSpace, skipSpace_cellSeparator]
    have hrow' : row ++ [cell] ≠ [] := by simp
    rw [htext, rowFrom_next (hcell (stops_cellSeparator _)) h hnext, getD_cellOf,
      rowFrom_blank h, ih hcell' (Or.inl hrow'), List.append_assoc, List.singleton_append]

/-- **The cells of a row are found from the separators**, unless it is one empty cell. -/
theorem rowReads_cells (h : engine.Accepted) {texts : List (List Char)} {cells : List Expr}
    (hcells : List.Forall₂ (CellReads engine) texts cells) (hne : cells ≠ [])
    (hnothing : cells ≠ [.symbol "Nothing"]) :
    RowReads engine (cellSeparator.intercalate texts) cells := by
  intro after hafter
  cases hcells with
  | nil => exact absurd rfl hne
  | cons hcell hcells => exact rowFrom_cells h hcell hcells (Or.inr hnothing) hafter

/-! ### Tables -/

theorem tableFrom_blank (h : engine.Accepted) (table : List Expr) (text : List Char) :
    tableFrom engine table (scan (' ' :: text)) = tableFrom engine table (scan text) := by
  rw [← tableFrom_skipSpace h, skipSpace_scan_blank, tableFrom_skipSpace h]

/-- Rows behind others. -/
theorem tableFrom_rows (h : engine.Accepted) {text : List Char} {texts : List (List Char)}
    {row : List Expr} {rows : List (List Expr)} (hrow : RowReads engine text row)
    (hrows : List.Forall₂ (RowReads engine) texts rows) (hne : ∀ r ∈ row :: rows, r ≠ [])
    {after : List Char} (hafter : TableEnds engine after) (table : List Expr) :
    tableFrom engine table (scan (rowSeparator.intercalate (text :: texts) ++ after)) =
      pure (table ++ (row :: rows).map (engine.call "List"), skipSpace (scan after)) := by
  induction hrows generalizing text row table with
  | nil =>
    rw [List.intercalate_singleton,
      tableFrom_last (hrow hafter.row) (hne row List.mem_cons_self) hafter.last]
    rfl
  | @cons text' row' texts rows hrow' _ ih =>
    obtain ⟨hne_row, hne_rows⟩ := List.forall_mem_cons.mp hne
    have htext : rowSeparator.intercalate (text :: text' :: texts) ++ after =
        text ++ (rowSeparator ++ (rowSeparator.intercalate (text' :: texts) ++ after)) := by
      simp only [List.intercalate_cons_cons, List.append_assoc]
    rw [htext, tableFrom_next (hrow (rowEnds_rowSeparator _)) h hne_row
      (skipSpace_rowSeparator _), tableFrom_blank h, ih hrow' hne_rows, List.append_assoc]
    rfl

/-- **The rows of a table are read one by one.** -/
theorem tableFrom_of_rows (h : engine.Accepted) {texts : List (List Char)}
    {rows : List (List Expr)} (hrows : List.Forall₂ (RowReads engine) texts rows)
    (hne : ∀ row ∈ rows, row ≠ []) {after : List Char} (hafter : TableEnds engine after) :
    tableFrom engine [] (scan (rowSeparator.intercalate texts ++ after)) =
      pure (rows.map (engine.call "List"), skipSpace (scan after)) := by
  cases hrows with
  | nil =>
    have hnothing := hafter.row.stops.nothing h {}
    have hlast := hafter.row.last
    rw [← skipSpace_skipSpace] at hlast
    have hrow := rowFrom_last hnothing hlast []
    rw [skipSpace_skipSpace] at hrow
    exact tableFrom_empty hrow rfl hafter.last []
  | cons hrow hrows => exact tableFrom_rows h hrow hrows hne hafter []

/-! ### Blocks -/

/-- The text of a command with a name in braces. -/
def blockCommand (letters name : List Char) : List Char :=
  '\\' :: letters ++ '\x7b' :: name ++ ['\x7d']

/-- A block around the rows of a table. -/
def blockText (name text : List Char) : List Char :=
  blockCommand "begin".toList name ++ text ++ blockCommand "end".toList name

/-- The tokens of a name in braces. -/
def nameTokens (name : List Char) : List Token := .groupStart :: name.map .char ++ [.groupEnd]

theorem scans_blockCommand {letters name : List Char} (hne : letters ≠ [])
    (hletters : ∀ c ∈ letters, c.isAlpha = true) (hname : ∀ c ∈ name, c.isAlpha = true) :
    Scans (blockCommand letters name)
      (.command (String.ofList ('\\' :: letters)) :: nameTokens name) := by
  intro after
  have hopen : ∀ text, scan ('\x7b' :: text) = .groupStart :: scan text := scans_openBrace
  have hclose : ∀ text, scan ('\x7d' :: text) = .groupEnd :: scan text := scans_closeBrace
  have htext : blockCommand letters name ++ after =
      '\\' :: letters ++ '\x7b' :: (name ++ '\x7d' :: after) := by
    simp [blockCommand]
  rw [htext, scan_command hne hletters rfl, hopen,
    scans_chars fun c hc => ordinary_of_isAlpha (hname c hc), hclose]
  simp [nameTokens]

theorem scans_begin {name : List Char} (hname : ∀ c ∈ name, c.isAlpha = true) :
    Scans (blockCommand "begin".toList name) (.command "\\begin" :: nameTokens name) :=
  scans_blockCommand (by decide) (List.all_eq_true.mp (by decide)) hname

theorem scans_end {name : List Char} (hname : ∀ c ∈ name, c.isAlpha = true) :
    Scans (blockCommand "end".toList name) (.command "\\end" :: nameTokens name) :=
  scans_blockCommand (by decide) (List.all_eq_true.mp (by decide)) hname

theorem skipSpace_end {name : List Char} (hname : ∀ c ∈ name, c.isAlpha = true)
    (after : List Char) :
    skipSpace (scan (blockCommand "end".toList name ++ after)) =
      .command "\\end" :: (nameTokens name ++ scan after) := by
  rw [scans_end hname]
  rfl

/-- The end of a block ends its table. -/
theorem tableEnds_end {name : List Char} (hname : ∀ c ∈ name, c.isAlpha = true)
    (after : List Char) : TableEnds engine (blockCommand "end".toList name ++ after) := by
  have hskip := skipSpace_end hname after
  have hother : (Token.command "\\end").isCommand "\\\\" = false := by decide
  refine ⟨⟨⟨clear_command _, ?_⟩, ?_⟩, ?_⟩
  · rw [hskip]
    rintro t ⟨rfl⟩
    left
    decide
  · rw [hskip]
    rfl
  · rw [hskip]
    exact hother

/-- A text without blanks has none at its ends. -/
theorem Text.trim_eq_self {text : List Char} (h : ∀ c ∈ text, isBlank c = false) :
    trim text = text := by
  have hdrop : ∀ {t : List Char}, (∀ c ∈ t, isBlank c = false) → t.dropWhile isBlank = t := by
    intro t ht
    cases t with
    | nil => rfl
    | cons c t => rw [List.dropWhile_cons_of_neg (by simp [ht c List.mem_cons_self])]
  have hreverse : ∀ c ∈ text.reverse, isBlank c = false := by
    intro c hc
    exact h c (List.mem_reverse.mp hc)
  rw [trim, hdrop h, hdrop hreverse, List.reverse_reverse]

theorem Text.isBlank_of_isAlpha {c : Char} (h : c.isAlpha = true) : isBlank c = false := by
  have hcode := toNat_of_isAlpha h
  simp only [isBlank, blanks, List.contains_eq_mem, List.mem_cons, List.not_mem_nil, or_false,
    decide_eq_false_iff_not]
  omega

theorem groupText_name {name : List Char} (hname : ∀ c ∈ name, c.isAlpha = true)
    (rest : List Token) :
    groupText (nameTokens name ++ rest) = (some (String.ofList name), rest) := by
  have hchars : ∀ t ∈ name.map Token.char, (t != .groupEnd) = true := by
    intro t ht
    obtain ⟨c, -, rfl⟩ := List.mem_map.mp ht
    rfl
  have htext : (name.map Token.char).flatMap Token.toList = name := by
    rw [List.flatMap_map]
    simp [Token.toList]
  have htrim : Text.trim name = name :=
    Text.trim_eq_self fun c hc => Text.isBlank_of_isAlpha (hname c hc)
  have hskip : skipSpace (nameTokens name ++ rest) =
      .groupStart :: (name.map .char ++ .groupEnd :: rest) := by
    rw [nameTokens, List.append_assoc]
    rfl
  unfold groupText
  rw [hskip]
  simp only [List.takeWhile_append_of_pos hchars, List.dropWhile_append_of_pos hchars]
  simp [htext, htrim]

theorem environmentEnd?_end {name : List Char} (hname : ∀ c ∈ name, c.isAlpha = true)
    (after : List Char) :
    environmentEnd? (String.ofList name)
      (skipSpace (skipSpace (scan (blockCommand "end".toList name ++ after)))) =
        some (scan after) := by
  have hcommand : (Token.command "\\end").isCommand "\\end" = true := beq_self_eq_true _
  rw [skipSpace_skipSpace, skipSpace_end hname, environmentEnd?, if_pos hcommand,
    groupText_name hname]
  simp only [if_true]

/-- **A block around the rows of a table is an atom.** -/
theorem Atom.block (h : engine.Accepted) (hfree : engine.Free (.command "\\begin"))
    {name : List Char} (hname : ∀ c ∈ name, c.isAlpha = true) {entry : Entry Unit}
    (hentry : engine.dictionary.environment? (String.ofList name) = some entry)
    (hrule : entry.isCustom = false) {head : String} (hhead : entry.head? = some head)
    {texts : List (List Char)} {rows : List (List Expr)}
    (hrows : List.Forall₂ (RowReads engine) texts rows) (hne : ∀ row ∈ rows, row ≠ []) :
    Atom engine (blockText name (rowSeparator.intercalate texts))
      (engine.call head [engine.call "List" (rows.map (engine.call "List"))]) := by
  refine ⟨by simp [blockText, blockCommand], ?_⟩
  intro stop hstop after hafter
  have htext : blockText name (rowSeparator.intercalate texts) ++ after =
      blockCommand "begin".toList name ++ (rowSeparator.intercalate texts ++
        (blockCommand "end".toList name ++ after)) := by
    simp only [blockText, List.append_assoc]
  have hbegin : Opens engine (.command "\\begin") :=
    ⟨by decide, by decide, hfree.closer⟩
  rw [htext, scans_begin hname]
  apply expression_of_primary h
  exact primary_block hstop hbegin
    (Dictionary.candidates_of_no_readings hfree.readings _ _) (groupText_name hname _) hentry hrule
    hhead (tableFrom_of_rows h hrows hne (tableEnds_end hname after))
    (environmentEnd?_end hname after)

/-! ### What is written -/

/-- The text of a cell: `Nothing` has none. -/
def writeCell {α : Type} (d : Dictionary α) (cell : Tree α) : String :=
  if isNothing cell then "" else write d cell

theorem writeCells_eq_map {α : Type} (d : Dictionary α) (cells : List (Tree α)) :
    writeCells d cells = cells.map (writeCell d) := by
  induction cells with
  | nil => rfl
  | cons cell cells ih => rw [writeCells, ih, List.map_cons, writeCell]

theorem writeRows_calls {α : Type} (d : Dictionary α) (label : α) (head : String)
    (rows : List (List (Tree α))) :
    writeRows d (rows.map (.call label head)) =
      rows.map fun row => String.intercalate " & " (row.map (writeCell d)) := by
  induction rows with
  | nil => rfl
  | cons row rows ih =>
    rw [List.map_cons, writeRows, ih, writeCellsOf, writeCells_eq_map, List.map_cons]

/-- A cell is read as it is written if it is an atom or `Nothing`. -/
theorem cellReads_writeCell (h : engine.Accepted) {cell : Expr}
    (hcell : isNothing cell = false → Atom engine (engine.latex cell).toList cell) :
    CellReads engine (writeCell engine.dictionary cell).toList cell := by
  rcases hnothing : isNothing cell with _ | _
  · rw [writeCell, hnothing, if_neg Bool.false_ne_true]
    exact (hcell hnothing).cellReads h hnothing
  · have hvalue := getD_cellOf cell
    rw [cellOf, hnothing, if_pos rfl, Option.getD_none] at hvalue
    rw [writeCell, hnothing, if_pos rfl, ← hvalue, String.toList_empty]
    exact cellReads_nothing h

/-- A row is read as it is written if its cells are. -/
theorem rowReads_writeCell (h : engine.Accepted) {d : Dictionary Unit} {row : List Expr}
    (hcells : ∀ cell ∈ row, CellReads engine (writeCell d cell).toList cell) (hne : row ≠ [])
    (hnothing : row ≠ [.symbol "Nothing"]) :
    RowReads engine (String.intercalate " & " (row.map (writeCell d))).toList row := by
  have htexts : List.Forall₂ (CellReads engine)
      ((row.map (writeCell d)).map String.toList) row := by
    rw [List.forall₂_map_left_iff, List.forall₂_map_left_iff]
    exact List.forall₂_same.mpr hcells
  rw [String.toList_intercalate]
  exact rowReads_cells h htexts hne hnothing

end Formula
