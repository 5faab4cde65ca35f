import Formula.Proofs.Latex.Tables
import Formula.Proofs.Standard.Operators

/-!
  **Matrices.**

  A matrix is written as a block, with its rows apart by `\\` and the cells of a row by `&`.  Its
  rows may have different lengths and an empty cell leaves no trace but the separators at its
  sides.  A matrix is an atom as soon as its cells are, so a nesting of matrices is read by
  induction.
-/

namespace Formula

open Latex Reader

/-- A matrix with the rows of a table. -/
def matrixOf (table : List (List Expr)) : Expr :=
  .call () "Matrix" [.call () "List" (table.map (.call () "List"))]

/-! ### The LaTeX of a matrix -/

theorem latex_matrixOf (table : List (List Expr)) :
    Engine.standard.latex (matrixOf table) =
      matrix (table.map fun row =>
        String.intercalate " & " (row.map (writeCell Engine.standard.dictionary))) := by
  have hnamed : (Engine.standard : Engine Unit).dictionary.byName? "Matrix" =
      some ((Entry.environment "Matrix" "matrix").withWrite .matrix) := by
    rw [Dictionary.indexed_standard.name_eq]
    rfl
  have hform : formOf (Engine.standard : Engine Unit).dictionary "Matrix" 1 = .matrix := by
    rw [formOf, if_neg (by decide), hnamed]
    rfl
  rw [matrixOf, Engine.latex, write, List.length_singleton, hform]
  simp only [writeTable, writeRowsOf, writeRows_calls]

theorem matrix_toList (rows : List String) :
    (matrix rows).toList =
      blockText "matrix".toList (rowSeparator.intercalate (rows.map String.toList)) := by
  have hbegin : endsWithCommand "\\begin\x7bmatrix\x7d".toList = false := by decide
  have hend : startsWithLetter "\\end\x7bmatrix\x7d".toList = false := by decide
  rw [matrix, join, String.toList_ofList]
  simp only [List.map_cons, List.map_nil, joinChars, List.foldl_cons, List.foldl_nil, nil_append,
    append_of_not_command hbegin, append_of_start hend, String.toList_intercalate]
  rfl

/-! ### Nested matrices -/

theorem free_begin : (Engine.standard : Engine Unit).Free (.command "\\begin") := by
  constructor
  · rw [Dictionary.indexed_standard.readings_eq]
    exact List.isEmpty_iff.mp (by decide +kernel)
  · rw [Dictionary.indexed_standard.closer_eq]
    decide +kernel

theorem environment_matrix :
    (Engine.standard : Engine Unit).dictionary.environment? (String.ofList "matrix".toList) =
      some ((Entry.environment "Matrix" "matrix").withWrite .matrix) := by
  rw [Dictionary.indexed_standard.environment_eq]
  rfl

/-- The reader builds the matrix of a table from its cells. -/
theorem call_matrixOf {table : List (List Expr)}
    (hbare : ∀ row ∈ table, ∀ cell ∈ row, cell.isGrouping = false) :
    Engine.standard.call "Matrix"
      [Engine.standard.call "List" (table.map (Engine.standard.call "List"))] =
        matrixOf table := by
  have hlist : ∀ rows : List Expr, (∀ row ∈ rows, row.isGrouping = false) →
      Engine.standard.call "List" rows = .call () "List" rows := by
    intro rows h
    exact Engine.call_plain rfl h
  have hcall : ∀ ops : List Expr, (Tree.call () "List" ops).isGrouping = false := by
    intro ops
    simp [Tree.isGrouping_call]
  have hrows : table.map (Engine.standard.call "List") = table.map (.call () "List") := by
    apply List.map_congr_left
    intro row hrow
    exact hlist row (hbare row hrow)
  have hlists : ∀ row ∈ table.map (Tree.call () "List"), row.isGrouping = false := by
    intro row hrow
    obtain ⟨cells, -, rfl⟩ := List.mem_map.mp hrow
    exact hcall cells
  rw [hrows, hlist _ hlists]
  apply Engine.call_plain rfl
  simpa using hcall (table.map (.call () "List"))

/-- A matrix of cells that are read is an atom, if each row has a cell and none is a single empty
    one. -/
theorem atom_matrixOf {table : List (List Expr)}
    (hrows : ∀ row ∈ table, row ≠ [] ∧ row ≠ [.symbol "Nothing"])
    (hbare : ∀ row ∈ table, ∀ cell ∈ row, cell.isGrouping = false)
    (hcells : ∀ row ∈ table, ∀ cell ∈ row,
      CellReads Engine.standard (writeCell Engine.standard.dictionary cell).toList cell) :
    Atom Engine.standard (Engine.standard.latex (matrixOf table)).toList (matrixOf table) := by
  have hread : List.Forall₂ (RowReads Engine.standard)
      (table.map fun row => (String.intercalate " & "
        (row.map (writeCell (Engine.standard : Engine Unit).dictionary))).toList) table := by
    rw [List.forall₂_map_left_iff, List.forall₂_same]
    intro row hrow
    obtain ⟨hne, hnothing⟩ := hrows row hrow
    exact rowReads_writeCell Engine.accepted_standard (hcells row hrow) hne hnothing
  have hatom := Atom.block Engine.accepted_standard free_begin
    (List.all_eq_true.mp (by decide)) environment_matrix rfl rfl hread
    fun row hrow => (hrows row hrow).1
  rw [call_matrixOf hbare] at hatom
  rw [latex_matrixOf, matrix_toList, List.map_map]
  exact hatom

/-- What stands in a cell: a letter, a whole number that fits, nothing, or a matrix of such cells
    that has no row without cells and none of a single empty cell. -/
inductive MatrixCell : Expr → Prop where
  | letter {c : Char} (hc : c.isAlpha = true) : MatrixCell (.symbol (String.singleton c))
  | integer {n : Nat} (hn : n ≤ largestInteger) : MatrixCell (.number (.integer n))
  | nothing : MatrixCell (.symbol "Nothing")
  | matrix {table : List (List Expr)}
      (hrows : ∀ row ∈ table, row ≠ [] ∧ row ≠ [.symbol "Nothing"])
      (hcells : ∀ row ∈ table, ∀ cell ∈ row, MatrixCell cell) : MatrixCell (matrixOf table)

namespace MatrixCell

theorem isGrouping {e : Expr} (h : MatrixCell e) : e.isGrouping = false := by
  cases h with
  | letter hc => rfl
  | integer hn => rfl
  | nothing => rfl
  | matrix hrows hcells => simp [matrixOf, Tree.isGrouping_call]

/-- **A cell is an atom**, unless it is empty. -/
theorem atom {e : Expr} (h : MatrixCell e) (hcell : isNothing e = false) :
    Atom Engine.standard (Engine.standard.latex e).toList e := by
  induction h with
  | letter hc => exact (readAs_letter_standard hc).atom Engine.accepted_standard rfl
  | integer hn => exact (readAs_integer_standard hn).atom Engine.accepted_standard rfl
  | nothing => cases hcell
  | @matrix table hrows hcells ih =>
    apply atom_matrixOf hrows
    · intro row hrow cell hcell
      exact (hcells row hrow cell hcell).isGrouping
    · intro row hrow cell hcell
      exact cellReads_writeCell Engine.accepted_standard (ih row hrow cell hcell)

end MatrixCell

/-- **Matrices are read back.**  A matrix of letters, whole numbers, empty cells and matrices of
    these, with any number of rows of any lengths, at any depth, is what its LaTeX is read as, if no
    row is without cells or a single empty cell. -/
theorem parse_latex_matrixOf {table : List (List Expr)}
    (hrows : ∀ row ∈ table, row ≠ [] ∧ row ≠ [.symbol "Nothing"])
    (hcells : ∀ row ∈ table, ∀ cell ∈ row, MatrixCell cell) :
    Engine.standard.parse (Engine.standard.latex (matrixOf table)) = matrixOf table :=
  ((MatrixCell.matrix hrows hcells).atom rfl).parse_eq Engine.accepted_standard

/-- A table whose rows have different lengths, with empty cells at the start, at the end and alone,
    and with a matrix without rows and one of one row in cells. -/
def raggedTable : List (List Expr) :=
  [[.symbol "Nothing", .symbol "a", .symbol "Nothing"],
   [.number (.integer 7)],
   [.symbol "Nothing", .symbol "Nothing"],
   [matrixOf [], matrixOf [[.symbol "b", .symbol "Nothing"]]]]

theorem parse_latex_matrixOf_ragged :
    (∀ row ∈ raggedTable, row ≠ [] ∧ row ≠ [.symbol "Nothing"]) ∧
      (∀ row ∈ raggedTable, ∀ cell ∈ row, MatrixCell cell) ∧
      Engine.standard.parse (Engine.standard.latex (matrixOf raggedTable)) =
        matrixOf raggedTable := by
  have hletter : ∀ c : Char, c.isAlpha = true → MatrixCell (.symbol (String.singleton c)) :=
    fun c hc => .letter hc
  have ha : MatrixCell (.symbol "a") := hletter 'a' rfl
  have hb : MatrixCell (.symbol "b") := hletter 'b' rfl
  have hseven : MatrixCell (.number (.integer 7)) := @MatrixCell.integer 7 (by decide)
  have hempty : MatrixCell (matrixOf []) := .matrix (by simp) (by simp)
  have hrow : MatrixCell (matrixOf [[.symbol "b", .symbol "Nothing"]]) :=
    .matrix (by simp) (by simp [hb, MatrixCell.nothing])
  have hrows : ∀ row ∈ raggedTable, row ≠ [] ∧ row ≠ [.symbol "Nothing"] := by
    simp [raggedTable]
  have hcells : ∀ row ∈ raggedTable, ∀ cell ∈ row, MatrixCell cell := by
    simp [raggedTable, ha, hseven, hempty, hrow, MatrixCell.nothing]
  exact ⟨hrows, hcells, parse_latex_matrixOf hrows hcells⟩

end Formula
