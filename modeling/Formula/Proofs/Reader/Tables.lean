import Formula.Proofs.Reader.Climb

/-!
  **Tables without bounds.**

  The loop over the rows of a table and the loop over the cells of a row pass a separator in each
  round, so the bounds on their rounds are never met.  This module gives the steps of both, and
  with them what a block is read as.
-/

namespace Formula

namespace Reader

variable {engine : Engine Unit}

/-! ### Cells -/

/-- The cells of a row from here on, with those already read. -/
def rowFrom (engine : Engine Unit) (row : List Expr) (rest : List Token) :
    Id (List Expr × List Token) :=
  cells engine.host (expression engine engine.host) (rest.length + 1) row rest

/-- More fuel than tokens is as good as any other. -/
theorem cells_eq_rowFrom (h : engine.Accepted) {fuel : Nat} {row : List Expr}
    {rest : List Token} (hfuel : rest.length < fuel) :
    cells engine.host (expression engine engine.host) fuel row rest = rowFrom engine row rest := by
  exact (cells_settles (setting_accepted h) (nested_self h fuel) (fun _ _ => trivial) hfuel hfuel
    (Nat.lt_succ_self _)).1

/-- The cells of a row stand behind its start. -/
theorem rowFrom_suffix (h : engine.Accepted) {row row' : List Expr} {rest after : List Token}
    (hrow : rowFrom engine row rest = pure (row', after)) : after <:+ rest := by
  have hcollected := (cells_settles (setting_accepted h) (nested_self h (rest.length + 1))
    (fun x (_ : x ∈ row) => trivial) (Nat.lt_succ_self rest.length) (Nat.lt_succ_self _)
    (Nat.lt_succ_self _)).2
  unfold rowFrom at hrow
  rw [hrow] at hcollected
  exact hcollected.2

/-- Blanks in front of a cell are passed. -/
theorem rowFrom_skipSpace (h : engine.Accepted) (row : List Expr) (rest : List Token) :
    rowFrom engine row (skipSpace rest) = rowFrom engine row rest := by
  have hlt : (skipSpace rest).length < rest.length + 1 :=
    Nat.lt_succ_of_le (skipSpace_suffix rest).length_le
  rw [← cells_eq_rowFrom h hlt, rowFrom, cells, cells, expression_skipSpace h]

section

variable {cell : Option Expr} {rest after : List Token}
  (hcell : expression engine engine.host {} rest = pure (cell, after))

include hcell

/-- Without a separator behind it a cell is the last one of its row. -/
theorem rowFrom_last (hlast : nextIs (Token.isChar '&') (skipSpace after) = false)
    (row : List Expr) :
    rowFrom engine row rest =
      pure (if cell.isSome || !row.isEmpty then row ++ [cell.getD (.symbol "Nothing")] else row,
        skipSpace after) := by
  rw [rowFrom, cells]
  simp only [hcell, pure_bind, hlast, Bool.or_false, Bool.false_eq_true, if_false]

/-- The row goes on behind a separator. -/
theorem rowFrom_next (h : engine.Accepted) {tail : List Token}
    (hnext : skipSpace after = .char '&' :: tail) (row : List Expr) :
    rowFrom engine row rest = rowFrom engine (row ++ [cell.getD (.symbol "Nothing")]) tail := by
  have hseparator : nextIs (Token.isChar '&') (.char '&' :: tail) = true := rfl
  have hlt : tail.length < rest.length := by
    have houtcome := (expression_settles (setting_accepted h) {} rest).2
    rw [hcell] at houtcome
    have hsuffix : skipSpace after <:+ rest := (skipSpace_suffix after).trans houtcome.suffix
    rw [hnext] at hsuffix
    exact hsuffix.length_le
  rw [rowFrom, cells]
  simp only [hcell, pure_bind, hnext, hseparator, Bool.or_true, Bool.true_or, if_true,
    List.drop_one, List.tail_cons]
  exact cells_eq_rowFrom h hlt

end

/-! ### Rows -/

/-- The rows of a table from here on, with those already read. -/
def tableFrom (engine : Engine Unit) (table : List Expr) (rest : List Token) :
    Id (List Expr × List Token) :=
  rows engine engine.host (expression engine engine.host) (rest.length + 1) table rest

theorem rows_eq_tableFrom (h : engine.Accepted) {fuel : Nat} {table : List Expr}
    {rest : List Token} (hfuel : rest.length < fuel) :
    rows engine engine.host (expression engine engine.host) fuel table rest =
      tableFrom engine table rest := by
  exact (rows_settles (setting_accepted h) (nested_self h fuel) (fun _ _ => trivial) hfuel hfuel
    (Nat.lt_succ_self _)).1

/-- Blanks in front of a row are passed. -/
theorem tableFrom_skipSpace (h : engine.Accepted) (table : List Expr) (rest : List Token) :
    tableFrom engine table (skipSpace rest) = tableFrom engine table rest := by
  have hlt : (skipSpace rest).length < rest.length + 1 :=
    Nat.lt_succ_of_le (skipSpace_suffix rest).length_le
  have hrow := rowFrom_skipSpace h [] rest
  unfold rowFrom at hrow
  rw [← rows_eq_tableFrom h hlt, tableFrom, rows, rows, hrow]

section

variable {row : List Expr} {rest after : List Token}
  (hrow : rowFrom engine [] rest = pure (row, after))

include hrow

/-- A table that ends without a row. -/
theorem tableFrom_empty (hempty : row = [])
    (hlast : nextIs (Token.isCommand "\\\\") after = false) (table : List Expr) :
    tableFrom engine table rest = pure (table, after) := by
  subst hempty
  unfold rowFrom at hrow
  rw [tableFrom, rows]
  simp only [hrow, pure_bind, List.isEmpty_nil, hlast, Bool.false_eq_true, if_false, if_true]

/-- Without a separator behind it a row is the last one of its table. -/
theorem tableFrom_last (hne : row ≠ [])
    (hlast : nextIs (Token.isCommand "\\\\") after = false) (table : List Expr) :
    tableFrom engine table rest = pure (table ++ [engine.call "List" row], after) := by
  have hempty : row.isEmpty = false := by simpa using hne
  unfold rowFrom at hrow
  rw [tableFrom, rows]
  simp only [hrow, pure_bind, hempty, hlast, Bool.false_eq_true, if_false, build_eq]

/-- The table goes on behind a separator. -/
theorem tableFrom_next (h : engine.Accepted) (hne : row ≠ []) {tail : List Token}
    (hnext : after = .command "\\\\" :: tail) (table : List Expr) :
    tableFrom engine table rest = tableFrom engine (table ++ [engine.call "List" row]) tail := by
  subst hnext
  have hempty : row.isEmpty = false := by simpa using hne
  have hseparator : nextIs (Token.isCommand "\\\\") (.command "\\\\" :: tail) = true := by
    simp [nextIs, Token.isCommand]
  have hlt : tail.length < rest.length := (rowFrom_suffix h hrow).length_le
  unfold rowFrom at hrow
  rw [tableFrom, rows]
  simp only [hrow, pure_bind, hempty, hseparator, Bool.false_eq_true, if_false, if_true, build_eq,
    List.drop_one, List.tail_cons]
  exact rows_eq_tableFrom h hlt

end

/-! ### Blocks -/

/-- A block whose end stands behind its table is read as a call with the table. -/
theorem primary_block {stop : Terminator} (hstop : Proper engine stop)
    (hbegin : Opens engine (.command "\\begin")) {tail : List Token}
    (hfound : engine.dictionary.candidates (.command "\\begin" :: tail)
      [.symbol, .prefixOp, .matchfix] = [])
    {name : String} {inside : List Token} (hname : groupText tail = (some name, inside))
    {entry : Entry Unit} (hentry : engine.dictionary.environment? name = some entry)
    (hrule : entry.isCustom = false) {head : String} (hhead : entry.head? = some head)
    {table : List Expr} {after rest : List Token}
    (htable : tableFrom engine [] inside = pure (table, after))
    (hend : environmentEnd? name (skipSpace after) = some rest) :
    primary engine engine.host (expression engine engine.host) stop (.command "\\begin" :: tail) =
      pure (some (engine.call head [engine.call "List" table]), rest) := by
  have htabular : tabular engine engine.host (expression engine engine.host) inside =
      pure (engine.call "List" table, after) := by
    unfold tableFrom at htable
    rw [tabular, htable]
    simp only [pure_bind, build_eq]
  have hbody : blockBody engine engine.host (expression engine engine.host) entry inside =
      pure (some (engine.call head [engine.call "List" table]), after) := by
    unfold blockBody
    split
    · rename_i handler hparse
      rw [Entry.isCustom, hparse] at hrule
      cases hrule
    · simp only [hhead, htabular, pure_bind, build_eq]
  have hblock : environment engine engine.host (expression engine engine.host)
      (.command "\\begin" :: tail) =
        pure (engine.call head [engine.call "List" table], rest) := by
    rw [environment, List.drop_one, List.tail_cons, hname]
    simp only [hentry, hbody, pure_bind, blockEnd, hend]
  have hcommand : (Token.command "\\begin").isCommand "\\begin" = true := beq_self_eq_true _
  apply primary_unclaimed hstop hbegin hfound
  rw [unclaimed, if_pos hcommand, hblock]
  rfl

end Reader

end Formula
