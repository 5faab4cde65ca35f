import Formula.Decimal.Layout
import Formula.Dictionary
import Formula.Expr.MathJson
import Formula.Latex.Join

/-!
  **Writing an expression as LaTeX.**

  A call is written in the notation that the dictionary has under its name, with its first trigger.
  An operand that binds less tightly than the operator around it stands in parentheses, and so
  does one that binds equally tightly on the side to which the operator does not group.  What has
  no notation, or not with so many operands, is written as a named function with its arguments.
-/

namespace Formula

namespace Latex

/-- Floating-point numbers are written in full, without a point where none is needed.  Of two
    equally near decimals the larger one is written. -/
def decimals : Decimal.Layout where
  tie := .up
  positional _ := true
  marksWhole := false

/-- A number. -/
def ofNumber : Number → String
  | .integer value => String.ofList (MathJson.ofInt value)
  | .float value =>
    if value.isNaN then "\\operatorname\x7bNaN\x7d"
    else if value.isInf then if value > 0 then "\\infty" else "-\\infty"
    else decimals.ofFloat value

/-- A name that has no notation. -/
def operatorName (name : String) : String := "\\operatorname\x7b" ++ name ++ "\x7d"

/-- A symbol: by its notation, or as it is if it is a single character. -/
def ofSymbol {α : Type} (d : Dictionary α) (name : String) : String :=
  let trigger? :=
    match d.byName? name with
    | some entry => if entry.kind = Kind.symbol then entry.triggers.head? else none
    | none => none
  match trigger? with
  | some trigger => trigger.latex
  | none => if name.toList.length = 1 then name else operatorName name

/-- The source that an error was made from. -/
def errorSource {α : Type} (ops : List (Tree α)) : String :=
  match ops.find? (Tree.hasHead "LatexString") with
  | some source => ((source.ops.head?.bind Tree.textValue?)).getD ""
  | none => ""

/-- The arguments of a call, written one by one. -/
def arguments (args : List String) : String :=
  join ["\\left(", String.intercalate ", " args, "\\right)"]

/-- The precedence that decides whether an operand needs parentheses. -/
def operandPrecedence? {α : Type} (d : Dictionary α) (op : Tree α) : Option Nat :=
  match op.headName?.bind d.byName? with
  | some entry =>
    if entry.kind = Kind.infixOp ∨ entry.kind = Kind.prefixOp then some entry.precedence else none
  | none => none

/-- Does an operand need parentheses in an operator of the given precedence?  On the strict side
    also one of equal precedence does. -/
def needsParentheses {α : Type} (d : Dictionary α) (precedence : Nat) (strict : Bool)
    (op : Tree α) : Bool :=
  match operandPrecedence? d op with
  | some p => p < precedence || (strict && p == precedence)
  | none => false

/-- A text in parentheses if it needs them. -/
def parenthesize (needed : Bool) (latex : String) : String :=
  if needed then join ["\\left(", latex, "\\right)"] else latex

/-- Is the side of an operand the one to which the operator does not group? -/
def isStrictSide (associativity : Associativity) (first : Bool) : Bool :=
  match associativity with
  | .right => first
  | _ => !first

/-- A set given by its elements; each is followed by a comma. -/
def setOfElements (elements : List String) : String :=
  if elements.isEmpty then "\\emptyset"
  else join ("\\left\\lbrace" :: elements.map (· ++ " ,") ++ ["\\right\\rbrace"])

/-- A set given by a condition on its elements. -/
def setOfCondition (element condition : String) : String :=
  join ["\\left\\lbrace", element, "\\middle\\mid", condition, "\\right\\rbrace"]

/-- A range of whole numbers. -/
def range (low high : String) : String :=
  join ["\\mathopen\\lbrack", low, ", ", high, "\\mathclose\\rbrack"]

/-- An interval; at an open end the bracket points away. -/
def interval (openLow : Bool) (low : String) (openHigh : Bool) (high : String) : String :=
  join
    [if openLow then "\\mathopen\\rbrack" else "\\mathopen\\lbrack", low, ", ", high,
     if openHigh then "\\mathclose\\lbrack" else "\\mathclose\\rbrack"]

/-- The rows of a matrix, each already joined from its cells. -/
def matrix (rows : List String) : String :=
  join ["\\begin\x7bmatrix\x7d", String.intercalate "\\\\ " rows, "\\end\x7bmatrix\x7d"]

/-- Is this the symbol that an empty cell is read as? -/
def isNothing {α : Type} : Tree α → Bool
  | .symbol name => name == "Nothing"
  | _ => false

/-- The forms that a call of a named function is written in. -/
inductive Form where
  /-- The source of an error. -/
  | source
  /-- The name and the arguments. -/
  | named
  /-- A set, a range or an interval. -/
  | setLike
  /-- Rows and cells. -/
  | matrix
  /-- An operator between its operands. -/
  | between (trigger : String) (precedence : Nat) (associativity : Associativity)
  /-- An operator before its operand. -/
  | before (trigger : String) (precedence : Nat)
  /-- An operator after its operand. -/
  | after (trigger : String) (precedence : Nat)
  /-- A pair of triggers around the operands. -/
  | around (opening closing : String)
deriving DecidableEq, Repr

/-- The form of a call of a notation by the rule of its kind, if it has a trigger and takes so many
    operands. -/
def formByKind {α : Type} (entry : Entry α) (count : Nat) : Form :=
  match entry.triggers, entry.kind with
  | trigger :: _, .infixOp =>
    if 2 ≤ count then .between trigger.latex entry.precedence entry.associativity else .named
  | trigger :: _, .prefixOp =>
    if count = 1 then .before trigger.latex entry.precedence else .named
  | trigger :: _, .postfixOp =>
    if count = 1 then .after trigger.latex entry.precedence else .named
  | trigger :: _, .matchfix =>
    match entry.close with
    | some close => .around trigger.latex close.latex
    | none => .named
  | _, _ => .named

/-- The form of a call of `head` with so many operands. -/
def formOf {α : Type} (d : Dictionary α) (head : String) (count : Nat) : Form :=
  if head = "Error" then .source
  else
    match d.byName? head with
    | none => .named
    | some entry =>
      match entry.write with
      | .setLike => .setLike
      | .matrix => .matrix
      | .byKind => formByKind entry count

variable {α : Type} (d : Dictionary α)

mutual

/-- An expression as LaTeX. -/
def write : Tree α → String
  | .number n => ofNumber n
  | .symbol name => ofSymbol d name
  | .text value => "\\text\x7b" ++ value ++ "\x7d"
  | .applied _ head ops => join [write head, arguments (writeEach ops)]
  | .call _ head ops =>
    match formOf d head ops.length with
    | .source => errorSource ops
    | .named => join [operatorName head, arguments (writeEach ops)]
    | .setLike => writeSetLike head ops
    | .matrix => matrix (writeTable ops)
    | .between trigger precedence associativity =>
      join (writeOperands trigger precedence associativity true ops)
    | .before trigger precedence => join [trigger, writeOperand precedence ops]
    | .after trigger precedence => join [writeOperand precedence ops, trigger]
    | .around opening closing =>
      join [opening, String.intercalate ", " (writeEach ops), closing]

/-- Expressions one by one. -/
def writeEach : List (Tree α) → List String
  | [] => []
  | op :: rest => write op :: writeEach rest

/-- The one operand of an operator. -/
def writeOperand (precedence : Nat) : List (Tree α) → String
  | [] => ""
  | op :: _ => parenthesize (needsParentheses d precedence false op) (write op)

/-- The operands of an operator with its trigger between them. -/
def writeOperands (trigger : String) (precedence : Nat) (associativity : Associativity)
    (first : Bool) : List (Tree α) → List String
  | [] => []
  | op :: rest =>
    let strict := isStrictSide associativity first
    let operand := parenthesize (needsParentheses d precedence strict op) (write op)
    let others := writeOperands trigger precedence associativity false rest
    if first then operand :: others else trigger :: operand :: others

/-- The operands of a `Set`, a `Range` or an `Interval`.  Other heads have no such form. -/
def writeSetLike (head : String) (ops : List (Tree α)) : String :=
  if head = "Set" then
    match ops with
    | [] => setOfElements []
    | [element] => setOfElements [write element]
    | [element, condition] =>
      if condition.hasHead "Condition" then setOfCondition (write element) (writeContent condition)
      else setOfElements [write element, write condition]
    | first :: second :: others =>
      setOfElements (write first :: write second :: writeEach others)
  else if head = "Range" then
    match ops with
    | [] => range "" ""
    | [low] => range (write low) ""
    | low :: high :: _ => range (write low) (write high)
  else if head = "Interval" then
    match ops with
    | [] => interval false "" false ""
    | [low] =>
      interval (low.hasHead "Open")
        (if low.hasHead "Open" then writeContent low else write low) false ""
    | low :: high :: _ =>
      interval (low.hasHead "Open")
        (if low.hasHead "Open" then writeContent low else write low)
        (high.hasHead "Open")
        (if high.hasHead "Open" then writeContent high else write high)
  else ""

/-- The first operand of a call. -/
def writeContent : Tree α → String
  | .call _ _ ops => writeFirst ops
  | .applied _ _ ops => writeFirst ops
  | _ => ""

/-- The first of some expressions; nothing if there is none. -/
def writeFirst : List (Tree α) → String
  | [] => ""
  | op :: _ => write op

/-- The rows of the table that is the first operand of a matrix. -/
def writeTable : List (Tree α) → List String
  | [] => []
  | table :: _ => writeRowsOf table

/-- The rows of a table, each with its cells joined. -/
def writeRowsOf : Tree α → List String
  | .call _ _ rows => writeRows rows
  | .applied _ _ rows => writeRows rows
  | _ => []

/-- Rows one by one. -/
def writeRows : List (Tree α) → List String
  | [] => []
  | row :: rest => String.intercalate " & " (writeCellsOf row) :: writeRows rest

/-- The cells of a row. -/
def writeCellsOf : Tree α → List String
  | .call _ _ row => writeCells row
  | .applied _ _ row => writeCells row
  | _ => []

/-- Cells one by one.  `Nothing` is an empty cell. -/
def writeCells : List (Tree α) → List String
  | [] => []
  | cell :: rest => (if isNothing cell then "" else write cell) :: writeCells rest

end

end Latex

end Formula
