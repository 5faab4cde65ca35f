import Formula.Dictionary.Entry
import Formula.Engine
import Formula.Standard.Scripts

/-!
  **Notations for arithmetic.**

  Operators on numbers, relations between them, lists, groups and matrices.
-/

namespace Formula.Standard

variable {α : Type}

/-- Operators on numbers.  The product is written with a centred dot, because a cross between sets
    would be read back as a product of sets. -/
def operatorEntries : List (Entry α) :=
  [.infixOp "Add" "+" 275,
   .infixOp "Subtract" "-" 275,
   .prefixOp "Negate" "-" 275,
   (Entry.infixOp "Multiply" "\\cdot" 390).withTriggers ["\\times", "*"],
   (Entry.infixOp "Divide" "/" 660).withTriggers ["\\div"],
   (Entry.infixOp "Power" "^" 720).rightAssociative,
   (Entry.infixOp "Subscript" "_" 720).rightAssociative]

def relationEntries : List (Entry α) :=
  [.infixOp "Equal" "=" 260,
   (Entry.infixOp "NotEqual" "\\ne" 255).withTriggers ["\\neq"],
   (Entry.infixOp "Less" "<" 245).withTriggers ["\\lt"],
   (Entry.infixOp "LessEqual" "\\le" 241).withTriggers ["\\leq"],
   (Entry.infixOp "Greater" ">" 245).withTriggers ["\\gt"],
   (Entry.infixOp "GreaterEqual" "\\ge" 242).withTriggers ["\\geq"]]

/-- The comma, constants, groups, lists and matrices. -/
def structureEntries : List (Entry α) :=
  [(Entry.infixOp "Sequence" "," sequencePrecedence).withParse sequence,
   .symbol "Pi" "\\pi",
   .symbol "PositiveInfinity" "\\infty",
   .matchfix "Delimiter" "(" ")",
   .matchfix "Delimiter" "\\left(" "\\right)",
   .matchfix "List" "\\lbrack" "\\rbrack",
   .matchfix "List" "\\left\\lbrack" "\\right\\rbrack",
   (Entry.environment "Matrix" "matrix").withWrite .matrix]

def arithmeticEntries : List (Entry α) := operatorEntries ++ relationEntries ++ structureEntries

/-- The symbols that do not denote sets. -/
def arithmeticSymbols : List (String × Literal) :=
  [("Pi", .transcendentalNumbers),
   ("PositiveInfinity", .extendedRealNumbers),
   ("Nothing", .nothing),
   ("True", .booleans),
   ("False", .booleans)]

/-- The functions of arithmetic and those that put values together. -/
def arithmeticFunctions : List (String × FunctionInfo) :=
  [("Add", ⟨.numbers, true⟩),
   ("Multiply", ⟨.numbers, true⟩),
   ("Subtract", ⟨.numbers, false⟩),
   ("Negate", ⟨.numbers, false⟩),
   ("Divide", ⟨.numbers, false⟩),
   ("Power", ⟨.numbers, false⟩),
   ("Equal", ⟨.booleans, false⟩),
   ("NotEqual", ⟨.booleans, false⟩),
   ("Less", ⟨.booleans, false⟩),
   ("LessEqual", ⟨.booleans, false⟩),
   ("Greater", ⟨.booleans, false⟩),
   ("GreaterEqual", ⟨.booleans, false⟩),
   ("Sequence", ⟨.sequences, true⟩),
   ("List", ⟨.lists, false⟩),
   ("Matrix", ⟨.lists, false⟩),
   ("Tuple", ⟨.tuples, false⟩),
   ("Error", ⟨.void, false⟩)]

end Formula.Standard
