import Formula.Dictionary.Entry
import Formula.Engine
import Formula.Standard.Scripts

/-!
  **Notations for sets.**

  The sets of numbers, operators on sets, and relations between sets and elements.  In the
  triggers `\x7b` and `\x7d` are the two braces.
-/

namespace Formula.Standard

variable {α : Type}

/-- The symbols that denote sets. -/
def setConstants : List String :=
  ["AlgebraicNumber", "ComplexNumber", "ImaginaryNumber", "ExtendedComplexNumber", "EmptySet",
   "Integer", "RationalNumber", "RealNumber", "ExtendedRealNumber", "TranscendentalNumber",
   "NegativeNumber", "PositiveNumber", "NonPositiveNumber", "NegativeInteger",
   "PositiveInteger", "NonNegativeInteger"]

/-- A relation between sets.  Chains of them group to the right. -/
def relation (name trigger : String) : Entry α :=
  (Entry.infixOp name trigger 240).rightAssociative

/-- A relation with a square sign.  It binds more tightly than the round ones. -/
def squareRelation (name trigger : String) : Entry α :=
  (Entry.infixOp name trigger 265).rightAssociative

def setSymbolEntries : List (Entry α) :=
  [.symbol "AlgebraicNumber" "\\bar\\Q",
   .symbol "ComplexNumber" "\\C",
   .synonym .symbol "ComplexNumber" ["\\mathbb\x7bC\x7d"],
   .symbol "ImaginaryNumber" "\\imaginaryI\\R",
   .symbol "ExtendedComplexNumber" "\\bar\\C",
   .symbol "EmptySet" "\\emptyset",
   .synonym .symbol "EmptySet" ["\\varnothing"],
   .symbol "Integer" "\\Z",
   .synonym .symbol "Integer" ["\\mathbb\x7bZ\x7d"],
   .symbol "RationalNumber" "\\Q",
   .synonym .symbol "RationalNumber" ["\\mathbb\x7bQ\x7d"],
   .symbol "RealNumber" "\\R",
   .synonym .symbol "RealNumber" ["\\mathbb\x7bR\x7d"],
   .symbol "ExtendedRealNumber" "\\bar\\R",
   .symbol "TranscendentalNumber" "\\R-\\bar\\Q",
   .synonym .symbol "TranscendentalNumber" ["\\R\\backslash\\bar\\Q"],
   -- Real numbers by their sign.
   .symbol "NegativeNumber" "\\R^-",
   .synonym .symbol "NegativeNumber"
     ["\\R^\x7b-\x7d", "\\R_-", "\\R_\x7b-\x7d", "\\R^\x7b\\lt\x7d"],
   .symbol "PositiveNumber" "\\R^+",
   .synonym .symbol "PositiveNumber"
     ["\\R^\x7b+\x7d", "\\R_+", "\\R_\x7b+\x7d", "\\R^\x7b\\gt\x7d"],
   .symbol "NonPositiveNumber" "\\R^\x7b0-\x7d",
   .synonym .symbol "NonPositiveNumber" ["\\R^\x7b-0\x7d", "\\R^\x7b\\leq\x7d"],
   -- Integers by their sign.
   .symbol "NegativeInteger" "\\Z^-",
   .synonym .symbol "NegativeInteger"
     ["\\Z^\x7b-\x7d", "\\Z_-", "\\Z_\x7b-\x7d", "\\Z^\x7b\\lt\x7d"],
   .symbol "PositiveInteger" "\\Z^+",
   .synonym .symbol "PositiveInteger"
     ["\\Z^\x7b+\x7d", "\\Z_+", "\\Z_\x7b+\x7d", "\\Z^\x7b\\gt\x7d", "\\Z^\x7b\\gt0\x7d",
      "\\N^+", "\\N^\x7b+\x7d", "\\N^*", "\\N^\x7b*\x7d", "\\N^\\star", "\\N^\x7b\\star\x7d",
      "\\N_1", "\\N_\x7b1\x7d"],
   .symbol "NonNegativeInteger" "\\N",
   .synonym .symbol "NonNegativeInteger"
     ["\\Z^\x7b+0\x7d", "\\Z^\x7b\\geq\x7d", "\\Z^\x7b\\geq0\x7d", "\\Z^\x7b0+\x7d",
      "\\mathbb\x7bN\x7d", "\\N_0", "\\N_\x7b0\x7d"]]

/-- Operators on sets and the ways to write a set. -/
def setOperatorEntries : List (Entry α) :=
  [((Entry.infixOp "CartesianProduct" "\\times" cartesianPrecedence).rightAssociative).withParse
     cartesianProduct,
   .synonym .postfixOp "Complement" ["^\\complement"],
   .postfixOp "Complement" "^\x7b\\complement\x7d",
   .infixOp "Intersection" "\\cap" 350,
   .infixOp "Union" "\\cup" 350,
   .infixOp "SetMinus" "\\setminus" 650,
   .infixOp "SymmetricDifference" "\\triangle" 260,
   .writeOnly "Interval" .setLike,
   .writeOnly "Range" .setLike,
   (Entry.matchfix "Set" "\\lbrace" "\\rbrace").withWrite .setLike,
   .matchfix "Set" "\\\x7b" "\\\x7d",
   .matchfix "Set" "\\left\\lbrace" "\\right\\rbrace",
   .matchfix "Set" "\\left\\\x7b" "\\right\\\x7d",
   ((Entry.custom .infixOp "\\mid" condition).withTriggers ["\\middle\\mid"]).withPrecedence
     conditionPrecedence]

def setRelationEntries : List (Entry α) :=
  [(Entry.custom .infixOp "\\ni" reverseElement).rightAssociative.withPrecedence
     reverseElementPrecedence,
   .infixOp "Element" "\\in" 240,
   .infixOp "NotElement" "\\notin" 240,
   relation "NotSubset" "\\nsubset",
   relation "NotSuperset" "\\nsupset",
   relation "NotSubsetNotEqual" "\\nsubseteq",
   relation "NotSupersetNotEqual" "\\nsupseteq",
   squareRelation "SquareSubset" "\\sqsubset",
   squareRelation "SquareSubsetEqual" "\\sqsubseteq",
   squareRelation "SquareSuperset" "\\sqsupset",
   squareRelation "SquareSupersetEqual" "\\sqsupseteq",
   relation "Subset" "\\subset",
   ((Entry.synonym .infixOp "Subset" ["\\subsetneq", "\\varsubsetneqq"]).withPrecedence
     240).rightAssociative,
   .infixOp "SubsetEqual" "\\subseteq" 240,
   relation "Superset" "\\supset",
   ((Entry.synonym .infixOp "Superset" ["\\supsetneq", "\\varsupsetneq"]).withPrecedence
     240).rightAssociative,
   relation "SupersetEqual" "\\supseteq"]

def setEntries : List (Entry α) := setSymbolEntries ++ setOperatorEntries ++ setRelationEntries

/-- The symbols for sets, and the names of domains, which are sets of values.  `Nothing` is a
    value. -/
def setSymbols : List (String × Literal) :=
  (setConstants ++ (Literal.all.filter (· != .nothing)).map Literal.name).map (·, .sets)

/-- The functions whose values are sets, and the relations, which are true or false. -/
def setFunctions : List (String × FunctionInfo) :=
  ["Union", "Intersection"].map (·, ⟨.sets, true⟩) ++
  ["SetMinus", "Complement", "SymmetricDifference", "CartesianProduct", "Set", "Range",
   "Interval"].map (·, ⟨.sets, false⟩) ++
  ["Element", "NotElement", "Subset", "SubsetEqual", "Superset", "SupersetEqual", "NotSubset",
   "NotSuperset", "NotSubsetNotEqual", "NotSupersetNotEqual", "SquareSubset",
   "SquareSubsetEqual", "SquareSuperset", "SquareSupersetEqual"].map (·, ⟨.booleans, false⟩)

end Formula.Standard
