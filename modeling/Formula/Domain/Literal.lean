/-!
  **Named domains.**

  A domain is a set of values.  The named ones form a hierarchy: `Anything` holds every value,
  `Void` none.  `Nothing` stands just above `Void` and lists the domains that have no other named
  domain below them, so that every value domain is reached upwards from the bottom.
-/

namespace Formula

inductive Literal where
  | anything
  | values
  | domains
  | void
  | nothing
  | maybeBooleans
  | booleans
  | strings
  | symbols
  | collections
  | lists
  | dictionaries
  | sequences
  | tuples
  | sets
  | functions
  | predicates
  | logicOperators
  | relationalOperators
  | numericFunctions
  | realFunctions
  | numbers
  | extendedComplexNumbers
  | complexNumbers
  | imaginaryNumbers
  | extendedRealNumbers
  | realNumbers
  | positiveNumbers
  | nonNegativeNumbers
  | nonPositiveNumbers
  | negativeNumbers
  | transcendentalNumbers
  | algebraicNumbers
  | rationalNumbers
  | integers
  | positiveIntegers
  | nonNegativeIntegers
  | nonPositiveIntegers
  | negativeIntegers
deriving DecidableEq, Repr

namespace Literal

def all : List Literal :=
  [.anything, .values, .domains, .void, .nothing, .maybeBooleans, .booleans, .strings, .symbols,
   .collections, .lists, .dictionaries, .sequences, .tuples, .sets, .functions, .predicates,
   .logicOperators, .relationalOperators, .numericFunctions, .realFunctions, .numbers,
   .extendedComplexNumbers, .complexNumbers, .imaginaryNumbers, .extendedRealNumbers,
   .realNumbers, .positiveNumbers, .nonNegativeNumbers, .nonPositiveNumbers, .negativeNumbers,
   .transcendentalNumbers, .algebraicNumbers, .rationalNumbers, .integers, .positiveIntegers,
   .nonNegativeIntegers, .nonPositiveIntegers, .negativeIntegers]

/-- The name as it is written in an expression. -/
def name : Literal → String
  | .anything => "Anything"
  | .values => "Values"
  | .domains => "Domains"
  | .void => "Void"
  | .nothing => "Nothing"
  | .maybeBooleans => "MaybeBooleans"
  | .booleans => "Booleans"
  | .strings => "Strings"
  | .symbols => "Symbols"
  | .collections => "Collections"
  | .lists => "Lists"
  | .dictionaries => "Dictionaries"
  | .sequences => "Sequences"
  | .tuples => "Tuples"
  | .sets => "Sets"
  | .functions => "Functions"
  | .predicates => "Predicates"
  | .logicOperators => "LogicOperators"
  | .relationalOperators => "RelationalOperators"
  | .numericFunctions => "NumericFunctions"
  | .realFunctions => "RealFunctions"
  | .numbers => "Numbers"
  | .extendedComplexNumbers => "ExtendedComplexNumbers"
  | .complexNumbers => "ComplexNumbers"
  | .imaginaryNumbers => "ImaginaryNumbers"
  | .extendedRealNumbers => "ExtendedRealNumbers"
  | .realNumbers => "RealNumbers"
  | .positiveNumbers => "PositiveNumbers"
  | .nonNegativeNumbers => "NonNegativeNumbers"
  | .nonPositiveNumbers => "NonPositiveNumbers"
  | .negativeNumbers => "NegativeNumbers"
  | .transcendentalNumbers => "TranscendentalNumbers"
  | .algebraicNumbers => "AlgebraicNumbers"
  | .rationalNumbers => "RationalNumbers"
  | .integers => "Integers"
  | .positiveIntegers => "PositiveIntegers"
  | .nonNegativeIntegers => "NonNegativeIntegers"
  | .nonPositiveIntegers => "NonPositiveIntegers"
  | .negativeIntegers => "NegativeIntegers"

/-- The domains that are listed as the immediate supersets of this one. -/
def parents : Literal → List Literal
  | .anything => []
  | .values => [.anything]
  | .domains => [.anything]
  | .void => [.nothing]
  | .nothing =>
    [.booleans, .strings, .symbols, .tuples, .lists, .dictionaries, .imaginaryNumbers,
     .transcendentalNumbers, .positiveIntegers, .negativeIntegers, .nonPositiveIntegers,
     .nonNegativeIntegers, .positiveNumbers, .negativeNumbers, .nonPositiveNumbers,
     .nonNegativeNumbers, .logicOperators, .relationalOperators]
  | .maybeBooleans => [.values]
  | .booleans => [.maybeBooleans]
  | .strings => [.values]
  | .symbols => [.values]
  | .collections => [.values]
  | .lists => [.collections]
  | .dictionaries => [.collections]
  | .sequences => [.collections]
  | .tuples => [.collections]
  | .sets => [.collections]
  | .functions => [.anything]
  | .predicates => [.functions]
  | .logicOperators => [.predicates]
  | .relationalOperators => [.predicates]
  | .numericFunctions => [.functions]
  | .realFunctions => [.numericFunctions]
  | .numbers => [.values]
  | .extendedComplexNumbers => [.numbers]
  | .complexNumbers => [.extendedComplexNumbers]
  | .imaginaryNumbers => [.complexNumbers]
  | .extendedRealNumbers => [.extendedComplexNumbers]
  | .realNumbers => [.complexNumbers, .extendedRealNumbers]
  | .positiveNumbers => [.nonNegativeNumbers]
  | .nonNegativeNumbers => [.realNumbers]
  | .nonPositiveNumbers => [.realNumbers]
  | .negativeNumbers => [.nonPositiveNumbers]
  | .transcendentalNumbers => [.realNumbers]
  | .algebraicNumbers => [.realNumbers]
  | .rationalNumbers => [.algebraicNumbers]
  | .integers => [.rationalNumbers]
  | .positiveIntegers => [.nonNegativeIntegers]
  | .nonNegativeIntegers => [.integers]
  | .nonPositiveIntegers => [.integers]
  | .negativeIntegers => [.nonPositiveIntegers]

def ofName? (name : String) : Option Literal := all.find? (·.name == name)

def index (l : Literal) : Nat := all.idxOf l

end Literal

end Formula
