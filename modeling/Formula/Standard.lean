import Formula.Latex.Writer
import Formula.Reader
import Formula.Standard.Arithmetic
import Formula.Standard.Sets

/-!
  **The standard engine.**

  The standard notations, with those for sets first: a cross between sets is tried as a product of
  sets before it is tried as a product of numbers.
-/

namespace Formula

variable {α : Type}

def standardEntries : List (Entry α) := Standard.setEntries ++ Standard.arithmeticEntries

def Dictionary.standard : Dictionary α :=
  match Dictionary.ofEntries standardEntries with
  | .ok d => d
  | .error _ => .empty

namespace Engine

/-- An engine with its own dictionary and options that knows the standard symbols and functions. -/
def ofDictionary (dictionary : Dictionary α) (options : Options) : Engine α where
  dictionary
  options
  symbols := Standard.setSymbols ++ Standard.arithmeticSymbols
  functions := Standard.setFunctions ++ Standard.arithmeticFunctions

def standard : Engine α := ofDictionary .standard {}

def latex (engine : Engine α) (e : Tree α) : String := Latex.write engine.dictionary e

end Engine

/-- The LaTeX of a `Set`, a `Range` or an `Interval`; nothing for other expressions. -/
def Latex.setNotation {α : Type} (d : Dictionary α) : Tree α → String
  | .call _ head ops => Latex.writeSetLike d head ops
  | _ => ""

/-- Is this a `Set`, a `Range` or an `Interval`? -/
def Latex.isSetLike {α : Type} (e : Tree α) : Bool :=
  e.hasHead "Set" || e.hasHead "Range" || e.hasHead "Interval"

/-- The LaTeX of a `Set`, a `Range` or an `Interval`, whatever the dictionary says about them. -/
def Engine.setLatex? {α : Type} (engine : Engine α) (e : Tree α) : Option String :=
  if Latex.isSetLike e then some (Latex.setNotation engine.dictionary e) else none

end Formula
