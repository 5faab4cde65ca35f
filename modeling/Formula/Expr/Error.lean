import Formula.Expr

/-!
  **Errors inside expressions.**

  Reading a formula never fails.  What cannot be read becomes an `Error` call in the expression:
  `["Error", code, ["LatexString", source]]`, the code alone or with an argument as
  `["ErrorCode", code, argument]`.
-/

namespace Formula

/-- What went wrong at one place of a formula. -/
inductive ErrorCode where
  | unknownSymbol
  | unexpectedCommand
  | unknownEnvironment
  | unexpectedDelimiter
  | expectedClosingDelimiter
  | unexpectedOperator
  | unexpectedToken
  | missing
  | syntaxError
deriving DecidableEq, Repr

namespace ErrorCode

def name : ErrorCode → String
  | .unknownSymbol => "unknown-symbol"
  | .unexpectedCommand => "unexpected-command"
  | .unknownEnvironment => "unknown-environment"
  | .unexpectedDelimiter => "unexpected-delimiter"
  | .expectedClosingDelimiter => "expected-closing-delimiter"
  | .unexpectedOperator => "unexpected-operator"
  | .unexpectedToken => "unexpected-token"
  | .missing => "missing"
  | .syntaxError => "syntax-error"

def all : List ErrorCode :=
  [.unknownSymbol, .unexpectedCommand, .unknownEnvironment, .unexpectedDelimiter,
   .expectedClosingDelimiter, .unexpectedOperator, .unexpectedToken, .missing, .syntaxError]

def ofName? (name : String) : Option ErrorCode := all.find? (·.name == name)

end ErrorCode

namespace Tree

variable {α : Type} {m : Type → Type} [Monad m]

/-- An error call, with the argument and the source text that are given.  Each call in it takes
    its label from `fresh`. -/
def error (fresh : m α) (code : ErrorCode) (argument source : Option String) : m (Tree α) := do
  let codeText : Tree α := .text code.name
  let codePart : Tree α ← match argument with
    | some argument => do
      let label ← fresh
      pure (.call label "ErrorCode" [codeText, .text argument])
    | none => pure codeText
  let sourcePart : List (Tree α) ← match source with
    | some source => do
      let label ← fresh
      pure [.call label "LatexString" [.text source]]
    | none => pure []
  return .call (← fresh) "Error" (codePart :: sourcePart)

def isError (e : Tree α) : Bool := e.hasHead "Error"

def errorCode? (e : Tree α) : Option String :=
  if e.isError then
    match e.ops with
    | [] => none
    | code :: _ =>
      if code.hasHead "ErrorCode" then code.ops.head?.bind textValue? else code.textValue?
  else none

end Tree

end Formula
