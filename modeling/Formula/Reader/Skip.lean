import Formula.Text
import Formula.Token

/-!
  **What the reader passes over.**

  A place in the formula is the list of the tokens from there on.  The functions here move from a
  place to a later one without reading an expression: over blanks, over a group, to the end of a
  block that cannot be read.
-/

namespace Formula.Reader

/-- The commands that only make space. -/
def spacingCommands : List String := ["\\,", "\\;", "\\:", "\\!", "\\ ", "\\quad", "\\qquad"]

/-- Is the token a blank or a spacing command? -/
def isSpacing : Token → Bool
  | .space => true
  | .command text => spacingCommands.contains text
  | _ => false

def skipSpace (rest : List Token) : List Token := rest.dropWhile isSpacing

/-- Tokens that end every expression: the end of a group, of a cell, of a row, of a block. -/
def isBoundary : Token → Bool
  | .groupEnd => true
  | .char c => c == '&'
  | .command text => text == "\\right" || text == "\\end" || text == "\\\\"
  | _ => false

def nextIs (test : Token → Bool) (rest : List Token) : Bool := rest.head?.any test

/-- The tokens from one place up to a later one; none if it is not later. -/
def between (start rest : List Token) : List Token := start.take (start.length - rest.length)

/-- The text of a group, without the blanks at its ends, and the place after it.  A group that is
    not closed reaches to the end.  Without a group only the blanks before it are passed. -/
def groupText (rest : List Token) : Option String × List Token :=
  match skipSpace rest with
  | .groupStart :: inside =>
    let body := inside.takeWhile (· != .groupEnd)
    let after := (inside.dropWhile (· != .groupEnd)).drop 1
    (some (String.ofList (Text.trim (body.flatMap Token.toList))), after)
  | other => (none, other)

/-- The place after the group that is `depth` levels deep here, or the end. -/
def skipGroup : Nat → List Token → List Token
  | _, [] => []
  | depth, .groupStart :: rest => skipGroup (depth + 1) rest
  | depth, .groupEnd :: rest => if depth ≤ 1 then rest else skipGroup (depth - 1) rest
  | depth, _ :: rest => skipGroup depth rest

theorem length_skipGroup_le (depth : Nat) (rest : List Token) :
    (skipGroup depth rest).length ≤ rest.length := by
  fun_induction skipGroup depth rest <;> simp_all <;> omega

/-- The place after the groups that stand here one right after the other. -/
def skipGroups : List Token → List Token
  | .groupStart :: rest => skipGroups (skipGroup 1 rest)
  | rest => rest
termination_by rest => rest.length
decreasing_by
  have := length_skipGroup_le 1 rest
  simp only [List.length_cons]; omega

/-- The place after the `\end{…}` that closes the block which is `depth` levels deep here. -/
def skipEnvironment : Nat → List Token → List Token
  | _, [] => []
  | depth, token :: rest =>
    if token.isCommand "\\begin" then skipEnvironment (depth + 1) rest
    else if token.isCommand "\\end" then
      if depth ≤ 1 then (groupText rest).2 else skipEnvironment (depth - 1) rest
    else skipEnvironment depth rest

/-- The place after a delimiter, with the blanks before it. -/
def skipDelimiter (rest : List Token) : List Token := (skipSpace rest).drop 1

/-- The place after the `\right` and its delimiter that close the `\left` which is `depth` levels
    deep here. -/
def skipLeft : Nat → List Token → List Token
  | _, [] => []
  | depth, token :: rest =>
    if token.isCommand "\\left" then skipLeft (depth + 1) rest
    else if token.isCommand "\\right" then
      if depth ≤ 1 then skipDelimiter rest else skipLeft (depth - 1) rest
    else skipLeft depth rest

/-- The place after `\end{name}`, if that stands here. -/
def environmentEnd? (name : String) (rest : List Token) : Option (List Token) :=
  match rest with
  | token :: after =>
    if token.isCommand "\\end" then
      match groupText after with
      | (some text, after) => if text = name then some after else none
      | (none, _) => none
    else none
  | [] => none

end Formula.Reader
