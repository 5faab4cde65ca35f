import Formula.Token

/-!
  **Joining pieces of LaTeX.**

  A command ends where its letters end, so a letter written right after it would become part of
  its name.  `join` puts pieces side by side and adds one blank exactly where that would happen.
-/

namespace Formula.Latex

/-- Does the text end in a command made of letters, so that one more letter would prolong it? -/
def endsWithCommand (text : List Char) : Bool :=
  let back := text.reverse
  back.head?.any Char.isAlpha && (back.dropWhile Char.isAlpha).head? == some '\\'

/-- Does the text start with a letter that a command before it would take in? -/
def startsWithLetter (text : List Char) : Bool := text.head?.any Char.isAlpha

/-- Write a piece after the text, with a blank between them where they would fuse. -/
def append (text piece : List Char) : List Char :=
  if startsWithLetter piece && endsWithCommand text then text ++ ' ' :: piece else text ++ piece

def joinChars (pieces : List (List Char)) : List Char := pieces.foldl append []

/-- Pieces of LaTeX side by side, apart by a blank only where a command would take in a letter. -/
def join (pieces : List String) : String :=
  String.ofList (joinChars (pieces.map String.toList))

/-- The source text of tokens. -/
def ofTokens (tokens : List Token) : String :=
  String.ofList (joinChars (tokens.map Token.toList))

end Formula.Latex
