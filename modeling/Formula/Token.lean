/-!
  **Tokens.**

  A formula is read as a list of tokens.  A command keeps its leading backslash, braces are
  structural, every other character stands alone, and a run of blanks is one `space`.
-/

namespace Formula

/-- The smallest unit of LaTeX source that the reader looks at. -/
inductive Token where
  /-- A command with its backslash: `\frac`, `\{`, `\\`. -/
  | command (text : String)
  | groupStart
  | groupEnd
  /-- Any other single character. -/
  | char (c : Char)
  | space
deriving DecidableEq, Repr

namespace Token

/-- The characters a token stands for; a run of blanks is written as one blank. -/
def toList : Token → List Char
  | .command text => text.toList
  | .groupStart => ['{']
  | .groupEnd => ['}']
  | .char c => [c]
  | .space => [' ']

def text (t : Token) : String := String.ofList t.toList

def isSpace : Token → Bool
  | .space => true
  | _ => false

/-- Is this the command with the given text, backslash included? -/
def isCommand (name : String) : Token → Bool
  | .command text => text == name
  | _ => false

/-- Is this the character `c` standing alone? -/
def isChar (c : Char) : Token → Bool
  | .char d => d == c
  | _ => false

def isDigit : Token → Bool
  | .char c => c.isDigit
  | _ => false

end Token

end Formula
