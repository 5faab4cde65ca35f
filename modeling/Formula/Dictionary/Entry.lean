import Formula.Script
import Formula.Token.Lexer

/-!
  **Notations.**

  An entry of the dictionary is one notation: how it is written, what kind of notation it is, how
  tightly it binds, which head it produces, and how it is read and written.
-/

namespace Formula

inductive Kind where
  | prefixOp
  | infixOp
  | postfixOp
  /-- A pair of triggers around an expression. -/
  | matchfix
  | symbol
  /-- A named block between `\begin` and `\end`. -/
  | environment
deriving DecidableEq, Repr

/-- How operators of the same precedence group. -/
inductive Associativity where
  | left
  | right
  | nonAssociative
deriving DecidableEq, Repr

/-- The tokens that a trigger is matched with.  Blanks in it do not count. -/
def triggerTokens (latex : String) : List Token := (tokenize latex).filter (! ·.isSpace)

/-- A trigger as it is written, with the tokens it is matched with. -/
structure Trigger where
  latex : String
  tokens : List Token := triggerTokens latex
  tokens_eq : tokens = triggerTokens latex := by rfl
deriving Repr

def Trigger.ofLatex (latex : String) : Trigger := { latex }

inductive ParseRule (α : Type) where
  /-- By the rule of its kind, producing its own name. -/
  | byKind
  /-- By the rule of its kind, producing another head. -/
  | synonym (target : String)
  /-- By a script. -/
  | custom (handler : Handler α)

/-- How calls of the notation's name are written. -/
inductive WriteRule where
  | byKind
  | setLike
  | matrix
deriving DecidableEq, Repr

structure Entry (α : Type) where
  /-- The name under which calls are written back; an alias has none. -/
  name : Option String
  triggers : List Trigger
  kind : Kind
  /-- How tightly it binds, if it says so.  The reader counts precedences in sixteen bits. -/
  precedence? : Option Nat := none
  associativity : Associativity := .left
  /-- The trigger that closes a matchfix notation. -/
  close : Option Trigger := none
  parse : ParseRule α := .byKind
  write : WriteRule := .byKind

namespace Entry

variable {α : Type}

/-- The precedence of notations that do not give one. -/
def defaultPrecedence : Nat := 810

def precedence (entry : Entry α) : Nat := entry.precedence?.getD defaultPrecedence

/-- The head that the notation produces: the target of an alias, or else its own name. -/
def head? (entry : Entry α) : Option String :=
  match entry.parse with
  | .synonym target => some target
  | _ => entry.name

/-- Is the notation read by a script? -/
def isCustom (entry : Entry α) : Bool :=
  match entry.parse with
  | .custom _ => true
  | _ => false

/-- What to call the notation in a message. -/
def label (entry : Entry α) : String :=
  (entry.name.or (entry.triggers.head?.map Trigger.latex)).getD "<anonymous>"

def named (kind : Kind) (name : String) (triggers : List String) : Entry α :=
  { name := some name, triggers := triggers.map Trigger.ofLatex, kind }

def symbol (name trigger : String) : Entry α := named .symbol name [trigger]

def prefixOp (name trigger : String) (precedence : Nat) : Entry α :=
  { named .prefixOp name [trigger] with precedence? := some precedence }

/-- An operator between its operands; it groups to the left. -/
def infixOp (name trigger : String) (precedence : Nat) : Entry α :=
  { named .infixOp name [trigger] with precedence? := some precedence }

def postfixOp (name trigger : String) : Entry α := named .postfixOp name [trigger]

def matchfix (name opening closing : String) : Entry α :=
  { named .matchfix name [opening] with close := some (.ofLatex closing) }

def environment (name block : String) : Entry α := named .environment name [block]

/-- Further triggers for what another notation stands for.  It is only read, never written. -/
def synonym (kind : Kind) (target : String) (triggers : List String) : Entry α :=
  { name := none, triggers := triggers.map Trigger.ofLatex, kind, parse := .synonym target }

/-- A name that is only written, never read. -/
def writeOnly (name : String) (write : WriteRule) : Entry α :=
  { named .symbol name [] with write }

/-- A nameless notation that is read by a script. -/
def custom (kind : Kind) (trigger : String) (handler : Handler α) : Entry α :=
  { name := none, triggers := [.ofLatex trigger], kind, parse := .custom handler }

def withTriggers (entry : Entry α) (triggers : List String) : Entry α :=
  { entry with triggers := entry.triggers ++ triggers.map Trigger.ofLatex }

def withPrecedence (entry : Entry α) (precedence : Nat) : Entry α :=
  { entry with precedence? := some precedence }

def rightAssociative (entry : Entry α) : Entry α := { entry with associativity := .right }

def withParse (entry : Entry α) (handler : Handler α) : Entry α :=
  { entry with parse := .custom handler }

def withWrite (entry : Entry α) (write : WriteRule) : Entry α := { entry with write }

end Entry

/-! ### Matching a trigger

A trigger matches at a place if its tokens stand there in order.  Blanks between them are skipped,
but none before the first and none after the last. -/

/-- Match a pattern at the start of the tokens; the result is what follows the match. -/
def matchTokens : List Token → List Token → Option (List Token)
  | [], rest => some rest
  | _ :: _, [] => none
  | [p], t :: rest => if t = p then some rest else none
  | p :: q :: ps, t :: rest =>
    if t = p then matchTokens (q :: ps) (rest.dropWhile Token.isSpace) else none

/-- Match a pattern at a position; the result is the position just past the match.  The empty
    pattern matches everywhere. -/
def matchTokensAt (tokens : List Token) (position : Nat) (pattern : List Token) : Option Nat :=
  let here := tokens.drop position
  (matchTokens pattern here).map fun after => position + (here.length - after.length)

end Formula
