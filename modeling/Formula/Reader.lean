import Formula.Engine
import Formula.Expr.Error
import Formula.Latex.Join
import Formula.Reader.Numeral
import Formula.Reader.Skip

/-!
  **Reading a formula.**

  The reader climbs by precedence.  An expression is a primary one, followed by operators that
  bind at least as tightly as its terminator asks; an operator's right side is an expression with
  a higher bound.  Where no operator is written two expressions side by side are a product.
  Reading never fails: what makes no sense becomes an error in the tree, with the source it covers,
  and reading goes on after it.

  Each function takes the place where it starts, which is the list of the tokens from there on, and
  gives the place that it has come to.  Those that read an expression inside their own notation
  are given `inner` for it.  `expression` ties the knot: it passes itself on with one step less of
  fuel.  A nested expression starts after a trigger, so one step for each token is enough, and so
  is one round of a loop for each token.  A bound that is used up is reported to the host.  So is
  a token that is asked for at the end, and so are the tokens from one place up to an earlier one.
-/

namespace Formula

namespace Reader

variable {m : Type → Type} [Monad m] {α : Type}

/-- The precedence of the operator between two expressions side by side. -/
def invisiblePrecedence : Nat := 390

/-- Must an expression stop here? -/
def atTerminator (d : Dictionary α) (stop : Terminator) (rest : List Token) : Bool :=
  match rest with
  | [] => true
  | token :: _ =>
    stop.close.any (fun close => (matchTokens close rest).isSome) ||
      isBoundary token || d.isCloser token

/-- Does an operator between or after operands stand here? -/
def atOperator (d : Dictionary α) (rest : List Token) : Bool :=
  (d.lookup? rest [.infixOp, .postfixOp]).isSome

section

variable (engine : Engine α) (host : Host m α)

def build (head : String) (ops : List (Tree α)) : m (Tree α) :=
  engine.function host.fresh head ops

/-- An error whose source is what stands from one place up to a later one.  There is no source if
    the second place is in front of the first. -/
def errorAt (code : ErrorCode) (argument : Option String) (start rest : List Token) :
    m (Tree α) := do
  if start.length < rest.length then host.outOfRange
  Tree.error host.fresh code argument (some (Latex.ofTokens (between start rest)))

def missing : m (Tree α) := Tree.error host.fresh .missing none none

/-- The operand that was read, or the error that it is missing. -/
def orMissing : Option (Tree α) → m (Tree α)
  | some e => pure e
  | none => missing host

variable (inner : Terminator → List Token → m (Option (Tree α) × List Token))

/-- The cells of a row, with those already read.  An empty cell between separators is `Nothing`,
    and a row without any cell has none. -/
def cells : Nat → List (Tree α) → List Token → m (List (Tree α) × List Token)
  | 0, row, rest => do
    host.exhausted
    pure (row, rest)
  | fuel + 1, row, rest => do
    let (cell, rest) ← inner {} rest
    let rest := skipSpace rest
    let separated := nextIs (Token.isChar '&') rest
    let row :=
      if cell.isSome || separated || !row.isEmpty then row ++ [cell.getD (.symbol "Nothing")]
      else row
    if separated then cells fuel row (rest.drop 1) else pure (row, rest)

/-- The rows of a table, with those already read.  A row without cells is left out. -/
def rows : Nat → List (Tree α) → List Token → m (List (Tree α) × List Token)
  | 0, table, rest => do
    host.exhausted
    pure (table, rest)
  | fuel + 1, table, rest => do
    let (row, rest) ← cells host inner (rest.length + 1) [] rest
    let table ←
      if row.isEmpty then pure table
      else do
        let list ← build engine host "List" row
        pure (table ++ [list])
    if nextIs (Token.isCommand "\\\\") rest then rows fuel table (rest.drop 1)
    else pure (table, rest)

def tabular (rest : List Token) : m (Tree α × List Token) := do
  let (table, rest) ← rows engine host inner (rest.length + 1) [] rest
  let list ← build engine host "List" table
  pure (list, rest)

/-- A token that neither starts nor continues an expression, as an error. -/
def leftover (start : List Token) : m (Tree α × List Token) :=
  match start with
  | [] => do
    host.outOfRange
    let e ← errorAt host .unexpectedToken none start []
    pure (e, [])
  | token :: after =>
    let (code, rest) : ErrorCode × List Token :=
      if token.isCommand "\\right" then (.unexpectedDelimiter, skipDelimiter after)
      else if token.isCommand "\\end" then (.unexpectedDelimiter, (groupText after).2)
      else if token == .groupEnd || engine.dictionary.isCloser token then
        (.unexpectedDelimiter, after)
      else
        match engine.dictionary.lookup? start [.infixOp, .postfixOp, .prefixOp] with
        | some found => (.unexpectedOperator, found.after)
        | none => (.unexpectedToken, after)
    do
      let e ← errorAt host code none start rest
      pure (e, rest)

/-- The parts that stand one after the other up to the end, with those already read, and the place
    that was reached. -/
def parts : Nat → List (Tree α) → List Token → m (List (Tree α) × List Token)
  | 0, found, rest => do
    host.exhausted
    pure (found, rest)
  | fuel + 1, found, rest => do
    let rest := skipSpace rest
    if rest.isEmpty then pure (found, rest)
    else
      match ← inner {} rest with
      | (some e, rest) => parts fuel (found ++ [e]) rest
      | (none, rest) => do
        let (e, rest) ← leftover engine host rest
        parts fuel (found ++ [e]) rest

/-- Parts as one expression: several are a sequence, none is `Nothing`. -/
def combine : List (Tree α) → m (Tree α)
  | [] => pure (.symbol "Nothing")
  | [e] => pure e
  | found => build engine host "Sequence" found

/-- Everything up to the end, and the place that was reached. -/
def root (rest : List Token) : m (Tree α × List Token) := do
  let (found, rest) ← parts engine host inner (rest.length + 1) [] rest
  let e ← combine engine host found
  pure (e, rest)

/-- Carry out the script of a custom notation, with the places it has saved. -/
def runScript : Script α → List (List Token) → List Token → m (Option (Tree α) × List Token)
  | .done result, _, rest => pure (result, rest)
  | .expression stop next, saved, rest => do
    let (e, rest) ← inner stop rest
    runScript (next e) saved rest
  | .tabular next, saved, rest => do
    let (e, rest) ← tabular engine host inner rest
    runScript (next e) saved rest
  | .root next, saved, rest => do
    let (e, rest) ← root engine host inner rest
    runScript (next e) saved rest
  | .skipSpace next, saved, rest => runScript next saved (skipSpace rest)
  | .peek next, saved, rest => runScript (next rest.head?) saved rest
  | .checkpoint next, saved, rest => runScript next (saved ++ [rest]) rest
  | .rewind place next, saved, rest => runScript next saved (saved[place]?.getD rest)
  | .build head ops next, saved, rest => do
    let e ← build engine host head ops
    runScript (next e) saved rest
  | .domain e next, saved, rest => do
    let d ← host.domain e
    runScript (next d) saved rest
  | .compatible e l next, saved, rest => do
    let answer ← host.compatible e l
    runScript (next answer) saved rest

/-- The body and the closing trigger of a matchfix notation.  The elements of a list between the
    triggers are the operands of the call, also when some of them are errors; a group keeps the
    list as its one operand. -/
def matchfix (entry : Entry α) (head : String) (start after : List Token) :
    m (Tree α × List Token) := do
  let close := (entry.close.map Trigger.tokens).getD []
  let (body, rest) ← inner { minPrec := 0, close := some close } after
  let rest := skipSpace rest
  match matchTokens close rest with
  | none => do
    let e ← errorAt host .expectedClosingDelimiter none start rest
    pure (e, rest)
  | some rest => do
    let ops :=
      match body with
      | some body => if head != "Delimiter" && body.hasHead "Sequence" then body.ops else [body]
      | none => []
    let e ← build engine host head ops
    pure (e, rest)

/-- The bound just above a precedence.  Precedences have sixteen bits, and above the last of them the
    count begins again. -/
def boundAbove (precedence : Nat) : Nat := (precedence + 1) % 65536

theorem boundAbove_of_le {precedence : Nat} (h : precedence ≤ 65534) :
    boundAbove precedence = precedence + 1 :=
  Nat.mod_eq_of_lt (Nat.lt_succ_of_le (Nat.succ_le_succ h))

/-- The bound on the right side of an operator between operands. -/
def rightBound (entry : Entry α) : Nat :=
  match entry.associativity with
  | .right => entry.precedence
  | _ => boundAbove entry.precedence

/-- Read an entry by the rule of its kind, from just past its trigger. -/
def byKind (entry : Entry α) (lhs : Option (Tree α)) (stop : Terminator)
    (start after : List Token) : m (Option (Tree α × List Token)) :=
  match entry.head? with
  | none => pure none
  | some head =>
    match entry.kind with
    | .symbol => pure (some (.symbol head, after))
    | .prefixOp => do
      let (operand, rest) ← inner (stop.withMinPrec (boundAbove entry.precedence)) after
      let operand ← orMissing host operand
      let e ← build engine host head [operand]
      pure (some (e, rest))
    | .infixOp =>
      match lhs with
      | none => pure none
      | some lhs => do
        let (rhs, rest) ← inner (stop.withMinPrec (rightBound entry)) after
        let rhs ← orMissing host rhs
        let e ← build engine host head [lhs, rhs]
        pure (some (e, rest))
    | .postfixOp =>
      match lhs with
      | none => pure none
      | some lhs => do
        let e ← build engine host head [lhs]
        pure (some (e, after))
    | .matchfix => do
      let found ← matchfix engine host inner entry head start after
      pure (some found)
    | .environment => pure none

/-- Read the notation of a match, which may reject it. -/
def accept (lhs : Option (Tree α)) (stop : Terminator) (start : List Token)
    (found : TriggerMatch α) : m (Option (Tree α × List Token)) :=
  match found.entry.parse with
  | .custom handler => do
    let (result, rest) ← runScript engine host inner (handler lhs stop) [] found.after
    pure (result.map fun e => (e, rest))
  | _ => byKind engine host inner found.entry lhs stop start found.after

/-- The first of the matches that does not reject itself.  Each starts from the same place.  A match
    that rejects itself is logged with its tokens. -/
def firstAccepted (lhs : Option (Tree α)) (stop : Terminator) (start : List Token) :
    List (TriggerMatch α) → m (Option (Tree α × List Token))
  | [] => pure none
  | found :: others => do
    match ← accept engine host inner lhs stop start found with
    | some result => pure (some result)
    | none => do
      if start.length < found.after.length then host.outOfRange
      firstAccepted lhs stop start others

/-- Two expressions side by side, if the options have an operator for that and it binds tightly
    enough. -/
def juxtaposed (lhs : Tree α) (stop : Terminator) (rest : List Token) :
    m (Option (Tree α × List Token)) :=
  match engine.options.invisibleOperator with
  | none => pure none
  | some head =>
    if invisiblePrecedence < stop.minPrec then pure none
    else do
      match ← inner (stop.withMinPrec (invisiblePrecedence + 1)) rest with
      | (none, _) => pure none
      | (some rhs, rest) => do
        let e ← build engine host head [lhs, rhs]
        pure (some (e, rest))

/-- The operators after an expression, as long as they bind tightly enough.  The expression in
    front of each is all that was read before it. -/
def operators (stop : Terminator) : Nat → Tree α → List Token → m (Tree α × List Token)
  | 0, lhs, rest => do
    host.exhausted
    pure (lhs, rest)
  | fuel + 1, lhs, rest => do
    let rest := skipSpace rest
    if atTerminator engine.dictionary stop rest then pure (lhs, rest)
    else
      let found := engine.dictionary.candidates rest [.infixOp, .postfixOp]
      let next ←
        if found.isEmpty then juxtaposed engine host inner lhs stop rest
        else
          firstAccepted engine host inner (some lhs) stop rest
            (found.filter fun candidate => stop.minPrec ≤ candidate.entry.precedence)
      match next with
      | some (e, rest) => operators stop fuel e rest
      | none => pure (lhs, rest)

/-- A group in braces.  It leaves no trace but its content. -/
def group (start : List Token) : m (Tree α × List Token) := do
  let (body, rest) ← inner {} (start.drop 1)
  let rest := skipSpace rest
  if nextIs (· == .groupEnd) rest then
    match body with
    | some body => pure (body, rest.drop 1)
    | none => do
      let e ← build engine host "Sequence" []
      pure (e, rest.drop 1)
  else do
    let e ← errorAt host .expectedClosingDelimiter none start rest
    pure (e, rest)

def letter (c : Char) (start : List Token) : m (Tree α × List Token) := do
  let name := String.singleton c
  let rest := start.drop 1
  match engine.options.promotion with
  | .never => do
    let e ← errorAt host .unknownSymbol (some name) start rest
    pure (e, rest)
  | _ => pure (.symbol name, rest)

/-- A command that no entry claims, with the groups right after it. -/
def unknownCommand (name : String) (start : List Token) : m (Tree α × List Token) := do
  let after := start.drop 1
  if !nextIs (· == .groupStart) after && engine.options.promotion == .always then
    pure (.symbol (String.ofList (name.toList.dropWhile (· == '\\'))), after)
  else do
    let rest := skipGroups after
    let e ← errorAt host .unexpectedCommand (some name) start rest
    pure (e, rest)

/-- A `\left` whose delimiter no entry claims.  The error covers the two; all up to the matching
    `\right` and its delimiter is skipped. -/
def unknownLeft (start : List Token) : m (Tree α × List Token) := do
  let inside := skipDelimiter (start.drop 1)
  let e ← errorAt host .unexpectedDelimiter none start inside
  pure (e, skipLeft 1 inside)

/-- What stands inside a block: by the script of its entry, or a table. -/
def blockBody (entry : Entry α) (rest : List Token) : m (Option (Tree α) × List Token) :=
  match entry.parse with
  | .custom handler => runScript engine host inner (handler none {}) [] rest
  | _ =>
    match entry.head? with
    | none => pure (none, rest)
    | some head => do
      let (table, rest) ← tabular engine host inner rest
      let e ← build engine host head [table]
      pure (some e, rest)

/-- The end of a block whose body was read.  Without its `\end` all of it is skipped. -/
def blockEnd (name : String) (start : List Token) (body : Option (Tree α))
    (rest : List Token) : m (Tree α × List Token) :=
  match environmentEnd? name (skipSpace rest) with
  | none => do
    let rest := skipEnvironment 1 (skipSpace rest)
    let e ← errorAt host .expectedClosingDelimiter (some name) start rest
    pure (e, rest)
  | some rest =>
    match body with
    | some body => pure (body, rest)
    | none => do
      let e ← errorAt host .syntaxError (some name) start rest
      pure (e, rest)

/-- A block between `\begin{name}` and `\end{name}`. -/
def environment (start : List Token) : m (Tree α × List Token) := do
  match groupText (start.drop 1) with
  | (none, rest) => do
    let e ← errorAt host .unexpectedCommand (some "\\begin") start rest
    pure (e, rest)
  | (some name, rest) =>
    match engine.dictionary.environment? name with
    | none => do
      let rest := skipEnvironment 1 rest
      let e ← errorAt host .unknownEnvironment (some name) start rest
      pure (e, rest)
    | some entry => do
      let (body, rest) ← blockBody engine host inner entry rest
      blockEnd host name start body rest

/-- What starts with a token that no entry claims; nothing if an operator starts there. -/
def unclaimed (token : Token) (start : List Token) : m (Option (Tree α × List Token)) :=
  if token.isCommand "\\begin" then some <$> environment engine host inner start
  else if token.isCommand "\\left" then some <$> unknownLeft host start
  else
    match token with
    | .groupStart => some <$> group engine host inner start
    | .char c =>
      if c.isDigit then
        let (value, rest) := numeral start
        pure (some (.number value, rest))
      else if Text.isAlphabetic c then some <$> letter engine host c start
      else if atOperator engine.dictionary start then pure none
      else do
        let e ← errorAt host .unexpectedToken none start (start.drop 1)
        pure (some (e, start.drop 1))
    | .command name =>
      if atOperator engine.dictionary start then pure none
      else some <$> unknownCommand engine host name start
    | _ =>
      if atOperator engine.dictionary start then pure none
      else do
        let e ← errorAt host .unexpectedToken none start (start.drop 1)
        pure (some (e, start.drop 1))

/-- An expression without an operator after it. -/
def primary (stop : Terminator) (rest : List Token) : m (Option (Tree α) × List Token) := do
  let start := skipSpace rest
  if atTerminator engine.dictionary stop start then pure (none, start)
  else
    let found := engine.dictionary.candidates start [.symbol, .prefixOp, .matchfix]
    match ← firstAccepted engine host inner none stop start found with
    | some (e, rest) => pure (some e, rest)
    | none =>
      match start with
      | [] => do
        host.outOfRange
        pure (none, start)
      | token :: _ =>
        match ← unclaimed engine host inner token start with
        | some (e, rest) => pure (some e, rest)
        | none => pure (none, start)

end

/-- An expression up to its terminator, with fuel for the nesting of expressions. -/
def expressionWithin (engine : Engine α) (host : Host m α) :
    Nat → Terminator → List Token → m (Option (Tree α) × List Token)
  | 0, _, rest => do
    host.exhausted
    pure (none, rest)
  | fuel + 1, stop, rest => do
    match ← primary engine host (expressionWithin engine host fuel) stop rest with
    | (none, rest) => pure (none, rest)
    | (some lhs, rest) => do
      let (e, rest) ←
        operators engine host (expressionWithin engine host fuel) stop (rest.length + 1) lhs rest
      pure (some e, rest)

/-- An expression up to its terminator and the place that it ends at.  Without an expression only
    blanks are passed. -/
def expression (engine : Engine α) (host : Host m α) (stop : Terminator) (rest : List Token) :
    m (Option (Tree α) × List Token) :=
  expressionWithin engine host (rest.length + 1) stop rest

def table (engine : Engine α) (host : Host m α) (rest : List Token) : m (Tree α × List Token) :=
  tabular engine host (expressionWithin engine host (rest.length + 1)) rest

/-- All that is left of a formula, and the place that was reached. -/
def remainder (engine : Engine α) (host : Host m α) (rest : List Token) :
    m (Tree α × List Token) :=
  root engine host (expressionWithin engine host (rest.length + 1)) rest

/-- The parts of a whole formula, errors for what is left over included. -/
def formulaParts (engine : Engine α) (host : Host m α) (tokens : List Token) :
    m (List (Tree α)) := do
  let (found, _) ← parts engine host (expressionWithin engine host (tokens.length + 1))
    (tokens.length + 1) [] tokens
  pure found

def formula (engine : Engine α) (host : Host m α) (tokens : List Token) : m (Tree α) := do
  let (e, _) ← remainder engine host tokens
  pure e

end Reader

namespace Engine

/-- The expression of a list of tokens. -/
def parseTokens (engine : Engine Unit) (tokens : List Token) : Expr :=
  Id.run (Reader.formula engine engine.host tokens)

/-- The expression of a formula.  There is always one: what cannot be read is an error in it. -/
def parse (engine : Engine Unit) (latex : String) : Expr := engine.parseTokens (tokenize latex)

end Engine

end Formula
