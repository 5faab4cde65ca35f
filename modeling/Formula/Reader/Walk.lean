import Formula.Reader

/-!
  **Reading by hand.**

  A walk is a reader under step-by-step control: it keeps its place in the formula, the places it
  was told to save, and the expression that it read last.
-/

namespace Formula

/-- The state of a reader under control. -/
structure Walk where
  tokens : List Token
  rest : List Token
  saved : List (List Token)
  last : Option Expr

namespace Walk

def start (tokens : List Token) : Walk := ⟨tokens, tokens, [], none⟩

def index (w : Walk) : Nat := w.tokens.length - w.rest.length

def atEnd (w : Walk) : Bool := w.rest.isEmpty

def peek (w : Walk) : Option Token := w.rest.head?

variable (engine : Engine Unit)

def expression (stop : Terminator) (w : Walk) : Option Expr × Walk :=
  let (e, rest) := Id.run (Reader.expression engine engine.host stop w.rest)
  (e, { w with rest, last := e })

def root (w : Walk) : Expr × Walk :=
  let (e, rest) := Id.run (Reader.remainder engine engine.host w.rest)
  (e, { w with rest, last := some e })

def table (w : Walk) : Expr × Walk :=
  let (e, rest) := Id.run (Reader.table engine engine.host w.rest)
  (e, { w with rest, last := some e })

def skipSpace (w : Walk) : Walk := { w with rest := Reader.skipSpace w.rest }

/-- Save the place.  Saved places are numbered from zero. -/
def checkpoint (w : Walk) : Nat × Walk := (w.saved.length, { w with saved := w.saved ++ [w.rest] })

/-- Return to a saved place, if there is one with this number. -/
def rewind? (place : Nat) (w : Walk) : Option Walk :=
  w.saved[place]?.map fun rest => { w with rest }

def domain? (w : Walk) : Option Literal := w.last.map engine.domain

/-- Does what was read last lie in a named domain? -/
def compatible? (l : Literal) (w : Walk) : Option Bool :=
  w.last.map fun e => engine.isCompatible e (.literal l)

/-- A call whose operand is what was read last. -/
def call (head : String) (w : Walk) : Expr × Walk :=
  let e := Id.run (engine.function (pure ()) head w.last.toList)
  (e, { w with last := some e })

end Walk

end Formula
