import Formula.Domain.Consultation
import Formula.Standard

/-!
  **Sessions.**

  In a session several engines work on expressions that are kept in named slots.  Each call is
  labelled with a number of its own; a copy of an expression has the same labels, and so has an
  operand that is taken out of it.  The first engine that is asked for the domain of a call other
  than a group decides it: the answer is remembered under the label of the call.  A group is never
  remembered, because its content decides.
-/

namespace Formula

/-- An expression whose calls are told apart by numbers. -/
abbrev Node := Tree Nat

/-- What a session remembers about calls. -/
structure Memory where
  next : Nat := 0
  /-- The domains decided so far, by label. -/
  domains : List (Nat × Literal) := []
  /-- The engines that have needed the table of ancestors. -/
  consulted : List Nat := []

namespace Memory

/-- A label that no call has yet. -/
def fresh : StateM Memory Nat := do
  let memory ← get
  set { memory with next := memory.next + 1 }
  pure memory.next

/-- The domain remembered for a call, or else this one, which is then remembered. -/
def decide (label : Nat) (domain : Literal) : StateM Memory Literal := do
  let memory ← get
  match memory.domains.lookup label with
  | some known => pure known
  | none =>
    set { memory with domains := (label, domain) :: memory.domains }
    pure domain

/-- Note that an engine has needed the table of ancestors. -/
def consult (engine : Nat) : StateM Memory Unit :=
  modify fun memory => { memory with consulted := memory.consulted.insert engine }

/-- The domain of an expression, as remembered or as the engine knows it now. -/
def domain (engine : Engine Nat) : Node → StateM Memory Literal
  | .number n => pure n.domain
  | .symbol name => pure (engine.symbolDomain name)
  | .text _ => pure .strings
  | .call label head ops =>
    if head = "Delimiter" then
      match ops with
      | [content] => domain engine content
      | _ => pure .tuples
    else decide label (engine.functionDomain head)
  | .applied label _ _ => decide label .anything

/-- Compare two domains with the help of an engine's table of ancestors. -/
def isSubdomain (index : Nat) (a b : Domain) : StateM Memory Bool := do
  if a.consults b then consult index
  pure (a.isSubdomain b)

def isCompatible (index : Nat) (engine : Engine Nat) (e : Node) (d : Domain) :
    StateM Memory Bool := do
  let known ← domain engine e
  isSubdomain index (.literal known) d

def ancestors (index : Nat) (d : Domain) : StateM Memory (List Literal) := do
  if d.ancestorsConsult then consult index
  pure d.ancestors

/-- What the reader is told while it reads for an engine of the session. -/
def host (index : Nat) (engine : Engine Nat) : Host (StateM Memory) Nat where
  fresh := fresh
  domain e := domain engine e
  compatible e l := isCompatible index engine e (.literal l)
  exhausted := pure ()
  outOfRange := pure ()

mutual

/-- The expression with new labels. -/
def relabel {α : Type} : Tree α → StateM Memory Node
  | .number n => pure (.number n)
  | .symbol name => pure (.symbol name)
  | .text value => pure (.text value)
  | .call _ head ops => do
    let ops ← relabelAll ops
    let label ← fresh
    pure (.call label head ops)
  | .applied _ head ops => do
    let head ← relabel head
    let ops ← relabelAll ops
    let label ← fresh
    pure (.applied label head ops)

def relabelAll {α : Type} : List (Tree α) → StateM Memory (List Node)
  | [] => pure []
  | op :: rest => do
    let op ← relabel op
    let rest ← relabelAll rest
    pure (op :: rest)

end

end Memory

/-- Are the two the same call?  Expressions that are no calls are the same when they are equal. -/
def Node.identical : Node → Node → Bool
  | .call a _ _, .call b _ _ => a == b
  | .applied a _ _, .applied b _ _ => a == b
  | .number a, .number b => a == b
  | .symbol a, .symbol b => a == b
  | .text a, .text b => a == b
  | _, _ => false

/-- The engines of a session, the expressions it keeps, and what it remembers. -/
structure Session where
  engines : List (Engine Nat)
  slots : List (String × Node) := []
  memory : Memory := {}

namespace Session

/-- Ways to come by an expression. -/
inductive Source where
  | parse (latex : String)
  /-- A copy with calls of its own. -/
  | build (e : Expr)
  /-- A normalized call with the given slots as operands. -/
  | function (head : String) (args : List String)
  | raw (head : String) (args : List String)
  /-- A call as it is, with a slot as head. -/
  | rawApplied (head : String) (args : List String)
  | operand (slot : String) (index : Nat)
  /-- The call with nested calls of its own head opened. -/
  | flatten (slot : String)

inductive Query where
  | domain (slot : String)
  | compatible (slot : String) (d : Domain)
  | declareSymbol (name : String) (l : Literal)
  | declareFunction (name : String) (info : FunctionInfo)
  | latex (slot : String)
  | equal (a b : String)
  | identical (a b : String)
  | valid (slot : String)
  /-- Has the engine needed its table of ancestors? -/
  | initialized
  | ancestors (d : Domain)
  | subdomain (a b : Domain)

inductive Step where
  /-- Come by an expression and keep it in a slot, if one is named. -/
  | make (engine : Nat) (source : Source) (slot : Option String)
  | ask (engine : Nat) (query : Query)

inductive Answer where
  | expression (e : Expr)
  | text (value : String)
  | flag (value : Bool)
  | literal (l : Literal)
  | literals (ls : List Literal)
  | done
  | nothing
  | unknownSlot (name : String)
  | unknownEngine (number : Nat)

/-- Run something that works on the memory. -/
def remembering {β : Type} (action : StateM Memory β) (s : Session) : β × Session :=
  let (answer, memory) := action.run s.memory
  (answer, { s with memory })

/-- The expressions in the given slots; the error is the first slot that does not exist. -/
def slots? (s : Session) (names : List String) : Except String (List Node) :=
  names.mapM fun name =>
    match s.slots.lookup name with
    | some e => .ok e
    | none => .error name

/-- The expression that a source gives, if it gives one; the error is a slot that does not
    exist. -/
def produce (index : Nat) (engine : Engine Nat) (source : Source) (s : Session) :
    Except String (Option Node × Session) :=
  match source with
  | .parse latex =>
    .ok (s.remembering (some <$> Reader.formula engine (Memory.host index engine) (tokenize latex)))
  | .build e => .ok (s.remembering (some <$> Memory.relabel e))
  | .function head args =>
    (s.slots? args).map fun ops =>
      s.remembering (some <$> engine.function Memory.fresh head ops)
  | .raw head args =>
    (s.slots? args).map fun ops =>
      s.remembering ((fun label => some (.call label head ops)) <$> Memory.fresh)
  | .rawApplied head args =>
    (s.slots? (head :: args)).map fun
      | [] => (none, s)
      | head :: ops =>
        s.remembering ((fun label => some (Tree.apply label head ops)) <$> Memory.fresh)
  | .operand slot place => (s.slots? [slot]).map fun es => (es.head?.bind (·.ops[place]?), s)
  | .flatten slot =>
    (s.slots? [slot]).map fun
      | [] => (none, s)
      | e :: _ => s.remembering (some <$> Tree.flattenCall Memory.fresh e)

def setEngine (s : Session) (index : Nat) (engine : Engine Nat) : Session :=
  { s with engines := s.engines.set index engine }

/-- The answer to a query about one expression. -/
def about (s : Session) (slot : String) (answer : Node → Answer × Session) : Answer × Session :=
  match s.slots.lookup slot with
  | some e => answer e
  | none => (.unknownSlot slot, s)

/-- The answer to a query, and the session after it. -/
def answer (index : Nat) (engine : Engine Nat) (query : Query) (s : Session) : Answer × Session :=
  match query with
  | .domain slot => s.about slot fun e => s.remembering (.literal <$> Memory.domain engine e)
  | .compatible slot d =>
    s.about slot fun e => s.remembering (.flag <$> Memory.isCompatible index engine e d)
  | .declareSymbol name l => (.done, s.setEngine index (engine.declareSymbol name l))
  | .declareFunction name info => (.done, s.setEngine index (engine.declareFunction name info))
  | .latex slot => s.about slot fun e => (.text (engine.latex e), s)
  | .equal a b => s.about a fun x => s.about b fun y => (.flag (x == y), s)
  | .identical a b => s.about a fun x => s.about b fun y => (.flag (Node.identical x y), s)
  | .valid slot => s.about slot fun e => (.flag e.valid, s)
  | .initialized => (.flag (s.memory.consulted.contains index), s)
  | .ancestors d => s.remembering (.literals <$> Memory.ancestors index d)
  | .subdomain a b => s.remembering (.flag <$> Memory.isSubdomain index a b)

def step (s : Session) : Step → Answer × Session
  | .make index source slot =>
    match s.engines[index]? with
    | none => (.unknownEngine index, s)
    | some engine =>
      match s.produce index engine source with
      | .error name => (.unknownSlot name, s)
      | .ok (none, s) => (.nothing, s)
      | .ok (some e, s) =>
        let slots :=
          match slot with
          | some name => (name, e) :: s.slots
          | none => s.slots
        (.expression e.erase, { s with slots })
  | .ask index query =>
    match s.engines[index]? with
    | none => (.unknownEngine index, s)
    | some engine => s.answer index engine query

end Session

end Formula
