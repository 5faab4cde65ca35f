import Formula.Dictionary.Entry

/-!
  **The dictionary of notations.**

  A dictionary is built once from a list of entries and then only asked.  It knows the entries by
  the first token of their triggers, the environments by their text, the entries by their names,
  and the tokens that closing triggers start with.
-/

namespace Formula

/-- Why a list of entries is no dictionary. -/
inductive DictionaryError where
  /-- A trigger without any token but blanks. -/
  | emptyTrigger (latex : String)
  /-- An entry that can be neither read nor written. -/
  | missingTrigger (label : String)
  /-- An entry that does not say what it stands for. -/
  | missingHead (label : String)
  /-- A matchfix entry without the trigger that closes it. -/
  | missingClose (label : String)
deriving DecidableEq, Repr

namespace DictionaryError

def code : DictionaryError → String
  | .emptyTrigger _ => "empty-trigger"
  | .missingTrigger _ => "missing-trigger"
  | .missingHead _ => "missing-head"
  | .missingClose _ => "missing-close"

def message : DictionaryError → String
  | .emptyTrigger latex => "trigger `" ++ latex ++ "` is empty"
  | .missingTrigger label => "entry `" ++ label ++ "` has neither a trigger nor a name"
  | .missingHead label =>
    "entry `" ++ label ++ "` produces no head: give it a name, an alias or a parse handler"
  | .missingClose label => "matchfix entry `" ++ label ++ "` has no closing trigger"

end DictionaryError

/-- Is the trigger without tokens?  Nothing could match it. -/
def Trigger.isEmpty (trigger : Trigger) : Bool := trigger.tokens.isEmpty

namespace Entry

variable {α : Type}

/-- The triggers that are matched in the formula itself.  Those of an environment are names. -/
def matchedTriggers (entry : Entry α) : List Trigger :=
  if entry.kind = .environment then [] else entry.triggers

/-- The first thing wrong with an entry, in this order: it has no trigger and no name; no head
    and no script; an empty trigger; for a matchfix entry, no closing trigger or an empty one. -/
def defect? (entry : Entry α) : Option DictionaryError :=
  if entry.triggers.isEmpty && entry.name.isNone then some (.missingTrigger entry.label)
  else if entry.head?.isNone && !entry.isCustom then some (.missingHead entry.label)
  else
    match entry.matchedTriggers.find? Trigger.isEmpty with
    | some trigger => some (.emptyTrigger trigger.latex)
    | none =>
      if entry.kind = .matchfix then
        match entry.close with
        | none => some (.missingClose entry.label)
        | some close => if close.isEmpty then some (.emptyTrigger close.latex) else none
      else none

end Entry

/-- One way to read an entry: one of its triggers. -/
structure Reading (α : Type) where
  entry : Entry α
  trigger : Trigger

/-- The entries and the ways to find them. -/
structure Dictionary (α : Type) where
  entries : List (Entry α)
  /-- The readings whose trigger starts with a token, in the order they were registered. -/
  byFirstToken : List (Token × List (Reading α))
  environments : List (String × Entry α)
  closers : List Token
  names : List (String × Entry α)

/-- A table with one more value at the end of a key's list. -/
def addToKey {κ υ : Type} [DecidableEq κ] (key : κ) (value : υ) :
    List (κ × List υ) → List (κ × List υ)
  | [] => [(key, [value])]
  | (k, values) :: rest =>
    if k = key then (k, values ++ [value]) :: rest else (k, values) :: addToKey key value rest

/-- A table in which a key keeps the first value that it is given. -/
def addIfNew {κ υ : Type} [BEq κ] (key : κ) (value : υ) (table : List (κ × υ)) : List (κ × υ) :=
  if (table.lookup key).isSome then table else table ++ [(key, value)]

/-- A match of a trigger. -/
structure TriggerMatch (α : Type) where
  entry : Entry α
  /-- The tokens from the first to the last of the match, blanks between them included. -/
  consumed : Nat
  after : List Token

/-- The match of a reading at the start of the tokens. -/
def Reading.match? {α : Type} (reading : Reading α) (rest : List Token) :
    Option (TriggerMatch α) :=
  (matchTokens reading.trigger.tokens rest).map fun after =>
    ⟨reading.entry, rest.length - after.length, after⟩

namespace Dictionary

variable {α : Type}

def empty : Dictionary α := ⟨[], [], [], [], []⟩

def addReading (d : Dictionary α) (reading : Reading α) : Dictionary α :=
  match reading.trigger.tokens with
  | [] => d
  | first :: _ => { d with byFirstToken := addToKey first reading d.byFirstToken }

def addEnvironment (d : Dictionary α) (entry : Entry α) (trigger : Trigger) : Dictionary α :=
  { d with environments := addIfNew trigger.latex entry d.environments }

def addCloser (d : Dictionary α) (close : Trigger) : Dictionary α :=
  match close.tokens with
  | [] => d
  | first :: _ => { d with closers := d.closers.insert first }

/-- Register an entry, unless something is wrong with it. -/
def register (d : Dictionary α) (entry : Entry α) : Except DictionaryError (Dictionary α) :=
  match entry.defect? with
  | some error => .error error
  | none =>
    let d := { d with entries := d.entries ++ [entry] }
    let d :=
      if entry.kind = .environment then entry.triggers.foldl (·.addEnvironment entry ·) d
      else entry.triggers.foldl (fun d trigger => d.addReading ⟨entry, trigger⟩) d
    let d :=
      match entry.kind, entry.close with
      | .matchfix, some close => d.addCloser close
      | _, _ => d
    .ok <|
      match entry.name with
      | some name => { d with names := addIfNew name entry d.names }
      | none => d

/-- The dictionary of a list of entries, or what is wrong with the first bad entry. -/
def ofEntries (entries : List (Entry α)) : Except DictionaryError (Dictionary α) :=
  entries.foldlM register empty

/-- The readings that may match where the given token stands. -/
def readings (d : Dictionary α) (first : Token) : List (Reading α) :=
  (d.byFirstToken.lookup first).getD []

/-- The entries of the given kinds with a trigger that matches at the start of the tokens, the
    longest match first and otherwise in the order they were registered. -/
def candidates (d : Dictionary α) (rest : List Token) (kinds : List Kind) :
    List (TriggerMatch α) :=
  match rest with
  | [] => []
  | first :: _ =>
    let found := (d.readings first).filterMap fun reading =>
      if reading.entry.kind ∈ kinds then reading.match? rest else none
    found.mergeSort fun a b => b.consumed ≤ a.consumed

/-- The longest match at the start of the tokens. -/
def lookup? (d : Dictionary α) (rest : List Token) (kinds : List Kind) :
    Option (TriggerMatch α) :=
  (d.candidates rest kinds).head?

def environment? (d : Dictionary α) (text : String) : Option (Entry α) :=
  d.environments.lookup text

def byName? (d : Dictionary α) (name : String) : Option (Entry α) := d.names.lookup name

/-- Does the token start the closing trigger of some entry? -/
def isCloser (d : Dictionary α) (token : Token) : Bool := d.closers.contains token

end Dictionary

end Formula
