import Formula.Expr

/-!
  **Normal operand lists.**

  Two passes bring the operands of a call into normal form.  `flattenSequence` writes the elements
  of a sequence in the place of the sequence and takes groups away; `flattenOps` writes the
  operands of a call of an associative head in the place of that call inside a call of the same
  head.  Only valid operands are opened, so an error stays where it is.  Each pass says whether
  there was anything to do.
-/

namespace Formula

namespace Tree

variable {α : Type} {m : Type → Type} [Monad m]

/-- Is this a valid call of the given head? -/
def isValidCall (head : String) (e : Tree α) : Bool := e.valid && e.hasHead head

mutual

/-- What an operand contributes to a call of `head`: a valid call of the same head its operands,
    anything else itself. -/
def spread (head : String) : Tree α → List (Tree α)
  | .call label name ops =>
    if (Tree.call label name ops).isValidCall head then spreadAll head ops
    else [.call label name ops]
  | e => [e]

/-- What operands contribute to a call of `head`. -/
def spreadAll (head : String) : List (Tree α) → List (Tree α)
  | [] => []
  | op :: rest => spread head op ++ spreadAll head rest

end

/-- The operands with the calls of `head` among them opened; none if there are no such calls. -/
def flattenOps? (head : String) (ops : List (Tree α)) : Option (List (Tree α)) :=
  if ops.any (isValidCall head) then some (spreadAll head ops) else none

/-- Is this a valid sequence or group? -/
def isGrouping (e : Tree α) : Bool := e.valid && (e.hasHead "Sequence" || e.hasHead "Delimiter")

/-- Is this a call of `Sequence` without elements? -/
def isEmptySequence (e : Tree α) : Bool := e.hasHead "Sequence" && e.ops.isEmpty

/-- The tuple without elements, which an empty group stands for. -/
def emptyTuple (fresh : m α) : m (Tree α) := do
  let label ← fresh
  pure (.call label "Tuple" [])

mutual

/-- What an operand contributes to a call: a sequence its elements, a group its content, an empty
    group an empty tuple, anything else itself.  Only the first operand of a group is its
    content. -/
def ungroup (fresh : m α) : Tree α → m (List (Tree α))
  | .call label name ops =>
    if (Tree.call label name ops).valid then
      if name = "Sequence" then ungroupAll fresh ops
      else if name = "Delimiter" then
        match ops with
        | [] => do
          let tuple ← emptyTuple fresh
          pure [tuple]
        | body :: _ =>
          if body.isEmptySequence then do
            let tuple ← emptyTuple fresh
            pure [tuple]
          else ungroup fresh body
      else pure [.call label name ops]
    else pure [.call label name ops]
  | e => pure [e]

/-- What operands contribute to a call. -/
def ungroupAll (fresh : m α) : List (Tree α) → m (List (Tree α))
  | [] => pure []
  | op :: rest => do
    let here ← ungroup fresh op
    let others ← ungroupAll fresh rest
    pure (here ++ others)

end

/-- The operands with the sequences and groups among them opened; none if there are no such
    operands. -/
def flattenSequence? (fresh : m α) (ops : List (Tree α)) : m (Option (List (Tree α))) :=
  if ops.any isGrouping then some <$> ungroupAll fresh ops else pure none

/-- A call with the calls of its own head among its operands opened.  A call without such operands
    is returned as it is. -/
def flattenCall (fresh : m α) (e : Tree α) : m (Tree α) :=
  match e with
  | .call _ head ops =>
    match flattenOps? head ops with
    | some flat => do
      let label ← fresh
      pure (.call label head flat)
    | none => pure e
  | e => pure e

end Tree

end Formula
