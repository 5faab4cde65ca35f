import Formula.Token.Lexer
import Formula.Latex.Join
import Formula.Text
import Formula.Expr.MathJson
import Formula.Expr.Error
import Formula.Domain.Lattice
import Formula.Domain.Expression
import Formula.Domain.Order
import Formula.Domain.Consultation
import Formula.Dictionary
import Formula.Engine
import Formula.Reader
import Formula.Standard
import Formula.Script.Patterns
import Formula.Session
import Formula.Reader.Walk
import Formula.Proofs.Occurrence
import Formula.Proofs.Normalize
import Formula.Proofs.Reader.Paired
import Formula.Proofs.Reader.Place
import Formula.Proofs.Dictionary.Register
import Formula.Proofs.Dictionary.Candidates
import Formula.Proofs.Reader.Settle
import Formula.Proofs.Standard.Scripts
import Formula.Proofs.Reader.Termination
import Formula.Proofs.Reader.NormalForm
import Formula.Proofs.Normalize.Frontier
import Formula.Proofs.Normalize.Passes
import Formula.Proofs.Normalize.Nesting
import Formula.Proofs.Reader.Climb
import Formula.Proofs.Reader.Parts
import Formula.Proofs.Reader.Phrase
import Formula.Proofs.Latex.Pieces
import Formula.Proofs.Token.Grammar
import Formula.Proofs.Token.Canonical
import Formula.Proofs.Latex.Source
import Formula.Proofs.Latex.Spelling
import Formula.Proofs.Latex.Operators
import Formula.Proofs.Latex.Leaves
import Formula.Proofs.Latex.Regrouping
import Formula.Proofs.OperatorTable
import Formula.Proofs.Standard.Operators
import Formula.Proofs.Standard.Relations
import Formula.Proofs.Standard.Arithmetic
import Formula.Proofs.Standard.Crosses
import Formula.Proofs.Standard.Gate
import Formula.Proofs.OperatorChain
import Formula.Proofs.Dictionary.Insertion
import Formula.Proofs.Reader.Rejection
import Formula.Proofs.Domain.Equality
import Formula.Proofs.Domain.Bounds
import Formula.Proofs.Domain.Preorder
import Formula.Proofs.Domain.Optional
import Formula.Proofs.Domain.Expression
import Formula.Proofs.Domain.Ancestors
import Formula.Proofs.Reader.Bound
import Formula.Proofs.Sources
import Formula.Proofs.Reader.Padding
import Formula.Proofs.Dictionary.Lengths
import Formula.Proofs.Dictionary.Extent
import Formula.Proofs.Reader.Correspondence
import Formula.Proofs.Reader.Lockstep
import Formula.Proofs.Reader.Spacing
import Formula.Proofs.Reader.Nesting
import Formula.Proofs.Standard.StrayBrace
import Formula.Proofs.Reader.Synonyms
import Formula.Proofs.Standard.Juxtaposition
import Formula.Proofs.Errors
import Formula.Proofs.Reader.Accounts
import Formula.Proofs.Session.Ledger
import Formula.Proofs.Session.Reading
import Formula.Proofs.Session.Answers
import Formula.Proofs.Latex.Atoms
import Formula.Proofs.Standard.Braces
import Formula.Proofs.Reader.Tables
import Formula.Proofs.Latex.Tables
import Formula.Proofs.Standard.Matrices
import Formula.Proofs.Expr.MathJson
import Formula.Proofs.Dictionary.Longest
import Formula.Proofs.Dictionary.Acceptance
import Formula.Proofs.Misreading
import Formula.Proofs.OperatorSigns
import Formula.Proofs.Standard.Pairs
import Formula.Proofs.Standard.Lists
import Formula.Proofs.Latex.Fragments
import Formula.Proofs.Reader.Skipping
import Formula.Proofs.Standard.Numerals
