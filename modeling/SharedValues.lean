import SharedValues.PrintOptions.FromJson
import SharedValues.Proofs.Query.Repeat
import SharedValues.Proofs.Session.Leak
import SharedValues.Proofs.Session.Parsed
import SharedValues.Proofs.Session.Refine
import SharedValues.Proofs.Session.Displayed
import SharedValues.Proofs.Query.Context
import SharedValues.Proofs.Query.Legible
import SharedValues.Proofs.Query.Written
import SharedValues.Proofs.Query.Printer
import SharedValues.Proofs.Query.Isomorphism
import SharedValues.Proofs.Query.Delimiters
import SharedValues.Proofs.Session.Refusal
import SharedValues.Proofs.Chain.Shared
import SharedValues.Proofs.Session.Sharing
import SharedValues.Proofs.Query.Nesting
import SharedValues.Proofs.Query.Broken
import SharedValues.Proofs.Session.Interrupted
import SharedValues.Proofs.Session.Rendered
import SharedValues.Proofs.Word.Bank
import SharedValues.Proofs.Session.Forms
import SharedValues.Proofs.Number.Rounding
import SharedValues.Proofs.Number.SixDigits
import SharedValues.Proofs.Number.Spelling
import SharedValues.Proofs.Number.Stable
import SharedValues.Proofs.Query.Quoted
import SharedValues.Proofs.Query.Symmetry
import SharedValues.Proofs.Query.Acyclic
import SharedValues.Proofs.Heap.Lent
import SharedValues.Proofs.Query.Traversal
import SharedValues.Proofs.Query.Handles
import SharedValues.Proofs.Session.Untouched
import SharedValues.Proofs.Query.Containment
import SharedValues.Proofs.Sequence.Membership
import SharedValues.Proofs.Sequence.Indexing
import SharedValues.Proofs.Sequence.Access
import SharedValues.Proofs.Word.Offsets
import SharedValues.Proofs.Word.Characters
import SharedValues.Proofs.Word.Search
import SharedValues.Proofs.Sequence.Walk
import SharedValues.Proofs.Session.Walking
import SharedValues.Proofs.Number.Monotone
import SharedValues.Proofs.Number.Twice
import SharedValues.Proofs.Session.Conversion
import SharedValues.Proofs.Query.Width
import SharedValues.Proofs.Text.StandIn
import SharedValues.Proofs.Word.Key
import SharedValues.Proofs.Query.Limits
import SharedValues.Proofs.Session.Memo
import SharedValues.Proofs.Heap.Pending
import SharedValues.Proofs.Heap.Recursive
import SharedValues.Proofs.Sequence.Recount
