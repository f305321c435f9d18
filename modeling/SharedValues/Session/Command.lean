import SharedValues.PrintOptions
import SharedValues.Query.Outline
import SharedValues.Query.Render
import SharedValues.Session.Expr

/-!
# Commands and answers

A session is driven by commands.  A command names the register it works on, and possibly a second
value by an expression; each command has one answer.

## Main definitions

* `Command` — the commands, in families that share one form of answer.
* `Answer`, `Reply` — the answers.
-/

namespace SharedValues

/-- How an operation is called. -/
inductive Mode where
  /-- It may refuse. -/
  | checked
  /-- It is promised to apply. -/
  | asserted
  /-- It is promised to apply, save that the parts of a word are checked. -/
  | typed
  deriving DecidableEq, Repr

/-- What happens to a resulting value. -/
structure Keep where
  /-- The register that it goes to; otherwise it is given up. -/
  «to» : Option String
  /-- Whether the answer leaves out its written form. -/
  quiet : Bool
  deriving DecidableEq, Repr

/-- The shapes of sample data. -/
inductive Shape where
  /-- A list of numbers. -/
  | flat
  /-- Lists within lists. -/
  | nested
  /-- An array of numbers. -/
  | array
  deriving DecidableEq, Repr

/-- The name of a shape. -/
def Shape.name : Shape → String
  | flat => "flat"
  | nested => "nested"
  | array => "array"

/-- The values made without regard to any register. -/
inductive Source where
  /-- The empty list. -/
  | emptyList
  /-- An array of empty lists. -/
  | emptyArray (origin : Int) (size : Nat)
  /-- A list of text words. -/
  | words (raws : List String)
  /-- A list of number words. -/
  | numbers (values : List Binary64)
  /-- An array of text words. -/
  | wordArray (origin : Int) (raws : List String)
  /-- Lists within lists. -/
  | nested (raw : String) (depth : Nat)
  /-- A list of text words with the list itself as last element. -/
  | selfContaining (raws : List String)
  /-- A list of text words whose first cell is linked to itself. -/
  | circular (raws : List String)
  /-- Sample data. -/
  | shape (s : Shape) (size : Nat)
  /-- A list of the number of live blocks and its peak, which is set back. -/
  | usage
  deriving DecidableEq, Repr

/-- The parts of a sequence. -/
inductive Piece where
  /-- The element at an index. -/
  | item (index : Int)
  /-- The first element. -/
  | first
  /-- The last element. -/
  | last
  /-- Everything but the first element. -/
  | butFirst
  /-- Everything but the last element. -/
  | butLast
  deriving DecidableEq, Repr

/-- The values obtained from one value. -/
inductive Derivation where
  /-- The value itself. -/
  | same
  /-- A part of a sequence. -/
  | piece (p : Piece) (mode : Mode)
  /-- The first link of a list. -/
  | head
  /-- Another list on the same cells. -/
  | shared
  /-- A list of the elements of an array. -/
  | listOfSlots
  /-- An array of the elements of a list. -/
  | arrayOfElements (origin : Int)
  /-- A copy of some slots of an array. -/
  | part (start stop : Nat)
  /-- The value in a slot of an array, counted from zero. -/
  | slot (n : Nat)
  /-- The name of a syntax node. -/
  | nodeName
  /-- A child of a syntax node, counted from zero. -/
  | child (n : Nat)
  /-- The text of an error. -/
  | errorText
  /-- The tag of an error. -/
  | errorTag
  /-- The element in a cell. -/
  | cellItem
  /-- The next link of a cell. -/
  | cellNext
  /-- Another procedure with the same payload. -/
  | procedureCopy
  deriving DecidableEq, Repr

/-- The values obtained from one value and a second one. -/
inductive Combination where
  /-- The rest of a sequence from the first element on that equals the second value. -/
  | fromMember (ignoreCase : Bool) (mode : Mode)
  /-- A list with the second value in front. -/
  | cons
  deriving DecidableEq, Repr

/-- The changes in place that store a second value. -/
inductive Change where
  /-- Replaces the element at an index. -/
  | setItem (index : Int) (mode : Mode)
  /-- Replaces the first element. -/
  | setFirst (mode : Mode)
  /-- Replaces everything but the first element. -/
  | setButFirst (mode : Mode)
  /-- Adds an element at the end of a list or an array. -/
  | append (mode : Mode)
  /-- Adds an element at the front of a list. -/
  | prepend
  /-- Adds a child to a syntax node. -/
  | addChild
  /-- Replaces the element in a cell. -/
  | setCellItem
  /-- Replaces the next link of a cell. -/
  | setCellNext
  deriving DecidableEq, Repr

/-- The changes in place, and checks of the kind, without a second value. -/
inductive Adjustment where
  /-- Takes all elements from a list. -/
  | clear
  /-- Declares a value immutable. -/
  | freeze
  /-- Makes sure that a value is of a kind. -/
  | decode (kind : Kind) (mode : Mode)
  /-- Gives a list its parsed form. -/
  | setParsed (stamp : Nat) (items : List Expr)
  deriving Repr

/-- What can be asked about one value. -/
inductive Question where
  /-- The kind. -/
  | kind
  /-- Whether the value is of a kind, for each kind but a cell. -/
  | kinds
  /-- Whether the value is of a given kind. -/
  | isKind (k : Kind)
  /-- The number of handles. -/
  | count
  /-- Whether the value is freed with its last handle. -/
  | isDestroyable
  /-- Whether the value has not been declared immutable. -/
  | isMutable
  /-- The number of elements. -/
  | size (mode : Mode)
  /-- Whether an index means an element. -/
  | inRange (index : Int) (mode : Mode)
  /-- Whether there are no elements. -/
  | isEmpty
  /-- The default written form. -/
  | shown
  /-- The form shown to a programmer. -/
  | inspected
  /-- A written form. -/
  | render (style : Style) (o : PrintOptions)
  /-- The written form of a word. -/
  | renderWord (o : PrintOptions)
  /-- The outline. -/
  | outline
  /-- The number of distinct cells of a list, which becomes its size. -/
  | recount
  /-- The time at which the parsed form of a list was made. -/
  | stamp
  /-- The written forms of the parsed form of a list. -/
  | parsed
  /-- The index of the first slot of an array. -/
  | origin
  /-- The written forms of the slots of an array. -/
  | slots
  /-- The number of children of a syntax node. -/
  | childCount
  /-- The written forms of the children of a syntax node. -/
  | children
  /-- The code of an error. -/
  | errorCode
  /-- The payload of a procedure. -/
  | payload
  /-- The payload of a procedure as an integer, which it never is. -/
  | payloadNumber
  /-- The label of a procedure. -/
  | label
  /-- The raw text of a word. -/
  | raw
  /-- The printable text of a word. -/
  | printable
  /-- The key of a word. -/
  | key
  /-- The number of a word. -/
  | number
  /-- Whether a word has a number. -/
  | isNumber
  /-- The number of a word, if it has one. -/
  | number?
  /-- Which forms of a word are known. -/
  | freshness
  /-- Whether a word is special. -/
  | isSpecial
  deriving DecidableEq, Repr

/-- What can be asked about one value and a second one. -/
inductive Comparison where
  /-- Whether they are the same block. -/
  | same
  /-- Whether they are equal. -/
  | equal (ignoreCase : Bool)
  /-- Whether they are equal words. -/
  | wordEqual (ignoreCase : Bool)
  /-- Whether the second word is a part of the first. -/
  | wordContains (ignoreCase : Bool)
  /-- Whether the first contains the second. -/
  | contains (ignoreCase : Bool) (mode : Mode)
  /-- Whether the second is a member of the first. -/
  | isMember (ignoreCase : Bool) (mode : Mode)
  /-- Whether two procedures have the same payload. -/
  | samePayload
  deriving DecidableEq, Repr

/-- How a cursor is put on a value. -/
inductive Opening where
  /-- As on a sequence of any kind. -/
  | sequence (mode : Mode)
  /-- As on an array, whatever the value is. -/
  | array
  /-- As on a word, whatever the value is. -/
  | word
  deriving DecidableEq, Repr

/-- A command of a session. -/
inductive Command where
  /-- Makes the value of an expression. -/
  | make (e : Expr) (keep : Keep)
  /-- Makes a value from a source. -/
  | build (s : Source) (keep : Keep)
  /-- Obtains a value from the one in a register. -/
  | derive (x : String) (d : Derivation) (keep : Keep)
  /-- Obtains a value from the one in a register and a second one. -/
  | combine (x : String) (c : Combination) (y : Expr) (keep : Keep)
  /-- Changes a value in place. -/
  | change (x : String) (c : Change) (y : Expr) (quiet : Bool)
  /-- Changes a value in place, without a second value. -/
  | adjust (x : String) (a : Adjustment) (quiet : Bool)
  /-- Asks about a value. -/
  | ask (x : String) (q : Question)
  /-- Asks about a value and a second one. -/
  | compare (x : String) (c : Comparison) (y : Expr)
  /-- Compares two values inside the trail of the session. -/
  | compareHere (x : String) (ignoreCase : Bool) (y : Expr)
  /-- Writes a value among the sequences that the session is writing. -/
  | renderHere (x : String) (style : Style) (o : PrintOptions)
  /-- Puts a cursor on a value. -/
  | openCursor (x : String) (how : Opening) (target : String)
  /-- Asks a cursor whether an element is ahead. -/
  | hasMore (x : String)
  /-- Advances a cursor. -/
  | next (x : String) (keep : Keep)
  /-- Advances a cursor over an element that was promised to be there. -/
  | takeNext (x : String) (keep : Keep)
  /-- Asks a cursor for bounds on the number of elements ahead. -/
  | sizeHint (x : String)
  /-- Advances a cursor to the end, writing every element. -/
  | collect (x : String)
  /-- Empties a register. -/
  | drop (x : String)
  /-- Empties all registers, in the order of their names. -/
  | dropAll
  /-- The number of live blocks and its peak, which is set back. -/
  | usage
  /-- Whether the session is inside no comparison. -/
  | isIdle
  /-- The name of a shape. -/
  | shapeName (s : Shape)
  deriving Repr

/-- A piece of information. -/
inductive Reply where
  /-- None. -/
  | null
  /-- A truth value. -/
  | flag (b : Bool)
  /-- An integer. -/
  | integer (i : Int)
  /-- A text. -/
  | text (s : String)
  /-- A number. -/
  | number (x : Binary64)
  /-- Some texts. -/
  | texts (ss : List String)
  /-- A lower and an upper bound. -/
  | bounds (low high : Nat)
  /-- A kind. -/
  | kind (k : Kind)
  /-- Some kinds, each with a truth value. -/
  | kinds (ks : List (Kind × Bool))
  /-- Which forms of a word are known. -/
  | freshness (f : Freshness)
  /-- An outline. -/
  | outline (o : Outline)
  deriving Repr

/-- The answer to a command. -/
inductive Answer where
  /-- A value: its kind, and its written form unless it was left out. -/
  | value (kind : Kind) (shown : Option String)
  /-- No value. -/
  | noValue
  /-- A piece of information. -/
  | reply (r : Reply)
  /-- A change was made. -/
  | done
  /-- A change was made; the written form of the changed value. -/
  | shown (s : String)
  /-- The number of live blocks and its peak. -/
  | usage (live peak : Nat)
  /-- The command ended in a fault. -/
  | fault (f : Fault)
  deriving Repr

end SharedValues
