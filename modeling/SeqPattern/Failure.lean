import SeqPattern.Text.Quoted

namespace SeqPattern

/-- The largest size. As the upper bound of a repetition it stands for no bound at all. -/
def maxSize : Nat := 18446744073709551615

inductive FailureKind where
  | missingArgument
  | outOfRange
  | invalidArgument
  | invalidOperation
  | unsupported
  | defect
  deriving DecidableEq, Repr

def FailureKind.name : FailureKind → String
  | .missingArgument => "NullArgument"
  | .outOfRange => "OutOfRange"
  | .invalidArgument => "InvalidArgument"
  | .invalidOperation => "InvalidOperation"
  | .unsupported => "NotSupported"
  | .defect => "Defect"

structure Report where
  kind : FailureKind
  text : String
  deriving DecidableEq, Repr

/-- A missing argument is reported by its name, a defect by its bare text, and every other
failure by a heading and its text. -/
def Report.display (r : Report) : String :=
  match r.kind with
  | .missingArgument => "Argument \"" ++ r.text ++ "\" is required."
  | .outOfRange => "Out of range: " ++ r.text
  | .invalidArgument => "Invalid argument: " ++ r.text
  | .invalidOperation => "Invalid operation: " ++ r.text
  | .unsupported => "Not supported: " ++ r.text
  | .defect => r.text

def Report.debug (r : Report) : String :=
  r.kind.name ++ "(" ++ Text.quoted '"' r.text.toList ++ ")"

inductive Extent where
  | count
  | length
  deriving DecidableEq, Repr

def Extent.name : Extent → String
  | .count => "count"
  | .length => "length"

inductive Failure where
  | unknownName (name : String)
  | noElement (index count : Nat)
  | indexPastEnd (index : Nat)
  /-- A range ends past the largest size. -/
  | tooLong (extent : Extent) (index size : Nat)
  | endPastEnd (extent : Extent) (stop : Nat)
  | unsuccessfulLength
  | startPastEnd (position : Nat)
  | boundsCrossed (min max : Nat)
  | windowAssigned (index : Nat)
  | collectionLocked
  | matchRemoved (index : Nat)
  | noMatchAt (index count : Nat)
  /-- A search has ended anywhere but one position past the end. -/
  | strayed (position : Nat)
  deriving DecidableEq, Repr

namespace Failure

def kind : Failure → FailureKind
  | unknownName _ => .missingArgument
  | noElement .. | indexPastEnd _ | tooLong .. | startPastEnd _ => .outOfRange
  | endPastEnd .. | unsuccessfulLength | boundsCrossed .. => .invalidArgument
  | collectionLocked => .invalidOperation
  | windowAssigned _ | matchRemoved _ => .unsupported
  | noMatchAt .. | strayed _ => .defect

def text : Failure → String
  | unknownName name => name
  | noElement index count => s!"index {index} is not less than the number of items {count}."
  | indexPastEnd index => s!"index {index} must be less than or equal to the number of items."
  | tooLong extent index size => s!"{extent.name} {size} overflows the index {index}."
  | endPastEnd extent stop =>
    s!"index + {extent.name} ({stop}) must be less than or equal to the number of items."
  | unsuccessfulLength => "success must be true when length is greater than 0."
  | startPastEnd position =>
    s!"start position {position} must be less than or equal to the number of items."
  | boundsCrossed min max =>
    s!"the maximum ({max}) must be greater than or equal to the minimum ({min})."
  | windowAssigned index => s!"modifications to this list are not supported (index {index})."
  | collectionLocked => "the match collection is locked."
  | matchRemoved index => s!"matches can not be removed from the collection (index {index})."
  | noMatchAt index count => s!"index out of bounds: the len is {count} but the index is {index}"
  | strayed position =>
    s!"the search stopped at position {position}, which is not just past the range of the source."

def report (f : Failure) : Report := ⟨f.kind, f.text⟩

/-- What a program shows of the failure. No theorem is about it. -/
def message (f : Failure) : String := f.report.display

end Failure

end SeqPattern
