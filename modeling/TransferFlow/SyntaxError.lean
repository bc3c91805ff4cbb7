import TransferFlow.Token

namespace TransferFlow

inductive ErrorKind where
  | structureTooShort
  | expectedArrow
  | inconsistentArrows
  | unexpectedEnd
  | invalidProtocolDirection
  | invalidParallelBranch
  deriving DecidableEq, Repr

def ErrorKind.text : ErrorKind → String
  | .structureTooShort => "StructureTooShort"
  | .expectedArrow => "ExpectedArrow"
  | .inconsistentArrows => "InconsistentArrows"
  | .unexpectedEnd => "UnexpectedEnd"
  | .invalidProtocolDirection => "InvalidProtocolDirection"
  | .invalidParallelBranch => "InvalidParallelBranch"

/-- How a report on a malformed step is worded before and after the text of the step. -/
structure StepWording where
  before : String
  after : String
  deriving DecidableEq, Repr

def StepWording.single : StepWording :=
  { before := "Invalid protocol/direction: \"", after := "\". Expected: PROTOCOL PULL/PUSH" }

def StepWording.grouped : StepWording :=
  { before := "Invalid protocol in parallel steps: \"", after := "\". Expected: PROTOCOL PULL/PUSH" }

/-- The cause of a refusal. The parts named are the ones that are written into its message. -/
inductive SyntaxError where
  | tooShort
  | expectedArrow (found : String)
  | inconsistentArrows (before after : Arrow)
  | endAfterArrow
  | missingArrow (wording : String)
  | missingEntity
  | malformedStep (wording : StepWording) (found : String)
  | malformedBranch (branch : String)
  /-- Only blanks follow the arrow of a branch. -/
  | blankTarget (branch : String)
  | repeatedTarget (branch target : String)
  /-- A group stands inside the continuation of a branch. -/
  | nestedGroup (branch : String)
  deriving DecidableEq, Repr

namespace SyntaxError

def kind : SyntaxError → ErrorKind
  | .tooShort => .structureTooShort
  | .expectedArrow _ => .expectedArrow
  | .inconsistentArrows _ _ => .inconsistentArrows
  | .endAfterArrow | .missingArrow _ | .missingEntity => .unexpectedEnd
  | .malformedStep _ _ => .invalidProtocolDirection
  | .malformedBranch _ | .blankTarget _ | .repeatedTarget _ _ | .nestedGroup _ =>
    .invalidParallelBranch

def message : SyntaxError → String
  | .tooShort => "Invalid pattern. Expected: Entity -> PROTOCOL DIRECTION -> Entity"
  | .expectedArrow found => "Expected arrow (<- or ->), got: \"" ++ found ++ "\""
  | .inconsistentArrows before after =>
    "Inconsistent arrows: " ++ before.text ++ " and " ++ after.text ++ ". Both should match."
  | .endAfterArrow => "Unexpected end of pattern after arrow"
  | .missingArrow wording => wording
  | .missingEntity => "Unexpected end of pattern, expected entity"
  | .malformedStep wording found => wording.before ++ found ++ wording.after
  | .malformedBranch branch | .blankTarget branch =>
    "Invalid parallel output: \"" ++ branch ++ "\". Expected: PROTOCOL DIRECTION -> TARGET"
  | .repeatedTarget branch target =>
    "Invalid parallel output: \"" ++ branch ++ "\". Target \"" ++ target ++
      "\" is already used by another branch"
  | .nestedGroup branch =>
    "Invalid parallel output: \"" ++ branch ++
      "\". Parallel groups cannot be nested inside a branch continuation"

end SyntaxError

def missingArrowAfterStep : String :=
  "Unexpected end of pattern, expected arrow"

def missingArrowAfterGroup : String :=
  "Unexpected end of pattern, expected arrow after parallel inputs"

end TransferFlow
