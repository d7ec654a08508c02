/-!
# Faults

A fault stops an analysis because its input is malformed. It is never the fault of the author of the
analysed program; what that author did wrong is a finding.

Positions in the linear order of a function body are integers throughout.
-/

namespace Ownership

/-- The number of a type in a table. Valid numbers start at one. -/
structure TypeId where
  val : Int
deriving DecidableEq, Inhabited

/-- What makes a program, a type table or a query unusable. -/
inductive Fault where
  /-- A statement of a kind that no rule knows. -/
  | unknownStatement (kind : String)
  /-- An expression of a kind that no rule knows. -/
  | unknownExpression (kind : String)
  /-- An event executes a node that is not a statement, parameter or arm. -/
  | unexpectedStep (kind : String)
  /-- A node is asked for its position, but no event executes it. -/
  | noPosition (kind : String)
  /-- A node is asked for its scope, but no event enters it. -/
  | noScope (kind : String)
  /-- The target of the assignment at a position denotes no storage. -/
  | notAPlace (position : Int)
  /-- Two functions have one name. -/
  | duplicateFunction (name : String)
  /-- A stream of events does not begin by entering a scope. -/
  | noEntry
  /-- An event follows the end of the outermost scope. -/
  | afterEnd (position : Int)
  /-- A scope is left while none is open. -/
  | strayExit (position : Int)
  /-- The scope that is left is not the innermost open one, which began at `start`. -/
  | mismatchedExit (position : Int) (kind : String) (start : Int)
  /-- A statement is executed while no scope is open. -/
  | strayStep (position : Int)
  /-- The stream ends while scopes are open. -/
  | leftOpen (count : Nat) (position : Int)
  /-- A type contains itself by value; `cycle` names the types on the way. -/
  | cyclicType (name : String) (cycle : List String)
  /-- A type number is not in the table. -/
  | missingType (id : TypeId)
  /-- No type is given where one is needed. -/
  | noType
  /-- A signature without so many parameters is asked for one that is counted from the last. -/
  | noParameter (index : Int)
  /-- A type name is registered twice. -/
  | duplicateType (name : String)
  /-- Fields are given to a type that is not a struct. -/
  | notAStruct (name : String)
  /-- Arms are given to a type that is not a variant. -/
  | notAVariant (name : String)
  /-- The type of an expression of an unknown kind is asked for. -/
  | unhandledExpression (kind : String)
  /-- A finding of an unknown kind is to be described. -/
  | unhandledFinding (kind : String)
deriving DecidableEq, Inhabited

namespace Fault

/-- The families of faults that callers tell apart. -/
inductive Family where
  | malformedProgram
  | unbalancedScopes (position : Int)
  | cyclicType (name : String) (cycle : List String)
  | missingType
  | outOfRange
  | invalidValue
  | unhandled
deriving DecidableEq, Inhabited

def family : Fault → Family
  | unknownStatement _ | unknownExpression _ | unexpectedStep _ | noPosition _ | noScope _
  | notAPlace _ | duplicateFunction _ => .malformedProgram
  | noEntry => .unbalancedScopes 0
  | afterEnd p | strayExit p | mismatchedExit p _ _ | strayStep p | leftOpen _ p =>
    .unbalancedScopes p
  | cyclicType name cycle => .cyclicType name cycle
  | missingType _ | noType => .missingType
  | noParameter _ => .outOfRange
  | duplicateType _ | notAStruct _ | notAVariant _ => .invalidValue
  | unhandledExpression _ | unhandledFinding _ => .unhandled

/-- Whether a fault shows the program to be inconsistent. Other faults are look-ups that fail and
values that do not fit. -/
def isInconsistency (f : Fault) : Bool :=
  match f.family with
  | .malformedProgram | .unbalancedScopes _ | .cyclicType _ _ => true
  | .missingType | .outOfRange | .invalidValue | .unhandled => false

def message : Fault → String
  | unknownStatement kind => s!"unknown statement node {kind}"
  | unknownExpression kind => s!"unknown expression node {kind}"
  | unexpectedStep kind => s!"unexpected statement event for {kind}"
  | noPosition kind => s!"node {kind} has no position (not part of this body?)"
  | noScope kind => s!"{kind} does not open a scope"
  | notAPlace p => s!"assignment target at position {p} is not a place"
  | duplicateFunction name => s!"function '{name}' is declared more than once"
  | noEntry => "event stream must start by entering the function scope"
  | afterEnd _ => "event after the function scope was closed"
  | strayExit _ => "block exit without a matching entry"
  | mismatchedExit p kind start =>
    s!"block exit at {p} closes {kind} but innermost open scope started at {start}"
  | strayStep _ => "statement outside of any scope"
  | leftOpen count _ => s!"{count} scope(s) left open at end of body"
  | cyclicType name cycle =>
    s!"type '{name}' contains itself without indirection: " ++ " -> ".intercalate cycle
  | missingType id => toString id.val
  | noType => "None"
  | noParameter index =>
    -- an index that needs more than 64 bits is refused before it is compared with the length
    if index < Int64.minValue.toInt then "cannot fit 'int' into an index-sized integer"
    else "tuple index out of range"
  | duplicateType name => s!"type '{name}' is already declared"
  | notAStruct name => s!"'{name}' is not a struct"
  | notAVariant name => s!"'{name}' is not a variant"
  | unhandledExpression kind => s!"unhandled expression {kind}"
  | unhandledFinding kind => s!"unhandled finding type {kind}"

end Fault

end Ownership
