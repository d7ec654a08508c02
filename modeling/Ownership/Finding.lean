import Ownership.Loan

/-!
# Findings and diagnostics

A finding is one violation of a rule by the analysed program, with the position at which it was
detected. A diagnostic is its flat form for renderers.
-/

namespace Ownership

/-- The streams that findings come from. At one position they are reported in this order. -/
inductive Component where
  | ownership
  | borrow
  | exhaustiveness
deriving DecidableEq, Inhabited

def Component.rank : Component → Nat
  | ownership => 0
  | borrow => 1
  | exhaustiveness => 2

def Component.phase : Component → String
  | ownership | borrow => "borrowcheck"
  | exhaustiveness => "matchcheck"

/-- What a finding is about. -/
inductive Violation where
  /-- A place is used after it, a part of it or something around it was moved. -/
  | useAfterMove (binding place movedPlace : String) (movedAt : Int) (movedSpan : Span)
  | useOfUninitialized (binding : String)
  | moveWhileBorrowed (binding place : String) (borrow : BorrowInfo)
  /-- A borrow or a read is requested while an incompatible borrow is live. -/
  | aliasConflict (binding : String) (existing requested : BorrowInfo)
  | borrowOfMoved (binding place movedPlace : String) (movedAt : Int)
  /-- A borrow is live where its source is destroyed. -/
  | danglingBorrow (borrow : BorrowInfo) (sourceStop : Int) (viaReturn : Bool)
  | writeWhileBorrowed (binding place : String) (existing : BorrowInfo)
  /-- An immutable binding is borrowed exclusively (`"borrow"`) or assigned again. -/
  | mutability (binding action : String)
  | nonExhaustiveMatch (typeName : String) (missing : List String)
  /-- An arm that can never be chosen, because of an earlier one. -/
  | unreachableArm (variant : Option String) (firstArm : Int) (afterWildcard : Bool)
  | unknownVariant (typeName variant : String)
  | nonVariantScrutinee (typeName : String)
deriving DecidableEq, Inhabited

namespace Violation

/-- The stable code of a violation. -/
def code : Violation → String
  | useAfterMove .. => "E_USE_AFTER_MOVE"
  | useOfUninitialized .. => "E_USE_UNINIT"
  | moveWhileBorrowed .. => "E_MOVE_WHILE_BORROWED"
  | aliasConflict .. => "E_ALIAS_CONFLICT"
  | borrowOfMoved .. => "E_BORROW_OF_MOVED"
  | danglingBorrow .. => "E_DANGLING_BORROW"
  | writeWhileBorrowed .. => "E_WRITE_WHILE_BORROWED"
  | mutability .. => "E_MUTABILITY"
  | nonExhaustiveMatch .. => "E_MATCH_NONEXHAUSTIVE"
  | unreachableArm .. => "E_MATCH_UNREACHABLE_ARM"
  | unknownVariant .. => "E_MATCH_UNKNOWN_VARIANT"
  | nonVariantScrutinee .. => "E_MATCH_NOT_VARIANT"

def component : Violation → Component
  | useAfterMove .. | useOfUninitialized .. | moveWhileBorrowed .. => .ownership
  | aliasConflict .. | borrowOfMoved .. | danglingBorrow .. | writeWhileBorrowed ..
  | mutability .. => .borrow
  | nonExhaustiveMatch .. | unreachableArm .. | unknownVariant .. | nonVariantScrutinee .. =>
    .exhaustiveness

private def liveNote (b : BorrowInfo) : String :=
  "borrow `" ++ b.describe ++ "` taken at " ++ toString b.start ++ " is live until "
    ++ toString b.stop

def message : Violation → String
  | useAfterMove _ place .. => s!"use after move of '{place}'"
  | useOfUninitialized binding => s!"use of possibly uninitialized '{binding}'"
  | moveWhileBorrowed _ place _ => s!"cannot move '{place}' while borrowed"
  | aliasConflict _ _ requested =>
    match requested.kind with
    | .exclusive =>
      "cannot borrow '" ++ requested.place ++ "' as mutable while it is borrowed"
    | .shared => "cannot access '" ++ requested.place ++ "' while it is mutably borrowed"
  | borrowOfMoved _ place .. => s!"cannot borrow '{place}': value moved"
  | danglingBorrow b _ viaReturn =>
    if viaReturn then "borrow of '" ++ b.place ++ "' escapes the function"
    else "'" ++ b.place ++ "' does not live long enough"
  | writeWhileBorrowed _ place _ => s!"cannot write to '{place}' while it is borrowed"
  | mutability binding action =>
    if action = "borrow" then s!"cannot borrow immutable binding '{binding}' as mutable"
    else s!"cannot assign twice to immutable binding '{binding}'"
  | nonExhaustiveMatch typeName missing =>
    s!"non-exhaustive match over '{typeName}' (missing: " ++ ", ".intercalate missing ++ ")"
  | unreachableArm variant _ afterWildcard =>
    let what := match variant with
      | none => "wildcard arm"
      | some v => s!"arm for '{v}'"
    let reason := if afterWildcard then "follows a wildcard" else "duplicates an earlier arm"
    s!"unreachable {what}: {reason}"
  | unknownVariant typeName variant => s!"'{typeName}' has no variant '{variant}'"
  | nonVariantScrutinee typeName => s!"cannot match on non-variant type '{typeName}'"

def notes : Violation → List String
  | useAfterMove _ place movedPlace movedAt movedSpan =>
    let site := movedSpan.describe
    let moved := s!"value moved at position {movedAt} ({site})"
    if movedPlace ≠ place then [moved, s!"'{movedPlace}' was moved"] else [moved]
  | moveWhileBorrowed _ _ b => [liveNote b]
  | aliasConflict _ existing _ => [liveNote existing]
  | borrowOfMoved _ _ movedPlace movedAt => [s!"'{movedPlace}' moved at position {movedAt}"]
  | danglingBorrow b sourceStop viaReturn =>
    if viaReturn then ["'" ++ b.place ++ "' is destroyed at " ++ toString sourceStop]
    else ["borrowed at " ++ toString b.start ++ ", destroyed at " ++ toString sourceStop
      ++ ", borrow still used at " ++ toString b.stop]
  | writeWhileBorrowed _ _ existing => [liveNote existing]
  | unreachableArm _ firstArm _ => [s!"earlier arm at position {firstArm}"]
  | useOfUninitialized .. | mutability .. | nonExhaustiveMatch .. | unknownVariant ..
  | nonVariantScrutinee .. => []

end Violation

/-- A violation and where it was detected. -/
structure Finding where
  pos : Int
  span : Span := .unknown
  violation : Violation
deriving DecidableEq, Inhabited

/-- A flat message for renderers. -/
structure Diagnostic where
  message : String
  code : Option String := none
  phase : Option String := none
  severity : String := "error"
  span : Span := .unknown
  notes : List String := []
deriving DecidableEq, Inhabited

namespace Finding

def component (f : Finding) : Component := f.violation.component

def toDiagnostic (f : Finding) : Diagnostic :=
  { message := f.violation.message
    code := some f.violation.code
    phase := some f.component.phase
    span := f.span
    notes := f.violation.notes }

def repeats (f g : Finding) : Bool :=
  f.violation.code = g.violation.code && f.pos = g.pos && f.violation.message = g.violation.message

def reportedBefore (f g : Finding) : Bool :=
  decide (f.pos < g.pos) || (f.pos = g.pos && decide (f.component.rank ≤ g.component.rank))

/-- Brings streams of findings into the order of a report. Findings of one component at one position
keep the order of their detection. -/
def collect (streams : List (List Finding)) : List Finding :=
  stableSort reportedBefore streams.flatten

end Finding

end Ownership
