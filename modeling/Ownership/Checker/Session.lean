import Ownership.Finding
import Ownership.Flow
import Ownership.Options
import Ownership.Scope.Builder
import Ownership.Typing

/-!
# The state of a walk

A walk goes through a function body in program order and keeps the ownership state of the current
path, the open scopes and the loans, next to what it has reported so far.
-/

namespace Ownership

/-- The destruction of a binding at the end of its scope or at a return. -/
structure Drop where
  binding : String
  /-- Tells bindings of one name apart. -/
  declaredAt : Int
  pos : Int
  isPartial : Bool := false
  movedFields : List String := []
deriving DecidableEq, Inhabited

/-- What a walk knows after a statement. -/
structure Snapshot where
  pos : Int
  replay : Nat
  flow : Flow
  loans : List Loan

/-- What a walk needs to know about its function. -/
structure Context where
  program : Program
  function : Function
  tree : ScopeTree
  typing : Typing
  options : Options := {}
  /-- Whether borrows are tracked besides moves. -/
  tracksLoans : Bool := true
  /-- How often a loop is walked again after its first iteration. -/
  replays : Nat := 1

/-- The state of a walk. -/
structure Session where
  flow : Flow := {}
  /-- The open scopes, the innermost first. -/
  scopes : List Scope := []
  /-- How many loops are being walked again. -/
  replay : Nat := 0
  /-- The span of the statement that was begun last. -/
  span : Span := .unknown
  findings : List Finding := []
  drops : List Drop := []
  loans : List Loan := []
  /-- The loans that have been reported as dangling. -/
  dangling : List Nat := []
  trace : List Snapshot := []

namespace Session

instance : Inhabited Session := ⟨{}⟩

/-- Records a finding. While a loop is walked again, a finding that repeats a recorded one is
dropped. -/
def report (s : Session) (f : Finding) : Session :=
  if s.replay > 0 && s.findings.any f.repeats then s
  else { s with findings := s.findings ++ [f] }

/-- Records a destruction. While a loop is walked again, a recorded one is not recorded again. -/
def recordDrop (s : Session) (d : Drop) : Session :=
  if s.replay > 0 && s.drops.contains d then s
  else { s with drops := s.drops ++ [d] }

def mark (s : Session) (p : Place) (st : PlaceState) : Session :=
  { s with flow := s.flow.mark p st }

/-- Destroys a binding at a position, if there is something left to destroy. -/
def drop (pos : Int) (s : Session) (b : Binding) : Session :=
  match s.flow.status b with
  | .owned => s.recordDrop { binding := b.name, declaredAt := b.declaredAt, pos }
  | .partiallyMoved fields =>
    s.recordDrop
      { binding := b.name, declaredAt := b.declaredAt, pos, isPartial := true,
        movedFields := fields }
  | .movedOut | .uninitialized => s

/-- Destroys the bindings of a scope at a position, the latest declaration first. -/
def destroy (s : Session) (tree : ScopeTree) (scope : Nat) (pos : Int) : Session :=
  (tree.dropOrder scope).foldl (drop pos) s

/-- Forgets the bindings of a scope and leaves the innermost open scope. -/
def close (s : Session) (tree : ScopeTree) (scope : Nat) : Session :=
  { s with
    flow := (tree.bindingsOf scope).foldl Flow.forget s.flow
    scopes := s.scopes.tail }

def attach (s : Session) (tree : ScopeTree) (held : List Nat) (b : Binding) (since : Int) :
    Session :=
  { s with loans := s.loans.map fun l => if l.id ∈ held then l.attach tree b since else l }

def liveLoans (s : Session) (place : Place) (pos : Int) : List Loan :=
  s.loans.filter fun l => l.activeAt pos && l.place.overlaps place

def carriedBy (s : Session) (tree : ScopeTree) (place : Place) (pos : Int) : List Nat :=
  (s.loans.filter fun l => l.activeAt pos && l.heldBy tree place.base pos).map (·.id)

def begin (s : Session) (loc : Span) : Session := { s with span := loc }

def withFlow (s : Session) (f : Flow) : Session := { s with flow := f }

def push (s : Session) (scope : Scope) : Session := { s with scopes := scope :: s.scopes }

def snapshot (s : Session) (pos : Int) : Session :=
  { s with trace := s.trace ++ [{ pos, replay := s.replay, flow := s.flow, loans := s.loans }] }

end Session

namespace Context

def meaning (c : Context) (pos : Int) : String → Option Binding := c.tree.resolve pos

/-- The context of a function, once its scopes and types are known. -/
def build (program : Program) (f : Function) (options : Options) : Except Fault Context := do
  let tree ← ScopeTree.ofFunction f
  let typing ← Typing.ofTree program tree
  return { program, function := f, tree, typing, options }

end Context

end Ownership
