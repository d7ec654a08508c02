import Ownership.Checker.Session

/-!
# What an expression asks of places

Evaluating an expression comes down to a list of requests to places, in the order of evaluation.
Which requests these are does not depend on the state of the walk.
-/

namespace Ownership

/-- How a place is asked for. -/
inductive Demand where
  /-- Its value is taken: copied or moved, as its type says. -/
  | take
  /-- It is read. -/
  | inspect
  /-- It is borrowed. -/
  | lend (kind : LoanKind)
  /-- It is passed to a parameter that borrows: a reference is read, anything else is borrowed. -/
  | pass (kind : LoanKind)
deriving DecidableEq, Inhabited

/-- One step of an evaluation. -/
inductive Request where
  /-- A place is asked for. With `kept` the loans involved live on in the value of the whole
  expression. -/
  | place (demand : Demand) (place : Place) (span : Span) (kept : Bool)
  /-- The evaluation breaks down. -/
  | fail (fault : Fault)
deriving DecidableEq, Inhabited

/-- The kind of borrow that a mode of passing makes; none for passing by value. -/
def PassMode.loanKind? : PassMode → Option LoanKind
  | byValue => none
  | shared => some .shared
  | exclusive => some .exclusive

/-- What an evaluation looks up: signatures of callees, meanings of names, and the span of the
statement, which stands in for unknown ones. -/
structure EvalScope where
  signature? : String → Except Fault (Option Signature)
  meaning : String → Option Binding
  span : Span

namespace Expr

/-- Reads the place that an expression denotes, or does something else for a value. -/
def inspectOr (s : EvalScope) (e : Expr) (otherwise : List Request) : List Request :=
  match e.place? s.meaning with
  | some p => [.place .inspect p (e.loc.orElse s.span) false]
  | none => otherwise

/-- Takes the value of the place that an expression denotes, or does something else for a value. -/
def takeOr (s : EvalScope) (kept : Bool) (e : Expr) (otherwise : List Request) : List Request :=
  match e.place? s.meaning with
  | some p => [.place .take p (e.loc.orElse s.span) kept]
  | none => otherwise

mutual

def requests (s : EvalScope) (kept : Bool) : Expr → List Request
  | absent | literal .. => []
  | var name loc => (var name loc).takeOr s kept []
  | field e name loc => (field e name loc).takeOr s kept (e.requests s kept)
  | deref e loc => (deref e loc).takeOr s kept (e.requests s kept)
  | borrow e mutable loc =>
    match e.place? s.meaning with
    | some p => [.place (.lend (.ofMutable mutable)) p (loc.orElse s.span) kept]
    | none => e.requests s false
  | call callee args _ =>
    match s.signature? callee with
    | .error fault => [.fail fault]
    | .ok sig => argRequests s ((sig.map (·.modeFor)).getD fun _ => .byValue) 0 args
  | binary _ left right _ =>
    left.inspectOr s (left.requests s false) ++ right.inspectOr s (right.requests s false)
  | construct _ _ args _ => allRequests s kept args
  | foreign kind => [.fail (.unknownExpression kind)]

/-- The requests of a list of expressions whose values are taken. -/
def allRequests (s : EvalScope) (kept : Bool) : List Expr → List Request
  | [] => []
  | e :: rest => e.requests s kept ++ allRequests s kept rest

/-- The requests of the arguments of a call, from an index on. -/
def argRequests (s : EvalScope) (modeFor : Nat → PassMode) (index : Nat) :
    List Expr → List Request
  | [] => []
  | e :: rest =>
    (match (modeFor index).loanKind?, e.place? s.meaning with
      | some kind, some p => [.place (.pass kind) p (e.loc.orElse s.span) false]
      | _, _ => e.requests s false) ++
    argRequests s modeFor (index + 1) rest

end

def readRequests (s : EvalScope) (e : Expr) : List Request := e.inspectOr s (e.requests s false)

end Expr

end Ownership
