import Ownership.Syntax.Program

/-!
# The linear order of a body

A function is flattened into a stream of events: scopes are entered and left, and statements,
parameters and headers of arms are executed. An event's position is its place in the stream. Leaving
a scope has a position of its own, so destruction never shares a position with a statement.

Each event carries the *label* of its node. In the stream of a function the label of a node is the
position of its first event, so the two events of a scope have one label. A stream made by hand may
use any numbers that tell its nodes apart.
-/

namespace Ownership

/-- What a scope belongs to. -/
inductive ScopeKind where
  | function
  | block
  | branch
  | loopBody
  | arm
deriving DecidableEq, Inhabited

/-- The selection that an arm belongs to. -/
structure Selection where
  scrutinee : Expr
  type : Option TypeId
  label : Int

/-- The nodes that events are about. The header of an arm knows its selection, unless it stands
alone. -/
inductive Node where
  | function
  | param (param : Param)
  | stmt (stmt : Stmt)
  | arm (arm : Arm) (selection : Option Selection)

def Node.kindName : Node → String
  | function => "FunctionDecl"
  | param _ => "Param"
  | stmt s => s.kindName
  | arm .. => "MatchArm"

def Node.expressions : Node → List Expr
  | stmt s => s.expressions
  | function | param _ | arm .. => []

/-- What an event does with its node. -/
inductive EventKind where
  | enter
  | exit
  | step
deriving DecidableEq, Inhabited

/-- An event of the linear order. -/
structure Event where
  kind : EventKind
  label : Int
  pos : Int
  node : Node
  scopeKind : Option ScopeKind := none

namespace Event

def step (p : Int) (node : Node) : Event := { kind := .step, label := p, pos := p, node }

def enter (p : Int) (node : Node) (kind : ScopeKind) : Event :=
  { kind := .enter, label := p, pos := p, node, scopeKind := some kind }

/-- The exit at a position of the scope that was entered at `start`. -/
def exit (start p : Int) (node : Node) : Event := { kind := .exit, label := start, pos := p, node }

end Event

/-! ### Streams of statements -/

mutual

def Stmt.events (p : Int) : Stmt → List Event
  | .block b => b.events .block p
  | .branch test t e l =>
    .step p (.stmt (.branch test t e l)) ::
      (t.events .branch (p + 1) ++ Block.eventsOpt (p + 1 + t.width) e)
  | .loop test b l => .step p (.stmt (.loop test b l)) :: b.events .loopBody (p + 1)
  | .select s arms ty l =>
    .step p (.stmt (.select s arms ty l)) :: Arm.eventsAll ⟨s, ty, p⟩ (p + 1) arms
  | s => [.step p (.stmt s)]

def Block.events (kind : ScopeKind) (p : Int) : Block → List Event
  | .mk stmts l =>
    .enter p (.stmt (.block (.mk stmts l))) kind ::
      (Stmt.eventsAll (p + 1) stmts ++
        [.exit p (p + 1 + Stmt.widthAll stmts) (.stmt (.block (.mk stmts l)))])

def Block.eventsOpt (p : Int) : Option Block → List Event
  | none => []
  | some b => b.events .branch p

def Stmt.eventsAll (p : Int) : List Stmt → List Event
  | [] => []
  | s :: rest => s.events p ++ Stmt.eventsAll (p + s.width) rest

/-- The events of the arms of a selection from a position on. The header of an arm, which declares
its binders, is the first thing inside its scope. -/
def Arm.eventsAll (sel : Selection) (p : Int) : List Arm → List Event
  | [] => []
  | .mk v (.mk stmts l) binders byRef loc :: rest =>
    .enter p (.stmt (.block (.mk stmts l))) .arm ::
      .step (p + 1) (.arm (.mk v (.mk stmts l) binders byRef loc) (some sel)) ::
      (Stmt.eventsAll (p + 2) stmts ++
        .exit p (p + 2 + Stmt.widthAll stmts) (.stmt (.block (.mk stmts l))) ::
        Arm.eventsAll sel (p + 3 + Stmt.widthAll stmts) rest)

end

def Param.eventsAll (p : Int) : List Param → List Event
  | [] => []
  | param :: rest => .step p (.param param) :: Param.eventsAll (p + 1) rest

namespace Function

/-- The position of the first statement of a function: its entry and its parameters come first. -/
def bodyStart (f : Function) : Int := 1 + f.params.length

def stop (f : Function) : Int := f.bodyStart + Stmt.widthAll f.body.stmts

def events (f : Function) : List Event :=
  .enter 0 .function .function ::
    (Param.eventsAll 1 f.params ++ Stmt.eventsAll f.bodyStart f.body.stmts ++
      [.exit 0 f.stop .function])

/-- The stream of a function whose statements are all of known kinds. -/
def linearize (f : Function) : Except Fault (List Event) :=
  match f.body.firstForeign? with
  | some kind => .error (.unknownStatement kind)
  | none => .ok f.events

end Function

end Ownership
