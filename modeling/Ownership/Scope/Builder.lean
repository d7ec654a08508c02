import Ownership.Scope.Tree

/-!
# Building scope trees

The stream is read from left to right with a stack of open scopes. A declaration belongs to the
innermost open scope. A name means its latest declaration in the innermost scope that declares it,
and an initializer is resolved before its own binding is declared.
-/

namespace Ownership

/-- The position of a loop's header and the kind of its node. -/
structure LoopHead where
  start : Int
  header : String

/-- A scope that has been entered and not yet left. -/
structure OpenScope where
  scope : Scope
  label : Int
  /-- The bindings declared in the scope so far, the latest first. -/
  names : List Binding := []
  /-- The head of the loop whose body the scope is. -/
  loop : Option LoopHead := none

/-- A scope tree in the making. -/
structure ScopeBuilder where
  tree : ScopeTree := {}
  /-- The open scopes, the innermost first. -/
  stack : List OpenScope := []
  /-- The head of the last loop, while its body has not been entered. -/
  pending : Option LoopHead := none
  /-- Whether the outermost scope has been left. -/
  closed : Bool := false

namespace ScopeBuilder

/-- The bindings in scope, those that hide others first. -/
def visible (b : ScopeBuilder) : List Binding := b.stack.flatMap (·.names)

def lookup (b : ScopeBuilder) (name : String) : Option Binding :=
  b.visible.find? (·.name = name)

def recordMeaning (b : ScopeBuilder) (label : Int) (name : String) (target : Binding) :
    ScopeBuilder :=
  { b with tree := { b.tree with resolved := b.tree.resolved.insert (label, name) target } }

def recordUse (b : ScopeBuilder) (target : Binding) (pos : Int) : ScopeBuilder :=
  { b with tree := { b.tree with uses := b.tree.uses ++ [(target.index, pos)] } }

def recordDef (b : ScopeBuilder) (target : Binding) (pos : Int) : ScopeBuilder :=
  { b with tree := { b.tree with defs := b.tree.defs ++ [(target.index, pos)] } }

def useName (label pos : Int) (b : ScopeBuilder) (name : String) : ScopeBuilder :=
  match b.lookup name with
  | none => b
  | some target => (b.recordMeaning label name target).recordUse target pos

def useExpr (b : ScopeBuilder) (label pos : Int) (e : Expr) : Except Fault ScopeBuilder :=
  match e.firstForeign? with
  | some kind => .error (.unknownExpression kind)
  | none => .ok (e.vars.foldl (useName label pos) b)

/-- Resolves the target of an assignment. A variable is defined, any other target uses its names. -/
def useTarget (b : ScopeBuilder) (label pos : Int) : Expr → Except Fault ScopeBuilder
  | .var name _ =>
    match b.lookup name with
    | none => .ok b
    | some target => .ok ((b.recordMeaning label name target).recordDef target pos)
  | e => b.useExpr label pos e

/-- What a declaration says about its binding. -/
structure Declaration where
  name : String
  type : Option TypeId := none
  mutable : Bool := false
  isParam : Bool := false
  initialized : Bool := true

def declare (b : ScopeBuilder) (label pos : Int) (d : Declaration) : ScopeBuilder :=
  match b.stack with
  | [] => b
  | top :: rest =>
    let binding : Binding :=
      { name := d.name, index := b.tree.bindings.length, declaredType := d.type
        mutable := d.mutable, scope := top.scope.id, declaredAt := pos, label
        isParam := d.isParam, initialized := d.initialized }
    { b with
      tree := { b.tree with
        bindings := b.tree.bindings ++ [binding]
        defs := b.tree.defs ++ [(binding.index, pos)] }
      stack := { top with names := binding :: top.names } :: rest }

/-- Executes a node that is a statement, a parameter or the header of an arm. -/
def execute (b : ScopeBuilder) (label pos : Int) : Node → Except Fault ScopeBuilder
  | .param p =>
    .ok (b.declare label pos
      { name := p.name, type := p.type, mutable := p.mutable, isParam := true })
  | .arm a _ =>
    .ok (a.named.foldl (fun b name => b.declare label pos { name }) b)
  | .stmt (.declare name type value mutable _) => do
    let b ← b.useExpr label pos value
    return b.declare label pos { name, type, mutable, initialized := value.isPresent }
  | .stmt (.assign target value _) => do
    let b ← b.useExpr label pos value
    b.useTarget label pos target
  | .stmt (.evaluate value _) | .stmt (.ret value _) => b.useExpr label pos value
  | .stmt (.branch test _ _ _) => b.useExpr label pos test
  | .stmt (.loop test body loc) => do
    let b ← b.useExpr label pos test
    return { b with pending := some ⟨pos, (Stmt.loop test body loc).kindName⟩ }
  | .stmt (.select scrutinee _ _ _) => b.useExpr label pos scrutinee
  | .stmt (.block body) => .error (.unexpectedStep (Stmt.block body).kindName)
  | .stmt (.foreign kind) => .error (.unexpectedStep kind)
  | .function => .error (.unexpectedStep Node.function.kindName)

/-- Enters a scope. The outermost scope is the function's; others are blocks unless the event says
otherwise. A loop body whose header did not come just before heads itself. -/
def enter (b : ScopeBuilder) (e : Event) : ScopeBuilder :=
  let kind := if b.stack.isEmpty then .function else e.scopeKind.getD .block
  let outer := match b.stack with
    | [] => []
    | top :: _ => top.scope.id :: top.scope.outer
  let scope : Scope := { id := b.tree.scopes.length, kind, start := e.pos, stop := e.pos, outer }
  let loop := if kind = .loopBody then some (b.pending.getD ⟨e.pos, e.node.kindName⟩) else none
  { b with
    tree := { b.tree with
      scopes := b.tree.scopes ++ [scope]
      opened := b.tree.opened.insert e.label scope.id }
    stack := { scope, label := e.label, loop } :: b.stack
    pending := none }

/-- Leaves the innermost open scope, which has to be the one that the event names. -/
def leave (b : ScopeBuilder) (e : Event) : Except Fault ScopeBuilder :=
  match b.stack with
  | [] => .error (.strayExit e.pos)
  | top :: rest =>
    if top.label ≠ e.label then
      .error (.mismatchedExit e.pos e.node.kindName top.scope.start)
    else
      let loops := match top.loop with
        | some head => b.tree.loops ++ [⟨head.start, e.pos, head.header⟩]
        | none => b.tree.loops
      .ok { b with
        tree := { b.tree with
          scopes := b.tree.scopes.modify top.scope.id fun s => { s with stop := e.pos }
          loops }
        stack := rest
        closed := rest.isEmpty }

def run (b : ScopeBuilder) (e : Event) : Except Fault ScopeBuilder :=
  if b.stack.isEmpty then .error (.strayStep e.pos)
  else
    let positions := b.tree.positions.insert e.label e.pos
    { b with tree := { b.tree with positions }, pending := none }.execute e.label e.pos e.node

def step (b : ScopeBuilder) (e : Event) : Except Fault ScopeBuilder :=
  if b.closed then .error (.afterEnd e.pos)
  else
    match e.kind with
    | .enter => .ok (b.enter e)
    | .exit => b.leave e
    | .step => b.run e

def read (b : ScopeBuilder) : List Event → Except Fault ScopeBuilder
  | [] => .ok b
  | e :: rest => do
    let b ← b.step e
    b.read rest

end ScopeBuilder

namespace ScopeTree

/-- The scope tree of a stream of events. The stream has to open a scope at its start and to close
every scope that it opens, the outermost one at its very end. -/
def ofEvents (events : List Event) : Except Fault ScopeTree :=
  match events with
  | [] => .error .noEntry
  | first :: _ =>
    if first.kind ≠ .enter then .error .noEntry
    else do
      let b ← ScopeBuilder.read { tree := { events } } events
      if b.stack.isEmpty then return b.tree
      else throw (.leftOpen b.stack.length ((events.getLast?.map (·.pos)).getD 0))

def ofFunction (f : Function) : Except Fault ScopeTree := do
  ofEvents (← f.linearize)

end ScopeTree

end Ownership
