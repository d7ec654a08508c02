import Ownership.Checker.Rules

/-!
# Walking a body

The walk follows the structure of the body. Branches and arms start from one state and their results
are merged; a loop is walked once and then again from the merge of its entry with what it left
behind, so that a move in one iteration is met by the uses of the next. Statements after a return
are not walked.
-/

namespace Ownership

namespace Context

/-- Walks a loop again: each time from the merge of all states before it. -/
def replayLoop (again : Session → Except Fault Session) :
    Nat → Flow → Session → Except Fault Session
  | 0, joined, s => .ok (s.withFlow joined)
  | n + 1, joined, s => do
    let s' ← again { s with flow := joined, replay := s.replay + 1 }
    replayLoop again n (joined.merge s'.flow) { s' with replay := s.replay }

mutual

def walkStmt (c : Context) (p : Int) : Stmt → Session → Except Fault Session
  | .block b, s => do
    let s ← c.walkBlock p b s
    return s.snapshot p
  | .declare _ _ value _ loc, s => do
    let s ← c.declare p value loc (s.begin loc)
    return s.snapshot p
  | .assign target value loc, s => do
    let s ← c.assign p target value loc (s.begin loc)
    return s.snapshot p
  | .evaluate value loc, s => do
    let (_, s) ← c.evaluate p loc value (s.begin loc)
    return s.snapshot p
  | .ret value loc, s => do
    let s ← c.giveBack p value loc (s.begin loc)
    return s.snapshot p
  | .branch test t e loc, s => do
    let s ← c.inspect p loc test (s.begin loc)
    let s₁ ← c.walkBlock (p + 1) t s
    let s₂ ← c.walkElse (p + 1 + t.width) e (s₁.withFlow s.flow)
    return (s₂.withFlow (s₁.flow.merge s₂.flow)).snapshot p
  | .loop test body loc, s => do
    let s ← c.inspect p loc test (s.begin loc)
    let s₁ ← c.walkBlock (p + 1) body s
    let again := fun s => do
      let s ← c.inspect p loc test (Session.begin s loc)
      c.walkBlock (p + 1) body s
    let s₂ ← replayLoop again c.replays (s.flow.merge s₁.flow) s₁
    return s₂.snapshot p
  | .select scrutinee arms type loc, s => do
    let (place, s) ← c.scrutinize p loc scrutinee (s.begin loc)
    let s ← c.walkArms ⟨scrutinee, type, p⟩ place s.flow (p + 1) arms none s
    return s.snapshot p
  | .foreign kind, _ => .error (.unknownStatement kind)

def walkBlock (c : Context) (p : Int) : Block → Session → Except Fault Session
  | .mk stmts l, s => do
    let scope ← c.tree.scopeOf p (Stmt.block (.mk stmts l)).kindName
    let s ← c.walkStmts (p + 1) stmts (s.push scope)
    c.exitScope scope s

def walkElse (c : Context) (p : Int) : Option Block → Session → Except Fault Session
  | none, s => .ok s
  | some b, s => c.walkBlock p b s

/-- Walks statements one after another, up to the first return. -/
def walkStmts (c : Context) (p : Int) : List Stmt → Session → Except Fault Session
  | [], s => .ok s
  | stmt :: rest, s =>
    if s.flow.returned then .ok s
    else do
      let s ← c.walkStmt p stmt s
      c.walkStmts (p + stmt.width) rest s

/-- Walks the arms of a selection, each from the state before them; `joined` is the merge of the
states after the arms walked so far. -/
def walkArms (c : Context) (sel : Selection) (place : Option Place) (entry : Flow) (p : Int) :
    List Arm → Option Flow → Session → Except Fault Session
  | [], joined, s => .ok (s.withFlow (joined.getD s.flow))
  | .mk v (.mk stmts l) binders byRef loc :: rest, joined, s => do
    let scope ← c.tree.scopeOf p (Stmt.block (.mk stmts l)).kindName
    let s ← c.bindArm sel place (p + 1) (.mk v (.mk stmts l) binders byRef loc)
      ((s.withFlow entry).push scope)
    let s ← c.walkStmts (p + 2) stmts s
    let s ← c.exitScope scope s
    let joined := match joined with
      | none => s.flow
      | some f => f.merge s.flow
    c.walkArms sel place entry (p + 3 + Stmt.widthAll stmts) rest (some joined) s

end

/-- The session at the start of a function: its parameters are owned. -/
def start (c : Context) (root : Scope) : Session :=
  (c.tree.bindings.filter (·.isParam)).foldl (fun s b => s.mark (.ofBinding b) .owned)
    { scopes := [root] }

def run (c : Context) : Except Fault Session := do
  let root ← c.tree.scopeOf 0 Node.function.kindName
  let s ← c.walkStmts c.function.bodyStart c.function.body.stmts (c.start root)
  c.exitScope root s

end Context

end Ownership
