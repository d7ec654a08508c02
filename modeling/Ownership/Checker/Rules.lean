import Ownership.Checker.Access

/-!
# Rules for statements without a body

What a declaration, an assignment, a return, the header of an arm and the end of a scope do to the
state of a walk. Control flow is not involved; `Ownership.Checker.Walk` puts the rules together.
-/

namespace Ownership

namespace Context

/-- What evaluations in the statement at a position look up. -/
def evalScope (c : Context) (pos : Int) (loc : Span) : EvalScope :=
  { signature? := c.program.signature?, meaning := c.meaning pos, span := loc }

/-- Evaluates an expression whose value is taken, and says which loans the value carries. -/
def evaluate (c : Context) (pos : Int) (loc : Span) (e : Expr) (s : Session) :
    Except Fault (List Nat × Session) :=
  c.performAll pos s (e.requests (c.evalScope pos loc) true)

def inspect (c : Context) (pos : Int) (loc : Span) (e : Expr) (s : Session) :
    Except Fault Session := do
  let (_, s) ← c.performAll pos s (e.readRequests (c.evalScope pos loc))
  return s

/-- Declares bindings with a value, which carries some loans, or without one. -/
def introduce (c : Context) (pos : Int) (state : PlaceState) (held : List Nat) (s : Session) :
    Session :=
  (c.tree.declaredBy pos).foldl
    (fun s b => (s.mark (.ofBinding b) state).attach c.tree held b pos) s

def declare (c : Context) (pos : Int) (value : Expr) (loc : Span) (s : Session) :
    Except Fault Session := do
  let (held, s) ← c.evaluate pos loc value s
  return c.introduce pos (if value.isPresent then .owned else .uninit) held s

/-- How a value is stored. Storing through a reference reads the reference; what it points to is not
the function's to initialize. -/
def storage (c : Context) (p : Place) : Except Fault Access := do
  match ← c.typing.refPrefix? p with
  | some r => return .read r
  | none => return .write p

/-- Stores a value, which carries some loans. What is stored through a reference stays with its
pointee. -/
def store (c : Context) (pos : Int) (span : Span) (p : Place) (held : List Nat) (s : Session) :
    Except Fault Session := do
  let a ← c.storage p
  let (_, s) ← c.access pos span s a
  return if a = .write p then s.attach c.tree held p.base pos else s

def assign (c : Context) (pos : Int) (target value : Expr) (loc : Span) (s : Session) :
    Except Fault Session := do
  let (held, s) ← c.evaluate pos loc value s
  match target.place? (c.meaning pos) with
  | none => throw (.notAPlace pos)
  | some p => c.store pos (target.loc.orElse loc) p held s

/-! ### Loans that outlive their source -/

def reportDangling (c : Context) (l : Loan) (pos : Int) (span : Span) (viaReturn : Bool)
    (s : Session) : Session :=
  { s with dangling := s.dangling ++ [l.id] }.report
    { pos, span
      violation := .danglingBorrow l.info (c.tree.ownerStop l.place.base) viaReturn }

/-- Reports the loans that leave the function with a returned value. Loans of storage behind a
reference may leave. -/
def escape (c : Context) (pos : Int) (span : Span) : List Nat → Session → Except Fault Session
  | [], s => .ok s
  | id :: rest, s =>
    match s.loans[id]? with
    | none => c.escape pos span rest s
    | some l => do
      match ← c.typing.refPrefix? l.place with
      | some _ => c.escape pos span rest s
      | none => c.escape pos span rest (c.reportDangling l pos span true s)

/-- Whether some holder still has a loan after a scope is gone: it is declared outside, is not
defined again before the end and, if the options ask for that, is used later. -/
def outlives (c : Context) (scope : Scope) (l : Loan) : Bool :=
  l.holders.any fun h =>
    !(c.tree.owner? h.binding).any scope.encloses &&
    !(c.tree.defsOf h.binding).any (fun d => decide (h.since < d) && decide (d ≤ scope.stop)) &&
    (!c.options.danglingRequiresLaterUse ||
      decide (scope.stop < (c.tree.holderWindow h.binding h.since).1))

def danglesAt (c : Context) (scope : Scope) (dangling : List Nat) (l : Loan) : Except Fault Bool :=
  if dangling.contains l.id || l.place.base.scope ≠ scope.id then .ok false
  else do
    match ← c.typing.refPrefix? l.place with
    | some _ => return false
    | none => return c.outlives scope l

/-- Reports the loans whose source is destroyed with a scope while they are still held. -/
def checkDangling (c : Context) (scope : Scope) : List Loan → Session → Except Fault Session
  | [], s => .ok s
  | l :: rest, s => do
    if ← c.danglesAt scope s.dangling l then
      c.checkDangling scope rest (c.reportDangling l scope.stop l.span false s)
    else c.checkDangling scope rest s

/-! ### Ends of scopes -/

/-- The rule for the end of a scope. Nothing is destroyed there on a path that has returned. -/
def exitScope (c : Context) (scope : Scope) (s : Session) : Except Fault Session := do
  if s.flow.returned then return s.close c.tree scope.id
  else
    let s := s.destroy c.tree scope.id scope.stop
    let s ← c.checkDangling scope s.loans s
    return s.close c.tree scope.id

/-- Destroys the bindings of all open scopes and ends the path. -/
def leaveFunction (c : Context) (pos : Int) (s : Session) : Session :=
  let s := s.scopes.foldl (fun s scope => s.destroy c.tree scope.id pos) s
  s.withFlow { s.flow with returned := true }

def giveBack (c : Context) (pos : Int) (value : Expr) (loc : Span) (s : Session) :
    Except Fault Session := do
  if value.isPresent then
    let (held, s) ← c.evaluate pos loc value s
    let s ← c.escape pos (value.loc.orElse loc) held s
    return c.leaveFunction pos s
  else return c.leaveFunction pos s

/-! ### Selections -/

/-- Evaluates a scrutinee. A place is read; if that is refused, the arms do not touch it again. -/
def scrutinize (c : Context) (pos : Int) (loc : Span) (e : Expr) (s : Session) :
    Except Fault (Option Place × Session) :=
  match e.place? (c.meaning pos) with
  | none => do
    let (_, s) ← c.evaluate pos loc e s
    return (none, s)
  | some p =>
    .ok (if (s.flow.refusal? p).isNone then some p else none, c.read p pos (e.loc.orElse loc) s)

/-- Whether binders of some types take something out of the scrutinee: not references, and not
copied. -/
def takesAny (c : Context) : List Ty → Except Fault Bool
  | [] => .ok false
  | ty :: rest => do
    let here ← if ty.isLocalRef then pure false else (!·) <$> c.typing.table.tyIsCopy ty
    let later ← c.takesAny rest
    return here || later

/-- Hands loans to the binders of an arm that are references: a new loan of the scrutinee when the
arm binds by reference, else those that the scrutinee carries. -/
def shareLoans (c : Context) (pos : Int) (span : Span) (byRef : Bool)
    (binders : List (Binding × Ty)) (scrutinee : Option Place) (s : Session) :
    Except Fault Session :=
  let refs := (binders.filter (·.2.isLocalRef)).map (·.1)
  match scrutinee with
  | none => .ok s
  | some p =>
    if !c.tracksLoans || refs.isEmpty then .ok s
    else do
      let (held, s) ← if byRef then c.lend p .shared pos span s else pure (c.carried p pos s, s)
      return refs.foldl (fun s b => s.attach c.tree held b pos) s

def armTypes (c : Context) (sel : Selection) (a : Arm) : Except Fault (List Ty) := do
  let ty ← c.typing.scrutineeType (c.meaning sel.label) sel.scrutinee sel.type
  return Typing.namedTypes a (← c.typing.binderTypes ty a)

def fillBinders (binders : List (Binding × Ty)) (s : Session) : Session :=
  binders.foldl (fun s b => s.mark (.ofBinding b.1) .owned) s

/-- Takes the scrutinee apart, if some binder takes something out of it. -/
def takeApart (c : Context) (pos : Int) (span : Span) (scrutinee : Option Place) (takes : Bool)
    (s : Session) : Except Fault Session :=
  match takes, scrutinee with
  | true, some p => do
    let a ← c.consumption p
    let (_, s) ← c.access pos span s a
    return s
  | _, _ => .ok s

def bindArm (c : Context) (sel : Selection) (scrutinee : Option Place) (pos : Int) (a : Arm)
    (s : Session) : Except Fault Session := do
  let span := a.loc.orElse s.span
  let types ← c.armTypes sel a
  let binders := (c.tree.declaredBy pos).zip types
  let takes ← c.takesAny types
  let s ← c.takeApart pos span scrutinee takes (fillBinders binders s)
  c.shareLoans pos span a.byRef binders scrutinee s

end Context

end Ownership
