import Ownership.Proofs.Checker.Session

/-!
# Executing events one by one

The rules of the walk, arranged by events instead of by the structure of a body. Following a list of
events keeps a single ownership state: nothing is merged and nothing is walked twice. Next to the
execution stands the list of accesses that a rule tries on its way, each with the session it meets.
-/

namespace Ownership

namespace Context

/-! ### Execution -/

/-- The scrutinee as the arms of a selection see it: a place, unless it cannot be used. -/
def touchable (c : Context) (sel : Selection) (s : Session) : Option Place :=
  (sel.scrutinee.place? (c.meaning sel.label)).filter fun p => (s.flow.refusal? p).isNone

/-- Executes a node at a position by the rule for it. What has a body executes its header only. -/
def executeNode (c : Context) (pos : Int) (s : Session) : Node → Except Fault Session
  | .stmt (.declare _ _ value _ loc) => c.declare pos value loc (s.begin loc)
  | .stmt (.assign target value loc) => c.assign pos target value loc (s.begin loc)
  | .stmt (.evaluate value loc) => Prod.snd <$> c.evaluate pos loc value (s.begin loc)
  | .stmt (.ret value loc) => c.giveBack pos value loc (s.begin loc)
  | .stmt (.branch test _ _ loc) | .stmt (.loop test _ loc) => c.inspect pos loc test (s.begin loc)
  | .stmt (.select scrutinee _ _ loc) => Prod.snd <$> c.scrutinize pos loc scrutinee (s.begin loc)
  | .stmt (.foreign kind) => .error (.unknownStatement kind)
  | .arm a (some sel) => c.bindArm sel (c.touchable sel s) pos a s
  | .arm _ none | .stmt (.block _) | .function | .param _ => .ok s

def execute (c : Context) (e : Event) (s : Session) : Except Fault Session :=
  match e.kind with
  | .step => c.executeNode e.pos s e.node
  | .enter => s.push <$> c.tree.scopeOf e.label e.node.kindName
  | .exit => c.tree.scopeOf e.label e.node.kindName >>= (c.exitScope · s)

def follow (c : Context) : List Event → Session → Except Fault Session
  | [], s => .ok s
  | e :: rest, s => c.execute e s >>= c.follow rest

lemma follow_append (c : Context) (π ρ : List Event) (s : Session) :
    c.follow (π ++ ρ) s = c.follow π s >>= c.follow ρ := by
  induction π generalizing s with
  | nil => rfl
  | cons e π ih =>
    rw [List.cons_append, follow, follow]
    cases c.execute e s with
    | error fault => rfl
    | ok s' => exact ih s'

/-! ### Accesses on the way -/

def asked (c : Context) : Request → Except Fault Access
  | .fail fault => .error fault
  | .place demand p _ _ => c.demanded p demand

/-- Whether performing requests in a session tries an access, and in which session. -/
def Asks (c : Context) (pos : Int) : List Request → Session → Access → Session → Prop
  | [], _, _, _ => False
  | r :: rest, s, a, u =>
    (c.asked r = .ok a ∧ u = s) ∨ ∃ k, c.perform pos s r = .ok k ∧ c.Asks pos rest k.2 a u

/-- Whether the header of an arm tries an access. It takes its scrutinee apart, and then it may
borrow it for binders that are references. -/
def ArmTries (c : Context) (sel : Selection) (scrutinee : Option Place) (pos : Int) (arm : Arm)
    (s : Session) (a : Access) (u : Session) : Prop :=
  ∃ p types takes, scrutinee = some p ∧ c.armTypes sel arm = .ok types ∧
    c.takesAny types = .ok takes ∧
    let binders := (c.tree.declaredBy pos).zip types
    (takes = true ∧ c.consumption p = .ok a ∧ u = fillBinders binders s) ∨
    (arm.byRef = true ∧ (binders.any (·.2.isLocalRef)) = true ∧ a = .lend p .shared ∧
      c.takeApart pos (arm.loc.orElse s.span) (some p) takes (fillBinders binders s) = .ok u)

/-- Whether executing a node in a session tries an access, and in which session. -/
def NodeTries (c : Context) (pos : Int) (s : Session) (a : Access) (u : Session) : Node → Prop
  | .stmt (.declare _ _ value _ loc) | .stmt (.evaluate value loc) | .stmt (.ret value loc) =>
    c.Asks pos (value.requests (c.evalScope pos loc) true) (s.begin loc) a u
  | .stmt (.assign target value loc) =>
    c.Asks pos (value.requests (c.evalScope pos loc) true) (s.begin loc) a u ∨
      ∃ k, c.evaluate pos loc value (s.begin loc) = .ok k ∧
        ∃ p, target.place? (c.meaning pos) = some p ∧ c.storage p = .ok a ∧ u = k.2
  | .stmt (.branch test _ _ loc) | .stmt (.loop test _ loc) =>
    c.Asks pos (test.readRequests (c.evalScope pos loc)) (s.begin loc) a u
  | .stmt (.select scrutinee _ _ loc) =>
    match scrutinee.place? (c.meaning pos) with
    | some p => a = .read p ∧ u = s.begin loc
    | none => c.Asks pos (scrutinee.requests (c.evalScope pos loc) true) (s.begin loc) a u
  | .arm arm (some sel) => c.ArmTries sel (c.touchable sel s) pos arm s a u
  | .stmt (.foreign _) | .arm _ none | .stmt (.block _) | .function | .param _ => False

/-- Whether executing an event in a session tries an access, and in which session. Entering and
leaving scopes tries none. -/
def Tries (c : Context) (e : Event) (s : Session) (a : Access) (u : Session) : Prop :=
  e.kind = .step ∧ c.NodeTries e.pos s a u e.node

end Context

end Ownership
