import Ownership.Proofs.Control.Execute

/-!
# Skeletons and paths

The skeleton of a body has its events as leaves and keeps only how control goes on between them:
one after another, one of two ways, again and again. Walking a skeleton is the walk of the body. A
path through a skeleton is a list of events as they can happen in one execution: at each fork one
way is chosen, a loop is repeated as often as one likes, and a return ends the path.
-/

namespace Ownership

/-- The control flow of a body. -/
inductive Skeleton where
  | done
  | event (e : Event)
  /-- A scope from its entry to its exit, which comes even after a return. -/
  | scope (start stop : Int) (node : Node) (kind : ScopeKind) (body : Skeleton)
  /-- The state afterwards is remembered. -/
  | noted (pos : Int) (k : Skeleton)
  /-- One after the other, unless the first part returns. -/
  | seq (k l : Skeleton)
  | fork (k l : Skeleton)
  | loop (pos : Int) (test : Expr) (body : Block) (loc : Span) (inner : Skeleton)

/-- The test of a loop as an event. -/
def Event.test (pos : Int) (test : Expr) (body : Block) (loc : Span) : Event :=
  .step pos (.stmt (.loop test body loc))

namespace Skeleton

/-- Walks a skeleton: both ways of a fork from one state, with their results merged, and a loop once
and then again from the merge of its entry with what it left behind. -/
def walk (c : Context) : Skeleton → Session → Except Fault Session
  | done, s => .ok s
  | event e, s => c.execute e s
  | scope start stop node kind body, s => do
    let s ← c.execute (.enter start node kind) s
    let s ← body.walk c s
    c.execute (.exit start stop node) s
  | noted pos k, s => do
    let s ← k.walk c s
    return s.snapshot pos
  | seq k l, s => do
    let s ← k.walk c s
    if s.flow.returned then return s else l.walk c s
  | fork k l, s => do
    let s₁ ← k.walk c s
    let s₂ ← l.walk c (s₁.withFlow s.flow)
    return s₂.withFlow (s₁.flow.merge s₂.flow)
  | loop pos test body loc inner, s => do
    let s ← c.execute (.test pos test body loc) s
    let s₁ ← inner.walk c s
    let again := fun s => do
      let s ← c.execute (.test pos test body loc) s
      inner.walk c s
    Context.replayLoop again c.replays (s.flow.merge s₁.flow) s₁

end Skeleton

/-! ### Skeletons of statements -/

mutual

/-- The skeleton of a statement at a position. -/
def Stmt.skeleton (p : Int) : Stmt → Skeleton
  | .block b => .noted p (b.skeleton .block p)
  | .branch test t e l =>
    .noted p (.seq (.event (.step p (.stmt (.branch test t e l))))
      (.fork (t.skeleton .branch (p + 1)) (Block.skeletonOpt (p + 1 + t.width) e)))
  | .loop test b l => .noted p (.loop p test b l (b.skeleton .loopBody (p + 1)))
  | .select s arms ty l =>
    .noted p (.seq (.event (.step p (.stmt (.select s arms ty l))))
      (Arm.skeletonAll ⟨s, ty, p⟩ (p + 1) none arms))
  | s => .noted p (.event (.step p (.stmt s)))

def Block.skeleton (kind : ScopeKind) (p : Int) : Block → Skeleton
  | .mk stmts l =>
    .scope p (p + 1 + Stmt.widthAll stmts) (.stmt (.block (.mk stmts l))) kind
      (Stmt.skeletonAll (p + 1) stmts)

/-- The skeleton of an else part at a position. -/
def Block.skeletonOpt (p : Int) : Option Block → Skeleton
  | none => .done
  | some b => b.skeleton .branch p

/-- The skeleton of a list of statements from a position on. -/
def Stmt.skeletonAll (p : Int) : List Stmt → Skeleton
  | [] => .done
  | s :: rest => .seq (s.skeleton p) (Stmt.skeletonAll (p + s.width) rest)

/-- The skeleton of the arms of a selection from a position on; `others` is that of the arms before,
if there are any. -/
def Arm.skeletonAll (sel : Selection) (p : Int) (others : Option Skeleton) : List Arm → Skeleton
  | [] => others.getD .done
  | .mk v (.mk stmts l) binders byRef loc :: rest =>
    let arm := .scope p (p + 2 + Stmt.widthAll stmts) (.stmt (.block (.mk stmts l))) .arm
      (.seq (.event (.step (p + 1) (.arm (.mk v (.mk stmts l) binders byRef loc) (some sel))))
        (Stmt.skeletonAll (p + 2) stmts))
    Arm.skeletonAll sel (p + 3 + Stmt.widthAll stmts)
      (some ((others.map (·.fork arm)).getD arm)) rest

end

def Function.skeleton (f : Function) : Skeleton := Stmt.skeletonAll f.bodyStart f.body.stmts

/-! ### Events in the order of the text -/

/-- The events of a skeleton in the order of the text, each of them once. -/
def Skeleton.events : Skeleton → List Event
  | done => []
  | event e => [e]
  | scope start stop node kind body =>
    .enter start node kind :: (body.events ++ [.exit start stop node])
  | noted _ k => k.events
  | seq k l => k.events ++ l.events
  | fork k l => k.events ++ l.events
  | loop pos test body loc inner => .test pos test body loc :: inner.events

mutual

/-- The skeleton of a statement has the events of the statement. -/
lemma Stmt.events_skeleton (p : Int) (stmt : Stmt) : (stmt.skeleton p).events = stmt.events p := by
  match stmt with
  | .block b =>
    rw [Stmt.skeleton, Stmt.events]
    exact b.events_skeleton .block p
  | .declare _ _ _ _ _ | .assign _ _ _ | .evaluate _ _ | .ret _ _ | .foreign _ =>
    rw [Stmt.skeleton, Stmt.events]
    · rfl
    all_goals simp
  | .branch test t e loc =>
    rw [Stmt.skeleton, Stmt.events]
    simp only [Skeleton.events]
    rw [t.events_skeleton .branch, Block.events_skeletonOpt, List.singleton_append]
  | .loop test body loc =>
    rw [Stmt.skeleton, Stmt.events]
    simp only [Skeleton.events]
    rw [body.events_skeleton .loopBody, Event.test]
  | .select scrutinee arms type loc =>
    rw [Stmt.skeleton, Stmt.events]
    simp only [Skeleton.events]
    rw [Arm.events_skeletonAll, List.singleton_append]
    rfl

lemma Block.events_skeleton (kind : ScopeKind) (p : Int) (b : Block) :
    (b.skeleton kind p).events = b.events kind p := by
  match b with
  | .mk stmts l =>
    rw [Block.skeleton, Block.events, Skeleton.events, Stmt.events_skeletonAll]

lemma Block.events_skeletonOpt (p : Int) (b : Option Block) :
    (Block.skeletonOpt p b).events = Block.eventsOpt p b := by
  match b with
  | none => rfl
  | some b =>
    rw [Block.skeletonOpt, Block.eventsOpt]
    exact b.events_skeleton .branch p

lemma Stmt.events_skeletonAll (p : Int) (stmts : List Stmt) :
    (Stmt.skeletonAll p stmts).events = Stmt.eventsAll p stmts := by
  match stmts with
  | [] => rfl
  | stmt :: rest =>
    rw [Stmt.skeletonAll, Stmt.eventsAll, Skeleton.events, stmt.events_skeleton,
      Stmt.events_skeletonAll (p + stmt.width) rest]

lemma Arm.events_skeletonAll (sel : Selection) (p : Int) (others : Option Skeleton)
    (arms : List Arm) : (Arm.skeletonAll sel p others arms).events =
      (others.map Skeleton.events).getD [] ++ Arm.eventsAll sel p arms := by
  match arms with
  | [] => cases others <;> simp [Arm.skeletonAll, Arm.eventsAll, Skeleton.events]
  | .mk v (.mk stmts l) binders byRef loc :: rest =>
    rw [Arm.skeletonAll, Arm.eventsAll, Arm.events_skeletonAll]
    cases others <;> simp [Skeleton.events, Stmt.events_skeletonAll (p + 2) stmts]

end

lemma Function.events_skeleton (f : Function) :
    f.skeleton.events = Stmt.eventsAll f.bodyStart f.body.stmts :=
  Stmt.events_skeletonAll f.bodyStart f.body.stmts

/-! ### Paths -/

/-- Whether an event returns from the function. -/
def Event.isReturn (e : Event) : Bool :=
  match e.kind, e.node with
  | .step, .stmt (.ret _ _) => true
  | _, _ => false

/-- Rounds of a loop: the test comes before each of them and once at the end. -/
inductive Laps (test : Event) (body : List Event → Bool → Prop) : List Event → Bool → Prop
  | exit : Laps test body [test] false
  | again {π ρ r} : body π false → Laps test body ρ r → Laps test body (test :: (π ++ ρ)) r
  | leave {π} : body π true → Laps test body (test :: π) true

/-- Whether events are a path through a skeleton, and whether it ends in a return. -/
def Skeleton.Path : Skeleton → List Event → Bool → Prop
  | done, π, r => π = [] ∧ r = false
  | event e, π, r => π = [e] ∧ r = e.isReturn
  | scope start stop node kind body, π, r =>
    ∃ ρ, body.Path ρ r ∧
      π = .enter start node kind :: (ρ ++ if r then [] else [.exit start stop node])
  | noted _ k, π, r => k.Path π r
  | seq k l, π, r =>
    (k.Path π true ∧ r = true) ∨ ∃ π₁ π₂, k.Path π₁ false ∧ l.Path π₂ r ∧ π = π₁ ++ π₂
  | fork k l, π, r => k.Path π r ∨ l.Path π r
  | loop pos test body loc inner, π, r => Laps (.test pos test body loc) inner.Path π r

/-- Whether events are a path through the body of a function. -/
def Function.Path (f : Function) (π : List Event) : Prop := ∃ r, f.skeleton.Path π r

lemma Skeleton.exists_path (k : Skeleton) : ∃ π r, k.Path π r := by
  induction k with
  | done => exact ⟨[], false, rfl, rfl⟩
  | event e => exact ⟨[e], e.isReturn, rfl, rfl⟩
  | scope start stop node kind body ih =>
    obtain ⟨ρ, r, h⟩ := ih
    exact ⟨_, r, ρ, h, rfl⟩
  | noted pos k ih => exact ih
  | seq k l ihk ihl =>
    obtain ⟨π, r, hk⟩ := ihk
    cases r with
    | true => exact ⟨π, true, .inl ⟨hk, rfl⟩⟩
    | false =>
      obtain ⟨ρ, r, hl⟩ := ihl
      exact ⟨π ++ ρ, r, .inr ⟨π, ρ, hk, hl, rfl⟩⟩
  | fork k l ihk ihl =>
    obtain ⟨π, r, hk⟩ := ihk
    exact ⟨π, r, .inl hk⟩
  | loop pos test body loc inner ih => exact ⟨_, false, .exit⟩

end Ownership
