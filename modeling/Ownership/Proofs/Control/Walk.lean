import Ownership.Proofs.Moves.Acts
import Ownership.Proofs.Moves.Events

/-!
# The walk of a body is the walk of its skeleton

The walk follows the syntax of a body, whose statements, blocks and arms contain each other. Here
it is shown to be the walk of the skeleton, so that all that is left to prove can be proved by
induction on skeletons.
-/

namespace Ownership

lemma Fault.bind_congr_ok {α β : Type} {x : Except Fault α} {f g : α → Except Fault β}
    (h : ∀ a, x = .ok a → f a = g a) : x >>= f = x >>= g := by
  cases x with
  | error fault => rfl
  | ok a => exact h a rfl

namespace Context

variable {c : Context}

/-- Walks one arm of a selection, from the state before the arms. -/
def walkArm (c : Context) (sel : Selection) (place : Option Place) (entry : Flow) (p : Int)
    (a : Arm) (s : Session) : Except Fault Session := do
  let scope ← c.tree.scopeOf p (Stmt.block a.body).kindName
  let s ← c.bindArm sel place (p + 1) a ((s.withFlow entry).push scope)
  let s ← c.walkStmts (p + 2) a.body.stmts s
  c.exitScope scope s

lemma walkArms_cons (sel : Selection) (place : Option Place) (entry : Flow) (p : Int) (a : Arm)
    (rest : List Arm) (joined : Option Flow) (s : Session) :
    c.walkArms sel place entry p (a :: rest) joined s = c.walkArm sel place entry p a s >>= fun s =>
      c.walkArms sel place entry (p + 3 + Stmt.widthAll a.body.stmts) rest
        (some (joined.elim s.flow (·.merge s.flow))) s := by
  obtain ⟨v, ⟨stmts, l⟩, binders, byRef, loc⟩ := a
  rw [walkArms, walkArm]
  simp only [bind_assoc]
  cases joined <;> rfl

/-- The arms of a selection go on from the states merged so far; only those matter. -/
lemma walkArms_withFlow (sel : Selection) (place : Option Place) (entry : Flow) (p : Int)
    (arms : List Arm) (f : Flow) (s : Session) :
    c.walkArms sel place entry p arms (some f) (s.withFlow f) =
      c.walkArms sel place entry p arms (some f) s := by
  cases arms with
  | nil => rfl
  | cons arm rest =>
    rw [walkArms_cons, walkArms_cons]
    rfl

lemma scrutinize_cases {pos : Int} {loc : Span} {e : Expr} {type : Option TypeId} {s : Session}
    {place : Option Place} {s' : Session} (h : c.scrutinize pos loc e s = .ok (place, s')) :
    ∀ t : Session, t.flow = s'.flow → c.touchable ⟨e, type, pos⟩ t = place := by
  intro t ht
  unfold scrutinize at h
  unfold touchable
  cases hp : e.place? (c.meaning pos) with
  | none =>
    rw [hp] at h
    obtain ⟨k, -, h⟩ := bind_eq_ok.mp h
    cases h
    simp
  | some p =>
    rw [hp] at h
    cases h
    rw [ht, flow_read]
    rfl

lemma walkStmts_of_returned (p : Int) (stmts : List Stmt) {s : Session}
    (hs : s.flow.returned = true) : c.walkStmts p stmts s = .ok s := by
  cases stmts with
  | nil => rfl
  | cons stmt rest => rw [walkStmts, if_pos hs]

lemma replayLoop_congr {again : Session → Except Fault Session}
    (again' : Session → Except Fault Session)
    (h : ∀ s, s.flow.returned = false → again s = again' s) (n : Nat) {joined : Flow}
    (hj : joined.returned = false) (s : Session) :
    replayLoop again n joined s = replayLoop again' n joined s := by
  induction n generalizing joined s with
  | zero => rfl
  | succ n ih =>
    rw [replayLoop, replayLoop, h _ hj]
    refine bind_congr fun s' => ih ?_ _
    rw [Flow.returned_merge, hj, Bool.false_and]

mutual

/-- A statement is walked like its skeleton. -/
lemma walkStmt_eq (p : Int) (stmt : Stmt) (s : Session)
    (hs : s.flow.returned = false) : c.walkStmt p stmt s = (stmt.skeleton p).walk c s := by
  match stmt with
  | .block b =>
    rw [walkStmt, Stmt.skeleton, Skeleton.walk, walkBlock_eq .block p b s hs]
  | .declare _ _ _ _ _ | .assign _ _ _ | .ret _ _ | .foreign _ =>
    rw [walkStmt, Stmt.skeleton, Skeleton.walk, Skeleton.walk]
    · rfl
    all_goals simp
  | .evaluate value loc =>
    rw [walkStmt, Stmt.skeleton, Skeleton.walk, Skeleton.walk]
    · simp only [execute, Event.step, executeNode, bind, Except.bind, Functor.map, Except.map]
      cases c.evaluate p loc value (s.begin loc) <;> rfl
    all_goals simp
  | .branch test t e loc =>
    rw [walkStmt, Stmt.skeleton, Skeleton.walk, Skeleton.walk, bind_assoc]
    refine Fault.bind_congr_ok fun m h => ?_
    have hm := returned_execute (e := .step p (.stmt (.branch test t e loc))) rfl h hs
    rw [if_neg (by simp [hm]), Skeleton.walk, walkBlock_eq .branch (p + 1) t m hm, bind_assoc]
    refine bind_congr fun s₁ => ?_
    rw [walkElse_eq (p + 1 + t.width) e (s₁.withFlow m.flow) hm, bind_assoc]
    rfl
  | .loop test body loc =>
    rw [walkStmt, Stmt.skeleton, Skeleton.walk, Skeleton.walk, bind_assoc]
    refine Fault.bind_congr_ok fun m h => ?_
    have hm := returned_execute (e := .test p test body loc) rfl h hs
    rw [walkBlock_eq .loopBody (p + 1) body m hm, bind_assoc]
    refine bind_congr fun s₁ => ?_
    dsimp only
    rw [replayLoop_congr (fun s => c.execute (.test p test body loc) s >>=
      (body.skeleton .loopBody (p + 1)).walk c) _ _ (by rw [Flow.returned_merge, hm]; rfl)]
    intro s' hs'
    refine Fault.bind_congr_ok fun m' h' => walkBlock_eq .loopBody (p + 1) body m' ?_
    exact returned_execute (e := .test p test body loc) rfl h' hs'
  | .select scrutinee arms type loc =>
    rw [walkStmt, Stmt.skeleton, Skeleton.walk, Skeleton.walk, Skeleton.walk, bind_assoc]
    have hexec : c.execute (.step p (.stmt (.select scrutinee arms type loc))) s =
        Prod.snd <$> c.scrutinize p loc scrutinee (s.begin loc) := rfl
    rw [hexec, bind_map_left]
    refine Fault.bind_congr_ok fun k h => ?_
    obtain ⟨place, m⟩ := k
    rw [h] at hexec
    have hm : m.flow.returned = false := returned_execute rfl hexec hs
    rw [if_neg (by simp [hm]),
      ← walkArms_eq ⟨scrutinee, type, p⟩ place (p + 1) arms none m hm (scrutinize_cases h)]

lemma walkBlock_eq (kind : ScopeKind) (p : Int) (b : Block) (s : Session)
    (hs : s.flow.returned = false) : c.walkBlock p b s = (b.skeleton kind p).walk c s := by
  match b with
  | .mk stmts l =>
    rw [walkBlock, Block.skeleton, Skeleton.walk]
    simp only [execute, Event.enter, Event.exit, Node.kindName]
    cases c.tree.scopeOf p (Stmt.block (.mk stmts l)).kindName with
    | error f => rfl
    | ok scope =>
      simp only [bind, Except.bind, Functor.map, Except.map]
      rw [walkStmts_eq (p + 1) stmts (s.push scope) hs]

lemma walkElse_eq (p : Int) (b : Option Block) (s : Session)
    (hs : s.flow.returned = false) : c.walkElse p b s = (Block.skeletonOpt p b).walk c s := by
  match b with
  | none => rfl
  | some b =>
    rw [walkElse, Block.skeletonOpt]
    exact walkBlock_eq .branch p b s hs

lemma walkStmts_eq (p : Int) (stmts : List Stmt) (s : Session) (hs : s.flow.returned = false) :
    c.walkStmts p stmts s = (Stmt.skeletonAll p stmts).walk c s := by
  match stmts with
  | [] => rfl
  | stmt :: rest =>
    rw [walkStmts, Stmt.skeletonAll, Skeleton.walk, if_neg (by simp [hs]), walkStmt_eq p stmt s hs]
    refine bind_congr fun m => ?_
    cases hm : m.flow.returned with
    | true => exact walkStmts_of_returned _ rest hm
    | false => exact walkStmts_eq (p + stmt.width) rest m hm

/-- The arms of a selection are walked like the ways of a fork. -/
lemma walkArms_eq (sel : Selection) (place : Option Place) (p : Int) (arms : List Arm)
    (others : Option Skeleton) (s : Session) (hs : s.flow.returned = false)
    (hplace : ∀ t : Session, t.flow = s.flow → c.touchable sel t = place) :
    (match others with
      | none => c.walkArms sel place s.flow p arms none s
      | some k => k.walk c s >>= fun m => c.walkArms sel place s.flow p arms (some m.flow) m) =
      (Arm.skeletonAll sel p others arms).walk c s := by
  match arms with
  | [] =>
    cases others with
    | none => rfl
    | some k =>
      rw [Arm.skeletonAll, Option.getD_some]
      dsimp only
      cases k.walk c s <;> rfl
  | .mk v (.mk stmts l) binders byRef loc :: rest =>
    -- One arm on its own, from any session with the state before the arms.
    have harm : ∀ t : Session, t.flow = s.flow →
        (Skeleton.scope p (p + 2 + Stmt.widthAll stmts) (.stmt (.block (.mk stmts l))) .arm
          (.seq (.event (.step (p + 1) (.arm (.mk v (.mk stmts l) binders byRef loc) (some sel))))
            (Stmt.skeletonAll (p + 2) stmts))).walk c t =
          c.walkArm sel place s.flow p (.mk v (.mk stmts l) binders byRef loc) t := by
      intro t ht
      have henter : c.execute (.enter p (.stmt (.block (.mk stmts l))) .arm) t =
          t.push <$> c.tree.scopeOf p (Stmt.block (.mk stmts l)).kindName := rfl
      rw [Skeleton.walk, henter, bind_map_left, walkArm, ← ht]
      refine Fault.bind_congr_ok fun scope hscope => ?_
      have hhead :
          c.execute (.step (p + 1) (.arm (.mk v (.mk stmts l) binders byRef loc) (some sel)))
          (t.push scope) = c.bindArm sel place (p + 1) (.mk v (.mk stmts l) binders byRef loc)
            (t.push scope) := by
        rw [← hplace (t.push scope) ht]
        rfl
      rw [Skeleton.walk, Skeleton.walk, bind_assoc, hhead]
      refine Fault.bind_congr_ok fun m hm => ?_
      have hret : m.flow.returned = false := returned_execute rfl (hhead.trans hm) (ht ▸ hs)
      rw [if_neg (by simp [hret]), ← walkStmts_eq (p + 2) stmts m hret]
      refine bind_congr fun m' => ?_
      change (c.tree.scopeOf p (Stmt.block (.mk stmts l)).kindName >>= (c.exitScope · m')) = _
      rw [hscope]
      rfl
    rw [Arm.skeletonAll, ← walkArms_eq sel place (p + 3 + Stmt.widthAll stmts) rest _ s hs hplace]
    cases others with
    | none =>
      simp only [Option.map_none, Option.getD_none]
      rw [harm s rfl, walkArms_cons]
      rfl
    | some k =>
      simp only [Option.map_some, Option.getD_some]
      rw [Skeleton.walk, bind_assoc]
      refine bind_congr fun m => ?_
      rw [harm (m.withFlow s.flow) rfl, walkArms_cons, bind_assoc]
      exact bind_congr fun m' => (walkArms_withFlow ..).symm

end

/-! ### Whole functions -/

/-- The session in which the body of a function begins. -/
def initial (c : Context) : Except Fault Session :=
  c.start <$> c.tree.scopeOf 0 Node.function.kindName

lemma returned_start (root : Scope) : (c.start root).flow.returned = false := by
  unfold start
  rw [foldl_keeps (fun s : Session => s.flow.returned)]
  intro s b
  rfl

/-- A function is walked as its skeleton says, and then its own scope ends. -/
theorem run_eq : c.run = c.initial >>= fun s =>
    c.function.skeleton.walk c s >>= c.execute (.exit 0 c.function.stop .function) := by
  unfold run initial
  cases h : c.tree.scopeOf 0 Node.function.kindName with
  | error f => rfl
  | ok root =>
    simp only [bind, Except.bind, Functor.map, Except.map]
    rw [walkStmts_eq _ _ _ (returned_start root), Function.skeleton]
    cases (Stmt.skeletonAll c.function.bodyStart c.function.body.stmts).walk c (c.start root) with
    | error f => rfl
    | ok m =>
      simp only [execute, Event.exit, h]
      rfl

end Context

end Ownership
