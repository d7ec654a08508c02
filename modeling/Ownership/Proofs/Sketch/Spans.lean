import Ownership.Proofs.Guise.Basic
import Ownership.Proofs.Sketch.Declarations

/-!
# Spans of a sketch

A sketch is taken without a look at its spans: without them, the program is the same but for the
spans in it. Only an error may name another place.
-/

namespace Ownership

def Guise.bare : Guise where
  span _ := .unknown
  type := Equiv.refl TypeId
  span_unknown := rfl
  span_orElse _ _ := rfl

lemma Guise.map_type_bare (id : Option TypeId) : id.map Guise.bare.type = id := by
  cases id <;> rfl

def Program.bare (p : Program) :
    Program := { p with functions := p.functions.map Guise.bare.function }

namespace Sketch

variable {α β γ δ ε : Type}

/-- The second computation succeeds just if the first one does, and then gives its result through
`φ`. -/
def Mirrors (φ : α → β) (x : Except ε α) (y : Except ε β) : Prop := y.toOption = x.toOption.map φ

lemma Mirrors.bind {φ : α → β} {ψ : γ → δ} {x : Except ε α} {y : Except ε β} {f : α → Except ε γ}
    {f' : β → Except ε δ} (h : Mirrors φ x y) (hf : ∀ a, Mirrors ψ (f a) (f' (φ a))) :
    Mirrors ψ (x >>= f) (y >>= f') := by
  cases x with
  | error e =>
    cases y with
    | error e' => rfl
    | ok b => cases h
  | ok a =>
    cases y with
    | error e' => cases h
    | ok b =>
      cases h
      exact hf a

/-- Two steps agree at every table, and leave the same table. -/
def Build.Agrees (φ : α → β) (b : Build α) (b' : Build β) : Prop :=
  ∀ t, Mirrors (Prod.map φ id) (b t) (b' t)

namespace Build.Agrees

variable {φ : α → β} {ψ : γ → δ} {b : Build α} {b' : Build β} {f : α → Build γ} {f' : β → Build δ}

lemma refl (b : Build α) : Agrees id b b := by
  intro t
  unfold Mirrors
  cases (b t).toOption <;> rfl

lemma pure {a : α} {a' : β} (h : a' = φ a) : Agrees φ (pure a) (pure a') := by
  subst h
  exact fun _ => rfl

lemma bind (h : Agrees φ b b') (hf : ∀ a, Agrees ψ (f a) (f' (φ a))) :
    Agrees ψ (b >>= f) (b' >>= f') :=
  fun t => (h t).bind fun r => hf r.1 r.2

lemma map {g : α → γ} {g' : β → δ} (h : Agrees φ b b') (hg : ∀ a, g' (φ a) = ψ (g a)) :
    Agrees ψ (g <$> b) (g' <$> b') := by
  rw [map_eq_pure_bind, map_eq_pure_bind]
  exact h.bind fun a => .pure (hg a)

lemma mapM {χ : α → β} (hf : ∀ x, Agrees ψ (f x) (f' (χ x))) (xs : List α) :
    Agrees (List.map ψ) (xs.mapM f) ((xs.map χ).mapM f') := by
  induction xs with
  | nil => exact .pure rfl
  | cons x xs ih =>
    rw [List.map_cons, List.mapM_cons, List.mapM_cons]
    exact (hf x).bind fun y => ih.bind fun ys => .pure rfl

lemma ask {q : TypeTable → Except Error α} {q' : TypeTable → Except Error β}
    (h : ∀ t, Mirrors φ (q t) (q' t)) : Agrees φ (Build.ask q) (Build.ask q') := by
  intro t
  have hq := h t
  unfold Build.ask
  cases hx : q t <;> cases hy : q' t <;> rw [hx, hy] at hq <;> cases hq <;> rfl

lemma table (loc loc' : Span) (step : TypeTable → Except Fault (α × TypeTable)) :
    Agrees id (Build.table loc step) (Build.table loc' step) := by
  intro t
  unfold Build.table
  cases step t <;> rfl

end Build.Agrees

open Build

/-! ### Types and expressions -/

lemma agrees_typeExpr (e : TypeExpr) : Agrees id e.build e.bare.build := by
  induction e with
  | named name loc =>
    refine .ask fun t => ?_
    cases t.lookup name <;> rfl
  | ref inner mutable ih => exact ih.bind fun id => .refl _
  | box inner ih => exact ih.bind fun id => .refl _

lemma agrees_typeOpt (e : Option TypeExpr) :
    Agrees id (TypeExpr.buildOpt e) (TypeExpr.buildOpt (e.map TypeExpr.bare)) := by
  cases e with
  | none => exact .refl _
  | some e => exact (agrees_typeExpr e).map fun _ => rfl

mutual

lemma mirrors_resolve (t : TypeTable) (e : Expr) :
    Mirrors Guise.bare.expr (resolve t e) (resolve t e.bare) := by
  match e with
  | .numeral digits loc =>
    rw [Expr.bare, resolve, resolve]
    cases Numeral.decimal digits <;> rfl
  | .truth _ _ | .text _ _ | .var _ _ => rfl
  | .field e _ _ | .deref e _ | .borrow e _ _ => exact (mirrors_resolve t e).bind fun r => rfl
  | .call callee args loc =>
    refine (mirrors_resolveAll t args).bind fun rs => ?_
    split <;> rfl
  | .binary op l r loc =>
    exact (mirrors_resolve t l).bind fun x => (mirrors_resolve t r).bind fun y => rfl
  | .variant typeName arm args loc =>
    rw [Expr.bare, resolve, resolve]
    cases t.lookup typeName with
    | none => rfl
    | some id => exact (mirrors_resolveAll t args).bind fun rs => rfl

lemma mirrors_resolveAll (t : TypeTable) (es : List Expr) :
    Mirrors Guise.bare.exprs (resolveAll t es) (resolveAll t (Expr.bareAll es)) := by
  match es with
  | [] => rfl
  | e :: es =>
    exact (mirrors_resolve t e).bind fun r => (mirrors_resolveAll t es).bind fun rs => rfl

end

lemma agrees_expr (e : Expr) : Agrees Guise.bare.expr (buildExpr e) (buildExpr e.bare) :=
  .ask fun t => mirrors_resolve t e

lemma agrees_exprOpt (e : Option Expr) :
    Agrees Guise.bare.expr (buildExprOpt e) (buildExprOpt (e.map Expr.bare)) := by
  cases e with
  | none => exact .pure rfl
  | some e => exact agrees_expr e

/-! ### Statements -/

lemma isTarget_bare (r : Ownership.Expr) : isTarget (Guise.bare.expr r) = isTarget r := by
  cases r <;> rfl

mutual

lemma agrees_stmt (s : Stmt) : Agrees Guise.bare.stmt s.build s.bare.build := by
  match s with
  | .block b => exact (agrees_block b).map fun _ => rfl
  | .declare name mutable type value loc =>
    refine (agrees_typeOpt type).bind fun type' => (agrees_exprOpt value).bind fun r => .pure ?_
    rw [Guise.stmt, Guise.map_type_bare]
    rfl
  | .assign target value loc =>
    refine (agrees_expr target).bind fun r => ?_
    rw [isTarget_bare]
    split
    · exact (agrees_expr value).bind fun r' => .pure rfl
    · exact fun t => rfl
  | .evaluate value loc => exact (agrees_expr value).bind fun r => .pure rfl
  | .ret value loc => exact (agrees_exprOpt value).bind fun r => .pure rfl
  | .branch test t e loc =>
    exact (agrees_blockOpt e).bind fun e' => (agrees_expr test).bind fun r =>
      (agrees_block t).bind fun b => .pure rfl
  | .loop test body loc =>
    exact (agrees_expr test).bind fun r => (agrees_block body).bind fun b => .pure rfl
  | .select e arms loc =>
    exact (agrees_expr e).bind fun r => (agrees_arms arms).bind fun as => .pure rfl

lemma agrees_block (b : Block) : Agrees Guise.bare.block b.build b.bare.build := by
  match b with
  | .mk ss loc => exact (agrees_stmts ss).bind fun rs => .pure rfl

lemma agrees_blockOpt (b : Option Block) :
    Agrees Guise.bare.blockOpt (Block.buildOpt b) (Block.buildOpt (Block.bareOpt b)) := by
  match b with
  | none => exact .pure rfl
  | some b => exact (agrees_block b).map fun _ => rfl

lemma agrees_stmts (ss : List Stmt) :
    Agrees Guise.bare.stmts (Stmt.buildAll ss) (Stmt.buildAll (Stmt.bareAll ss)) := by
  match ss with
  | [] => exact .pure rfl
  | s :: ss => exact (agrees_stmt s).bind fun r => (agrees_stmts ss).bind fun rs => .pure rfl

lemma agrees_arms (as : List Arm) :
    Agrees Guise.bare.arms (Arm.buildAll as) (Arm.buildAll (Arm.bareAll as)) := by
  match as with
  | [] => exact .pure rfl
  | .mk _ _ _ body _ :: as =>
    exact (agrees_block body).bind fun b => (agrees_arms as).bind fun rs => .pure rfl

end

/-! ### Declarations -/

lemma agrees_structField (f : StructField) : Agrees id f.build f.bare.build :=
  (agrees_typeExpr f.type).bind fun _ => .pure rfl

lemma agrees_armFields (fs : List ArmField) (i : Nat) :
    Agrees id (ArmField.buildAll i fs) (ArmField.buildAll i (fs.map ArmField.bare)) := by
  induction fs generalizing i with
  | nil => exact .pure rfl
  | cons f fs ih =>
    exact (agrees_typeExpr f.type).bind fun _ => (ih (i + 1)).bind fun _ => .pure rfl

lemma agrees_armDecl (a : ArmDecl) : Agrees id a.build a.bare.build :=
  (agrees_armFields a.fields 0).bind fun _ => .pure rfl

lemma agrees_param (p : ParamDecl) : Agrees Guise.bare.param p.build p.bare.build :=
  (agrees_typeExpr p.type).bind fun _ => .pure rfl

lemma agrees_function (f : FunctionDecl) : Agrees Guise.bare.function f.build f.bare.build := by
  refine (Agrees.mapM agrees_param f.params).bind fun ps => ?_
  refine (agrees_typeOpt f.returnType).bind fun type => (agrees_block f.body).bind fun b => .pure ?_
  rw [Guise.function, Guise.map_type_bare]
  rfl

lemma agrees_define (name : String) (loc loc' : Span)
    (step : TypeTable → TypeId → Except Fault TypeTable) :
    Agrees id (define name loc step) (define name loc' step) := by
  have hname : Agrees id (TypeExpr.named name loc).build (TypeExpr.named name loc').build := by
    refine .ask fun t => ?_
    cases t.lookup name <;> rfl
  exact hname.bind fun id => .table loc loc' _

def Outline.bare (o : Outline) :
    Outline := { o with functions := o.functions.map Guise.bare.function }

lemma agrees_item (o : Outline) (i : Item) :
    Agrees Outline.bare (i.build o) (i.bare.build o.bare) := by
  cases i with
  | struct name fields loc =>
    refine (Agrees.mapM agrees_structField fields).bind fun fs => ?_
    rw [List.map_id]
    exact (agrees_define name loc .unknown _).bind fun _ => .pure rfl
  | variant name arms loc =>
    refine (Agrees.mapM agrees_armDecl arms).bind fun as => ?_
    rw [List.map_id]
    exact (agrees_define name loc .unknown _).bind fun _ => .pure rfl
  | outside name modes type => exact (agrees_typeOpt type).bind fun _ => .pure rfl
  | function decl => exact (agrees_function decl).bind fun f => .pure (by simp [Outline.bare])

lemma agrees_declare (i : Item) : Agrees id i.declare i.bare.declare := by
  cases i with
  | struct name fields loc | variant name arms loc =>
    exact (Agrees.table loc .unknown _).map fun _ => rfl
  | outside | function => exact .refl _

lemma agrees_buildItems (is : List Item) :
    Agrees Outline.bare (buildItems is) (buildItems (is.map Item.bare)) := by
  have hdeclare : Agrees id (is.forM (·.declare)) ((is.map Item.bare).forM (·.declare)) := by
    induction is with
    | nil => exact .refl _
    | cons i is ih => exact (agrees_declare i).bind fun _ => ih
  have htake : ∀ o : Outline, Agrees Outline.bare (is.foldlM Item.build o)
      ((is.map Item.bare).foldlM Item.build o.bare) := by
    clear hdeclare
    induction is with
    | nil => exact fun o => .pure rfl
    | cons i is ih => exact fun o => (agrees_item o i).bind ih
  exact (Agrees.refl builtins).bind fun _ => hdeclare.bind fun _ => htake {}

lemma build_map_bare (is : List Item) :
    (build (is.map Item.bare)).toOption = (build is).toOption.map Program.bare :=
  (agrees_buildItems is TypeTable.empty).bind fun _ => rfl

lemma build_map_bare_of_ok {is : List Item} {p : Program} (h : build is = .ok p) :
    build (is.map Item.bare) = .ok p.bare := by
  have hbare := build_map_bare is
  rw [h] at hbare
  cases hq : build (is.map Item.bare) with
  | error e => cases hq ▸ hbare
  | ok q =>
    rw [hq] at hbare
    cases hbare
    rfl

lemma exists_build_of_map_bare {is : List Item} {q : Program}
    (h : build (is.map Item.bare) = .ok q) :
    ∃ p, build is = .ok p ∧ p.bare = q := by
  have hbare := build_map_bare is
  rw [h] at hbare
  cases hp : build is with
  | error e => cases hp ▸ hbare
  | ok p =>
    rw [hp] at hbare
    cases hbare
    exact ⟨p, rfl, rfl⟩

end Sketch

end Ownership
