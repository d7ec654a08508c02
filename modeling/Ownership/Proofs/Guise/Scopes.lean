import Ownership.Proofs.Guise.Basic

/-!
# Scope trees in another guise

The scope tree of a function in another guise is the scope tree of the function, in that guise: what
is resolved, declared and counted are names and positions, and a guise keeps both.
-/

namespace Ownership

open List

variable {α β β' : Type} {x : Except Fault α} {k : α → Except Fault β} {G : β → β'}

lemma Fault.bind_map {α' : Type} {F : α → α'} {k' : α' → Except Fault β'}
    (h : ∀ a, k' (F a) = G <$> k a) : (F <$> x) >>= k' = G <$> (x >>= k) := by
  cases x with
  | error fault => rfl
  | ok a => exact h a

lemma Fault.bind_same {k' : α → Except Fault β'} (h : ∀ a, k' a = G <$> k a) :
    x >>= k' = G <$> (x >>= k) := by
  cases x with
  | error fault => rfl
  | ok a => exact h a

namespace Guise

variable {g : Guise}

/-! ### Expressions -/

@[simp] lemma isPresent_expr (e : Expr) : (g.expr e).isPresent = e.isPresent := by
  cases e <;> rfl

@[simp] lemma loc_expr (e : Expr) : (g.expr e).loc = g.span e.loc := by
  cases e <;> first | rfl | exact g.span_unknown.symm

mutual

@[simp] lemma vars_expr (e : Expr) : (g.expr e).vars = e.vars := by
  match e with
  | .absent | .literal _ _ | .var _ _ | .foreign _ => rfl
  | .field e _ _ | .deref e _ | .borrow e _ _ =>
    rw [expr, Expr.vars, Expr.vars, vars_expr e]
  | .call _ args _ | .construct _ _ args _ =>
    rw [expr, Expr.vars, Expr.vars, varsAll_exprs args]
  | .binary _ l r _ => rw [expr, Expr.vars, Expr.vars, vars_expr l, vars_expr r]

lemma varsAll_exprs (es : List Expr) : Expr.varsAll (g.exprs es) = Expr.varsAll es := by
  match es with
  | [] => rfl
  | e :: rest => rw [exprs, Expr.varsAll, Expr.varsAll, vars_expr e, varsAll_exprs rest]

end

mutual

@[simp] lemma firstForeign?_expr (e : Expr) : (g.expr e).firstForeign? = e.firstForeign? := by
  match e with
  | .absent | .literal _ _ | .var _ _ | .foreign _ => rfl
  | .field e _ _ | .deref e _ | .borrow e _ _ =>
    rw [expr, Expr.firstForeign?, Expr.firstForeign?, firstForeign?_expr e]
  | .call _ args _ | .construct _ _ args _ =>
    rw [expr, Expr.firstForeign?, Expr.firstForeign?, firstForeignOf?_exprs args]
  | .binary _ l r _ =>
    rw [expr, Expr.firstForeign?, Expr.firstForeign?, firstForeign?_expr l, firstForeign?_expr r]

lemma firstForeignOf?_exprs (es : List Expr) :
    Expr.firstForeignOf? (g.exprs es) = Expr.firstForeignOf? es := by
  match es with
  | [] => rfl
  | e :: rest =>
    rw [exprs, Expr.firstForeignOf?, Expr.firstForeignOf?, firstForeign?_expr e,
      firstForeignOf?_exprs rest]

end

@[simp] lemma place?_expr {meaning meaning' : String → Option Binding}
    (h : ∀ name, meaning' name = (meaning name).map g.binding) (e : Expr) :
    (g.expr e).place? meaning' = (e.place? meaning).map g.place := by
  induction e using Expr.place?.induct with
  | case1 name loc =>
    simp only [expr, Expr.place?, h, Option.map_map]
    rfl
  | case2 e name loc ih | case3 e loc ih =>
    simp only [expr, Expr.place?, ih, Option.map_map]
    rfl
  | case4 e hvar hfield hderef => cases e <;> simp_all [expr, Expr.place?]

/-! ### Statements -/

lemma arms_eq_map (as : List Arm) : g.arms as = as.map g.arm := by
  induction as with
  | nil => rfl
  | cons a as ih =>
    obtain ⟨variant, b, binders, byRef, loc⟩ := a
    rw [arms, ih, map_cons]
    rfl

@[simp] lemma kindName_stmt (s : Stmt) : (g.stmt s).kindName = s.kindName := by
  cases s <;> rfl

@[simp] lemma kindName_node (n : Node) : (g.node n).kindName = n.kindName := by
  cases n with
  | stmt s => exact kindName_stmt s
  | _ => rfl

section Arms

variable (a : Arm)

@[simp] lemma variant_arm : (g.arm a).variant = a.variant := by
  cases a
  rfl

@[simp] lemma binders_arm : (g.arm a).binders = a.binders := by
  cases a
  rfl

@[simp] lemma byRef_arm : (g.arm a).byRef = a.byRef := by
  cases a
  rfl

@[simp] lemma loc_arm : (g.arm a).loc = g.span a.loc := by
  cases a
  rfl

@[simp] lemma named_arm : (g.arm a).named = a.named := by
  rw [Arm.named, Arm.named, binders_arm]

end Arms

mutual

@[simp] lemma width_stmt (s : Stmt) : (g.stmt s).width = s.width := by
  match s with
  | .block b => exact width_block b
  | .declare _ _ _ _ _ | .assign _ _ _ | .evaluate _ _ | .ret _ _ | .foreign _ => rfl
  | .branch _ t e _ => rw [stmt, Stmt.width, Stmt.width, width_block t, widthOpt_block e]
  | .loop _ b _ => rw [stmt, Stmt.width, Stmt.width, width_block b]
  | .select _ as _ _ => rw [stmt, Stmt.width, Stmt.width, widthAll_arms as]

@[simp] lemma width_block (b : Block) : (g.block b).width = b.width := by
  match b with
  | .mk ss _ => rw [block, Block.width, Block.width, widthAll_stmts ss]

lemma widthOpt_block (b : Option Block) : Block.widthOpt (g.blockOpt b) = Block.widthOpt b := by
  match b with
  | none => rfl
  | some b => exact width_block b

@[simp] lemma widthAll_stmts (ss : List Stmt) : Stmt.widthAll (g.stmts ss) = Stmt.widthAll ss := by
  match ss with
  | [] => rfl
  | s :: rest => rw [stmts, Stmt.widthAll, Stmt.widthAll, width_stmt s, widthAll_stmts rest]

lemma widthAll_arms (as : List Arm) : Arm.widthAll (g.arms as) = Arm.widthAll as := by
  match as with
  | [] => rfl
  | .mk _ b _ _ _ :: rest =>
    rw [arms, Arm.widthAll, Arm.widthAll, Arm.width, Arm.width, width_block b, widthAll_arms rest]

end

mutual

lemma firstForeign?_stmt (s : Stmt) : (g.stmt s).firstForeign? = s.firstForeign? := by
  match s with
  | .block b => exact firstForeign?_block b
  | .declare _ _ _ _ _ | .assign _ _ _ | .evaluate _ _ | .ret _ _ | .foreign _ => rfl
  | .branch _ t e _ =>
    rw [stmt, Stmt.firstForeign?, Stmt.firstForeign?, firstForeign?_block t,
      firstForeignOpt?_block e]
  | .loop _ b _ => rw [stmt, Stmt.firstForeign?, Stmt.firstForeign?, firstForeign?_block b]
  | .select _ as _ _ => rw [stmt, Stmt.firstForeign?, Stmt.firstForeign?, firstForeignOf?_arms as]

lemma firstForeign?_block (b : Block) : (g.block b).firstForeign? = b.firstForeign? := by
  match b with
  | .mk ss _ => rw [block, Block.firstForeign?, Block.firstForeign?, firstForeignOf?_stmts ss]

lemma firstForeignOpt?_block (b : Option Block) :
    Block.firstForeignOpt? (g.blockOpt b) = Block.firstForeignOpt? b := by
  match b with
  | none => rfl
  | some b => exact firstForeign?_block b

lemma firstForeignOf?_stmts (ss : List Stmt) :
    Stmt.firstForeignOf? (g.stmts ss) = Stmt.firstForeignOf? ss := by
  match ss with
  | [] => rfl
  | s :: rest =>
    rw [stmts, Stmt.firstForeignOf?, Stmt.firstForeignOf?, firstForeign?_stmt s,
      firstForeignOf?_stmts rest]

lemma firstForeignOf?_arms (as : List Arm) :
    Arm.firstForeignOf? (g.arms as) = Arm.firstForeignOf? as := by
  match as with
  | [] => rfl
  | .mk _ b _ _ _ :: rest =>
    rw [arms, Arm.firstForeignOf?, Arm.firstForeignOf?, firstForeign?_block b,
      firstForeignOf?_arms rest]

end

/-! ### Streams -/

mutual

lemma events_stmt (p : Int) (s : Stmt) : (g.stmt s).events p = (s.events p).map g.event := by
  match s with
  | .block b => exact events_block .block p b
  | .declare _ _ _ _ _ | .assign _ _ _ | .evaluate _ _ | .ret _ _ | .foreign _ => rfl
  | .branch _ t e _ =>
    rw [stmt, Stmt.events, Stmt.events, events_block .branch _ t, width_block, eventsOpt_block _ e,
      map_cons, map_append]
    rfl
  | .loop _ b _ =>
    rw [stmt, Stmt.events, Stmt.events, events_block .loopBody _ b, map_cons]
    rfl
  | .select e as type _ =>
    rw [stmt, Stmt.events, Stmt.events, map_cons, ← eventsAll_arms ⟨e, type, p⟩ _ as]
    rfl

lemma events_block (kind : ScopeKind) (p : Int) (b : Block) :
    (g.block b).events kind p = (b.events kind p).map g.event := by
  match b with
  | .mk ss _ =>
    rw [block, Block.events, Block.events, eventsAll_stmts _ ss, widthAll_stmts, map_cons,
      map_append]
    rfl

lemma eventsOpt_block (p : Int) (b : Option Block) :
    Block.eventsOpt p (g.blockOpt b) = (Block.eventsOpt p b).map g.event := by
  match b with
  | none => rfl
  | some b => exact events_block .branch p b

lemma eventsAll_stmts (p : Int) (ss : List Stmt) :
    Stmt.eventsAll p (g.stmts ss) = (Stmt.eventsAll p ss).map g.event := by
  match ss with
  | [] => rfl
  | s :: rest =>
    rw [stmts, Stmt.eventsAll, Stmt.eventsAll, events_stmt _ s, width_stmt, eventsAll_stmts _ rest,
      map_append]

lemma eventsAll_arms (sel : Selection) (p : Int) (as : List Arm) :
    Arm.eventsAll (g.selection sel) p (g.arms as) = (Arm.eventsAll sel p as).map g.event := by
  match as with
  | [] => rfl
  | .mk v (.mk ss l) binders byRef loc :: rest =>
    rw [arms, block, Arm.eventsAll, Arm.eventsAll, eventsAll_stmts _ ss, widthAll_stmts,
      eventsAll_arms sel _ rest]
    simp only [map_cons, map_append]
    rfl

end

lemma eventsAll_params (p : Int) (ps : List Param) :
    Param.eventsAll p (ps.map g.param) = (Param.eventsAll p ps).map g.event := by
  induction ps generalizing p with
  | nil => rfl
  | cons param ps ih =>
    rw [map_cons, Param.eventsAll, Param.eventsAll, ih, map_cons]
    rfl

@[simp] lemma stmts_block (b : Block) : (g.block b).stmts = g.stmts b.stmts := by
  cases b
  rfl

@[simp] lemma bodyStart_function (f : Function) : (g.function f).bodyStart = f.bodyStart := by
  simp [Function.bodyStart, function]

@[simp] lemma stop_function (f : Function) : (g.function f).stop = f.stop := by
  rw [Function.stop, Function.stop, bodyStart_function, function, stmts_block, widthAll_stmts]

lemma events_function (f : Function) : (g.function f).events = f.events.map g.event := by
  rw [Function.events, Function.events, bodyStart_function, stop_function, function, stmts_block,
    eventsAll_params, eventsAll_stmts]
  simp only [map_cons, map_append]
  rfl

lemma linearize_function (f : Function) :
    (g.function f).linearize = map g.event <$> f.linearize := by
  unfold Function.linearize
  rw [events_function, function, firstForeign?_block]
  cases f.body.firstForeign? <;> rfl

/-! ### Builders -/

variable (g) in
def openScope (o : OpenScope) : OpenScope := { o with names := o.names.map g.binding }

variable (g) in
/-- A scope tree in the making, in the guise. -/
def builder (b : ScopeBuilder) : ScopeBuilder where
  tree := g.tree b.tree
  stack := b.stack.map g.openScope
  pending := b.pending
  closed := b.closed

variable {b : ScopeBuilder} {label pos : Int}

lemma isEmpty_stack_builder : (g.builder b).stack.isEmpty = b.stack.isEmpty := by
  simp [builder]

lemma lookup_builder (name : String) :
    (g.builder b).lookup name = (b.lookup name).map g.binding := by
  have hvisible : (g.builder b).visible = b.visible.map g.binding := by
    simp only [ScopeBuilder.visible, builder, flatMap_map, map_flatMap]
    rfl
  rw [ScopeBuilder.lookup, ScopeBuilder.lookup, hvisible, find?_map]
  rfl

lemma recordMeaning_builder (name : String) (target : Binding) :
    (g.builder b).recordMeaning label name (g.binding target) =
      g.builder (b.recordMeaning label name target) := by
  have hinsert :=
    Registry.insert_relabel Function.injective_id g.binding b.tree.resolved (label, name)
    target
  simp only [ScopeBuilder.recordMeaning, builder, tree, id_eq] at hinsert ⊢
  rw [hinsert]

lemma useName_builder (name : String) :
    ScopeBuilder.useName label pos (g.builder b) name =
      g.builder (ScopeBuilder.useName label pos b name) := by
  unfold ScopeBuilder.useName
  rw [lookup_builder]
  cases b.lookup name with
  | none => rfl
  | some target =>
    simp only [Option.map_some]
    rw [recordMeaning_builder]
    rfl

lemma useExpr_builder (e : Expr) :
    (g.builder b).useExpr label pos (g.expr e) = g.builder <$> b.useExpr label pos e := by
  have hnames : ∀ (names : List String) (b : ScopeBuilder),
      names.foldl (ScopeBuilder.useName label pos) (g.builder b) =
        g.builder (names.foldl (ScopeBuilder.useName label pos) b) := by
    intro names
    induction names with
    | nil => exact fun _ => rfl
    | cons name names ih =>
      intro b
      rw [foldl_cons, foldl_cons, useName_builder, ih]
  unfold ScopeBuilder.useExpr
  rw [firstForeign?_expr, vars_expr, hnames]
  cases e.firstForeign? <;> rfl

lemma useTarget_builder (e : Expr) :
    (g.builder b).useTarget label pos (g.expr e) = g.builder <$> b.useTarget label pos e := by
  have hexpr : (g.builder b).useExpr label pos (g.expr e) = g.builder <$> b.useExpr label pos e :=
    useExpr_builder e
  cases e with
  | var name loc =>
    simp only [expr, ScopeBuilder.useTarget, lookup_builder]
    cases b.lookup name with
    | none => rfl
    | some target =>
      simp only [Option.map_some]
      rw [recordMeaning_builder]
      rfl
  | _ => exact hexpr

variable (g) in
def declaration (d : ScopeBuilder.Declaration) : ScopeBuilder.Declaration :=
  { d with type := d.type.map g.type }

lemma declare_builder (d : ScopeBuilder.Declaration) :
    (g.builder b).declare label pos (g.declaration d) = g.builder (b.declare label pos d) := by
  unfold ScopeBuilder.declare
  cases hstack : b.stack with
  | nil => simp [builder, hstack]
  | cons top rest =>
    simp only [builder, hstack, map_cons, tree, map_append, length_map]
    rfl

/-- The guise can be put on before a step or after it. -/
lemma execute_builder (n : Node) :
    (g.builder b).execute label pos (g.node n) = g.builder <$> b.execute label pos n := by
  cases n with
  | function => rfl
  | param p =>
    have hone : ∀ d, (g.builder b).declare label pos (g.declaration d) =
        g.builder (b.declare label pos d) := declare_builder
    exact congrArg Except.ok
      (hone { name := p.name, type := p.type, mutable := p.mutable, isParam := true })
  | arm a sel =>
    simp only [node, ScopeBuilder.execute, named_arm, Functor.map, Except.map, Except.ok.injEq]
    generalize a.named = names
    induction names generalizing b with
    | nil => rfl
    | cons name names ih =>
      have hone : (g.builder b).declare label pos (g.declaration { name }) =
          g.builder (b.declare label pos { name }) := declare_builder { name }
      rw [foldl_cons, foldl_cons, ← ih, ← hone]
      rfl
  | stmt s =>
    cases s with
    | block body => rfl
    | declare name type value mutable loc =>
      simp only [node, stmt, ScopeBuilder.execute, useExpr_builder, isPresent_expr]
      refine Fault.bind_map fun b => congrArg Except.ok ?_
      exact declare_builder { name, type, mutable, initialized := value.isPresent }
    | assign target value loc =>
      simp only [node, stmt, ScopeBuilder.execute, useExpr_builder]
      exact Fault.bind_map fun b => useTarget_builder target
    | evaluate value loc => exact useExpr_builder value
    | ret value loc => exact useExpr_builder value
    | branch test t e loc => exact useExpr_builder test
    | loop test body loc =>
      simp only [node, stmt, ScopeBuilder.execute, useExpr_builder]
      exact Fault.bind_map fun b => rfl
    | select scrutinee arms type loc => exact useExpr_builder scrutinee
    | foreign kind => rfl

lemma enter_builder (e : Event) : (g.builder b).enter (g.event e) = g.builder (b.enter e) := by
  unfold ScopeBuilder.enter
  cases hstack : b.stack with
  | nil | cons top rest => simp [builder, hstack, event, tree, openScope]

lemma leave_builder (e : Event) : (g.builder b).leave (g.event e) = g.builder <$> b.leave e := by
  unfold ScopeBuilder.leave
  cases hstack : b.stack with
  | nil => simp [builder, hstack, event, Functor.map, Except.map]
  | cons top rest =>
    simp only [builder, hstack, event, map_cons, kindName_node, openScope, isEmpty_map]
    split <;> rfl

lemma run_builder (e : Event) : (g.builder b).run (g.event e) = g.builder <$> b.run e := by
  unfold ScopeBuilder.run
  rw [isEmpty_stack_builder]
  split
  · rfl
  · exact execute_builder (b := { b with
      tree := { b.tree with positions := b.tree.positions.insert e.label e.pos }, pending :=
        none }) e.node

lemma step_builder (e : Event) : (g.builder b).step (g.event e) = g.builder <$> b.step e := by
  have hclosed : (g.builder b).closed = b.closed := rfl
  have hkind : (g.event e).kind = e.kind := rfl
  unfold ScopeBuilder.step
  rw [hclosed, hkind]
  split
  · rfl
  · cases e.kind with
    | enter => exact congrArg Except.ok (enter_builder e)
    | exit => exact leave_builder e
    | step => exact run_builder e

lemma read_builder (es : List Event) :
    (g.builder b).read (es.map g.event) = g.builder <$> b.read es := by
  induction es generalizing b with
  | nil => rfl
  | cons e es ih =>
    rw [map_cons, ScopeBuilder.read, ScopeBuilder.read, step_builder]
    exact Fault.bind_map fun b => ih

/-- The scope tree of a function in the guise. -/
theorem ofFunction_function (f : Function) :
    ScopeTree.ofFunction (g.function f) = g.tree <$> ScopeTree.ofFunction f := by
  unfold ScopeTree.ofFunction
  rw [linearize_function]
  refine Fault.bind_map fun es => ?_
  unfold ScopeTree.ofEvents
  cases es with
  | nil => rfl
  | cons first rest =>
    have hstart : g.builder { tree := { events := first :: rest } } =
        { tree := { events := (first :: rest).map g.event } } := rfl
    have hlast : (((first :: rest).map g.event).getLast?.map (·.pos)) =
        (first :: rest).getLast?.map (·.pos) := by
      rw [getLast?_map, Option.map_map]
      rfl
    rw [hlast]
    simp only [map_cons]
    by_cases hkind : first.kind ≠ .enter
    · rw [if_pos hkind, if_pos (show (g.event first).kind ≠ .enter from hkind)]
      rfl
    · rw [if_neg hkind, if_neg (show ¬(g.event first).kind ≠ .enter from hkind)]
      have hread :=
        read_builder (g := g) (b := { tree := { events := first :: rest } }) (first :: rest)
      rw [hstart] at hread
      simp only [map_cons] at hread
      rw [hread]
      refine Fault.bind_map fun b => ?_
      rw [isEmpty_stack_builder]
      simp only [builder, length_map]
      split <;> rfl

end Guise

end Ownership
