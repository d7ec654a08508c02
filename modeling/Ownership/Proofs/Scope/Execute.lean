import Ownership.Proofs.Checker.Session
import Ownership.Scope.Builder

/-!
# What reading an event does

Executing a node resolves the names that it uses, then the variable that it assigns, and then
declares its bindings. All names of a node are looked up in the same open scopes, so its effect on a
scope tree in the making can be written down at once.
-/

namespace Ownership

open List

/-! ### Nodes -/

/-- Whether a statement is of a known kind and its own expressions are, with all their parts. -/
def Stmt.isKnown : Stmt → Bool
  | .foreign _ => false
  | s => s.expressions.all (·.firstForeign?.isNone)

namespace Node

/-- Whether a node is a parameter, the header of an arm or a statement, and of a known kind with all
its expressions. -/
def isKnown : Node → Bool
  | function => false
  | param _ | arm .. => true
  | stmt s => s.isKnown

def isBlock : Node → Bool
  | stmt (.block _) => true
  | _ => false

/-- The variable that a node assigns as a whole. -/
def assigned? : Node → Option String
  | stmt (.assign (.var name _) _ _) => some name
  | _ => none

/-- The names of the variables of a node, except for the one it assigns as a whole. -/
def usedNames : Node → List String
  | stmt (.assign (.var _ _) value _) => value.vars
  | stmt (.assign target value _) => value.vars ++ target.vars
  | n => n.expressions.flatMap Expr.vars

def declarations : Node → List ScopeBuilder.Declaration
  | param p => [{ name := p.name, type := p.type, mutable := p.mutable, isParam := true }]
  | arm a _ => a.named.map fun name => { name }
  | stmt (.declare name type value mutable _) =>
    [{ name, type, mutable, initialized := value.isPresent }]
  | _ => []

/-- The loop that a node heads at a position. -/
def loopHead? (pos : Int) : Node → Option LoopHead
  | stmt (.loop test body loc) => some ⟨pos, (Stmt.loop test body loc).kindName⟩
  | _ => none

/-- The names that are looked up are the variables of the node's expressions. -/
lemma mem_names_iff (node : Node) (name : String) :
    name ∈ node.usedNames ++ node.assigned?.toList ↔ name ∈ node.expressions.flatMap Expr.vars := by
  cases node with
  | stmt s =>
    cases s with
    | assign target value loc =>
      cases target <;>
        simp [usedNames, assigned?, expressions, Stmt.expressions, Expr.vars, or_comm, or_left_comm]
    | _ => simp [usedNames, assigned?]
  | _ => simp [usedNames, assigned?]

end Node

def OpenScope.add (o : OpenScope) (new : List Binding) : OpenScope :=
  { o with names := new.reverse ++ o.names }

namespace ScopeBuilder

variable {b b' : ScopeBuilder} {label pos : Int} {top : OpenScope} {rest : List OpenScope}
  {node : Node} {e : Event}

/-! ### Names -/

/-- Resolves the variable that a statement assigns. -/
def defineName (label pos : Int) (b : ScopeBuilder) (name : String) : ScopeBuilder :=
  match b.lookup name with
  | none => b
  | some target => (b.recordMeaning label name target).recordDef target pos

/-- The records of names that have a meaning. -/
def found (b : ScopeBuilder) (pos : Int) (names : List String) : List (Nat × Int) :=
  names.filterMap fun name => (b.lookup name).map fun x => (x.index, pos)

/-- The meanings that are known once names have been looked up for a node. -/
def meanings (b : ScopeBuilder) (label : Int) (names : List String) :
    Registry (Int × String) Binding :=
  names.foldl (fun r name => match b.lookup name with
    | none => r
    | some x => r.insert (label, name) x) b.tree.resolved

/-- A name means what it meant, unless it is looked up just now. -/
lemma get?_meanings (b : ScopeBuilder) (label label' : Int) (names : List String) (name : String) :
    (b.meanings label names).get? (label', name) =
      if label' = label ∧ name ∈ names then (b.lookup name).or (b.tree.resolve label' name)
      else b.tree.resolve label' name := by
  unfold meanings ScopeTree.resolve
  generalize b.tree.resolved = r
  induction names generalizing r with
  | nil => simp
  | cons n names ih =>
    rw [foldl_cons, ih]
    cases hn : b.lookup n with
    | none => by_cases hname : name = n <;> by_cases hl : label' = label <;> simp_all
    | some x =>
      dsimp only
      rw [Registry.get?_insert]
      by_cases hname : name = n
      · subst hname
        by_cases hl : label' = label <;> simp_all
      · simp [hname]

lemma foldl_useName (names : List String) (b : ScopeBuilder) :
    names.foldl (useName label pos) b = { b with tree := { b.tree with
      resolved := b.meanings label names
      uses := b.tree.uses ++ b.found pos names } } := by
  induction names generalizing b with
  | nil => simp [meanings, found]
  | cons n names ih =>
    rw [foldl_cons, ih]
    cases hn : b.lookup n with
    | none => simp [useName, hn, meanings, found]
    | some x =>
      have hmeanings : b.meanings label (n :: names) =
          ((b.recordMeaning label n x).recordUse x pos).meanings label names := by
        simp only [meanings, foldl_cons, hn]
        rfl
      have hfound : b.found pos (n :: names) = (x.index, pos) :: b.found pos names := by
        simp [found, hn]
      simp only [useName, hn, hmeanings, hfound]
      rw [append_cons]
      rfl

/-! ### Declarations -/

/-- The binding that a declaration introduces. -/
def bindingOf (scope : Nat) (label pos : Int) (index : Nat) (d : Declaration) : Binding :=
  { name := d.name, index, declaredType := d.type, mutable := d.mutable, scope, declaredAt := pos
    label, isParam := d.isParam, initialized := d.initialized }

/-- The bindings that declarations introduce, numbered from an index on. -/
def numbered (scope : Nat) (label pos : Int) (index : Nat) : List Declaration → List Binding
  | [] => []
  | d :: ds => bindingOf scope label pos index d :: numbered scope label pos (index + 1) ds

lemma declare_eq (hb : b.stack = top :: rest) (d : Declaration) : b.declare label pos d =
      { b with
        tree := { b.tree with
          bindings := b.tree.bindings ++ [bindingOf top.scope.id label pos b.tree.bindings.length d]
          defs := b.tree.defs ++ [(b.tree.bindings.length, pos)] }
        stack := top.add [bindingOf top.scope.id label pos b.tree.bindings.length d] :: rest } := by
  simp only [declare, hb]
  rfl

lemma foldl_declare (ds : List Declaration) (b : ScopeBuilder) (hb : b.stack = top :: rest) :
    ds.foldl (fun b d => b.declare label pos d) b =
      { b with
        tree := { b.tree with
          bindings := b.tree.bindings ++ numbered top.scope.id label pos b.tree.bindings.length ds
          defs := b.tree.defs ++
            (numbered top.scope.id label pos b.tree.bindings.length ds).map fun x =>
              (x.index, pos) }
        stack := top.add (numbered top.scope.id label pos b.tree.bindings.length ds) :: rest } := by
  induction ds generalizing b top with
  | nil => simp [numbered, OpenScope.add, ← hb]
  | cons d ds ih =>
    rw [foldl_cons, declare_eq hb, ih _ rfl]
    simp [numbered, bindingOf, OpenScope.add]

/-! ### Nodes as a whole -/

/-- A scope tree in the making after a node has been executed. -/
def perform (b : ScopeBuilder) (label pos : Int) (node : Node) : ScopeBuilder :=
  let b := node.usedNames.foldl (useName label pos) b
  let b := node.assigned?.toList.foldl (defineName label pos) b
  let b := node.declarations.foldl (fun b d => b.declare label pos d) b
  { b with pending := (node.loopHead? pos).or b.pending }

lemma useExpr_of_known {e : Expr} (h : e.firstForeign?.isNone = true) :
    b.useExpr label pos e = .ok (e.vars.foldl (useName label pos) b) := by
  unfold useExpr
  rw [Option.isNone_iff_eq_none.mp h]

/-- Nodes of known kinds are executed, unless they are blocks. -/
theorem execute_of_known (h : node.isKnown = true) (hb : node.isBlock = false) :
    b.execute label pos node = .ok (b.perform label pos node) := by
  cases node with
  | function => cases h
  | param p => rfl
  | arm a sel =>
    simp only [execute, perform, Node.usedNames, Node.expressions, flatMap_nil, foldl_nil,
      Node.assigned?, Option.toList_none, Node.declarations, foldl_map, Node.loopHead?,
      Option.none_or]
  | stmt s =>
    cases s with
    | block body => cases hb
    | foreign kind => cases h
    | assign target value loc =>
      simp only [Node.isKnown, Stmt.isKnown, Stmt.expressions, all_cons, all_nil,
        Bool.and_true, Bool.and_eq_true] at h
      rw [execute, useExpr_of_known h.2]
      cases target with
      | var name at' =>
        simp only [perform, Node.usedNames, Node.assigned?, Option.toList_some, foldl_cons,
          foldl_nil, Node.declarations, Node.loopHead?, Option.none_or, bind, Except.bind,
          useTarget, defineName]
        cases (value.vars.foldl (useName label pos) b).lookup name <;> rfl
      | _ =>
        simp only [bind, Except.bind, useTarget, useExpr_of_known h.1, perform, Node.usedNames,
          Node.assigned?, Option.toList_none, foldl_nil, Node.declarations, Node.loopHead?,
          Option.none_or, foldl_append]
    | declare name type value mutable loc | loop value body loc =>
      simp only [Node.isKnown, Stmt.isKnown, Stmt.expressions, all_cons, all_nil,
        Bool.and_true] at h
      rw [execute, useExpr_of_known h]
      simp only [perform, Node.usedNames, Node.assigned?, Option.toList_none, foldl_nil,
        Node.expressions, Stmt.expressions, flatMap_cons, flatMap_nil, append_nil]
      rfl
    | evaluate value loc | ret value loc | branch value _ _ loc | select value _ _ loc =>
      simp only [Node.isKnown, Stmt.isKnown, Stmt.expressions, all_cons, all_nil,
        Bool.and_true] at h
      simp only [execute, useExpr_of_known h, perform, Node.usedNames, Node.assigned?,
        Option.toList_none, foldl_nil, Node.expressions, Stmt.expressions, flatMap_cons,
        flatMap_nil, append_nil, Node.declarations, Node.loopHead?, Option.none_or]

/-- A statement with an unknown expression is refused. -/
lemma execute_of_foreign {s : Stmt} (hs : ∀ kind, s ≠ .foreign kind) (h : s.isKnown = false) :
    ∃ kind, b.execute label pos (.stmt s) = .error (.unknownExpression kind) := by
  have hforeign : ∀ {b : ScopeBuilder} {e : Expr}, e.firstForeign?.isNone = false →
      ∃ kind, b.useExpr label pos e = .error (.unknownExpression kind) := by
    intro b e he
    obtain ⟨kind, hk⟩ := Option.isSome_iff_exists.mp (by simpa using he)
    exact ⟨kind, by simp only [useExpr, hk]⟩
  cases s with
  | block body => cases h
  | foreign kind => exact absurd rfl (hs kind)
  | assign target value loc =>
    simp only [Stmt.isKnown, Stmt.expressions, all_cons, all_nil, Bool.and_true,
      Bool.and_eq_false_iff] at h
    by_cases hv : value.firstForeign?.isNone = true
    · have ht : target.firstForeign?.isNone = false := h.resolve_right (by simp [hv])
      obtain ⟨kind, hk⟩ := hforeign (b := value.vars.foldl (useName label pos) b) ht
      refine ⟨kind, ?_⟩
      rw [execute, useExpr_of_known hv]
      cases target with
      | var name at' => cases ht
      | _ => exact hk
    · obtain ⟨kind, hk⟩ := hforeign (b := b) (Bool.eq_false_iff.mpr hv)
      exact ⟨kind, by rw [execute, hk]; rfl⟩
  | declare name type value mutable loc | loop value body loc =>
    obtain ⟨kind, hk⟩ :=
      hforeign (b := b) (e := value) (by simpa [Stmt.isKnown, Stmt.expressions] using h)
    exact ⟨kind, by rw [execute, hk]; rfl⟩
  | evaluate value loc | ret value loc | branch value _ _ loc | select value _ _ loc =>
    obtain ⟨kind, hk⟩ :=
      hforeign (b := b) (e := value) (by simpa [Stmt.isKnown, Stmt.expressions] using h)
    exact ⟨kind, by rw [execute, hk]⟩

/-- Only nodes that are known are executed. -/
lemma known_of_execute (h : b.execute label pos node = .ok b') :
    node.isKnown = true ∧ node.isBlock = false := by
  cases node with
  | function => cases h
  | param p => exact ⟨rfl, rfl⟩
  | arm a sel => exact ⟨rfl, rfl⟩
  | stmt s =>
    constructor
    · by_contra hk
      have hs : ∀ kind, s ≠ .foreign kind := by
        rintro kind rfl
        cases h
      obtain ⟨kind, he⟩ :
          ∃ kind, b.execute label pos (.stmt s) = .error (.unknownExpression kind) :=
        execute_of_foreign hs (Bool.eq_false_iff.mpr hk)
      rw [he] at h
      cases h
    · cases s with
      | block body => cases h
      | _ => rfl

lemma defineName_eq (b : ScopeBuilder) (name : String) : defineName label pos b name =
    { b with tree := { b.tree with
      resolved := b.meanings label [name]
      defs := b.tree.defs ++ b.found pos [name] } } := by
  cases hn : b.lookup name with
  | none => simp [defineName, hn, meanings, found]
  | some x => simp [defineName, hn, meanings, found, recordMeaning, recordDef]

variable (hb : b.stack = top :: rest)

include hb

/-- All that the execution of a node changes. -/
theorem perform_eq (node : Node) : b.perform label pos node =
      { b with
        tree := { b.tree with
          bindings := b.tree.bindings ++
            numbered top.scope.id label pos b.tree.bindings.length node.declarations
          resolved := b.meanings label (node.usedNames ++ node.assigned?.toList)
          uses := b.tree.uses ++ b.found pos node.usedNames
          defs := b.tree.defs ++ b.found pos node.assigned?.toList ++
            (numbered top.scope.id label pos b.tree.bindings.length node.declarations).map
              fun x => (x.index, pos) }
        stack := top.add
          (numbered top.scope.id label pos b.tree.bindings.length node.declarations) :: rest
        pending := (node.loopHead? pos).or b.pending } := by
  unfold perform
  cases node.assigned? with
  | none =>
    dsimp only [Option.toList_none, foldl_nil]
    rw [foldl_useName, foldl_declare node.declarations _ (by exact hb)]
    simp [found]
  | some name =>
    dsimp only [Option.toList_some, foldl_cons, foldl_nil]
    rw [foldl_useName, defineName_eq, foldl_declare node.declarations _ (by exact hb)]
    simp only [meanings, foldl_append]
    rfl

/-! ### Events -/

/-- The bindings that an event introduces in an open scope. -/
def introduced (b : ScopeBuilder) (e : Event) (top : OpenScope) : List Binding :=
  numbered top.scope.id e.label e.pos b.tree.bindings.length e.node.declarations

/-- A scope tree in the making after an event has been executed in an open scope. -/
def executed (b : ScopeBuilder) (e : Event) (top : OpenScope) (rest : List OpenScope) :
    ScopeBuilder :=
  { b with
    tree := { b.tree with
      positions := b.tree.positions.insert e.label e.pos
      bindings := b.tree.bindings ++ b.introduced e top
      resolved := b.meanings e.label (e.node.usedNames ++ e.node.assigned?.toList)
      uses := b.tree.uses ++ b.found e.pos e.node.usedNames
      defs := b.tree.defs ++ b.found e.pos e.node.assigned?.toList ++
        (b.introduced e top).map fun x => (x.index, e.pos) }
    stack := top.add (b.introduced e top) :: rest
    pending := e.node.loopHead? e.pos }

/-- A scope tree in the making after the innermost open scope has been left. -/
def exited (b : ScopeBuilder) (e : Event) (top : OpenScope) (rest : List OpenScope) :
    ScopeBuilder :=
  { b with
    tree := { b.tree with
      scopes := b.tree.scopes.modify top.scope.id fun s => { s with stop := e.pos }
      loops := b.tree.loops ++ (top.loop.map fun head => ⟨head.start, e.pos, head.header⟩).toList }
    stack := rest
    closed := rest.isEmpty }

/-- What reading an event can do. -/
inductive Reads (b : ScopeBuilder) (e : Event) : ScopeBuilder → Prop
  | enter (he : e.kind = .enter) : Reads b e (b.enter e)
  | exit (he : e.kind = .exit) {top : OpenScope} {rest : List OpenScope}
      (hb : b.stack = top :: rest) (hl : top.label = e.label) : Reads b e (b.exited e top rest)
  | step (he : e.kind = .step) {top : OpenScope} {rest : List OpenScope}
      (hb : b.stack = top :: rest) (hk : e.node.isKnown = true) (hn : e.node.isBlock = false) :
      Reads b e (b.executed e top rest)

lemma leave_eq (hl : top.label = e.label) : b.leave e = .ok (b.exited e top rest) := by
  simp only [leave, hb, hl, ne_eq, not_true_eq_false, if_false, exited]
  cases top.loop <;> simp

lemma run_eq (hk : e.node.isKnown = true) (hn : e.node.isBlock = false) :
    b.run e = .ok (b.executed e top rest) := by
  unfold run
  rw [if_neg (by simp [hb])]
  dsimp only
  rw [execute_of_known hk hn, perform_eq (by exact hb)]
  simp only [Option.or_none]
  rfl

omit hb

/-- An event is read exactly if the outermost scope has not been left and one of three rules
applies. -/
theorem step_eq_ok_iff : b.step e = .ok b' ↔ b.closed = false ∧ b.Reads e b' := by
  unfold step
  cases hc : b.closed with
  | true => simp
  | false =>
    simp only [Bool.false_eq_true, if_false, true_and]
    constructor
    · intro h
      cases he : e.kind with
      | enter =>
        rw [he] at h
        cases h
        exact .enter he
      | exit =>
        rw [he] at h
        dsimp only at h
        cases hb : b.stack with
        | nil =>
          rw [leave, hb] at h
          cases h
        | cons top rest =>
          by_cases hl : top.label = e.label
          · rw [leave_eq hb hl] at h
            cases h
            exact .exit he hb hl
          · simp only [leave, hb, ne_eq, hl, not_false_eq_true, if_true] at h
            cases h
      | step =>
        rw [he] at h
        dsimp only at h
        cases hb : b.stack with
        | nil =>
          simp only [run, hb, isEmpty_nil, if_true] at h
          cases h
        | cons top rest =>
          have hexec := h
          unfold run at hexec
          rw [if_neg (by simp [hb])] at hexec
          obtain ⟨hk, hn⟩ := known_of_execute hexec
          rw [run_eq hb hk hn] at h
          cases h
          exact .step he hb hk hn
    · rintro (he | ⟨he, hb, hl⟩ | ⟨he, hb, hk, hn⟩)
      · rw [he]
      · rw [he]
        exact leave_eq hb hl
      · rw [he]
        exact run_eq hb hk hn

end ScopeBuilder

end Ownership
