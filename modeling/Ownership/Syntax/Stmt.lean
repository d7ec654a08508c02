import Ownership.Syntax.Expr
import Ownership.Fault

/-!
# Statements

A body is a list of statements; every block, branch, loop body and arm opens a scope. Statements are
numbered in the order of their text. `Stmt.width` says how many numbers a statement takes: one for
itself and one for entering and one for leaving each scope inside it.
-/

namespace Ownership

mutual

/-- Statements. -/
inductive Stmt where
  | block (body : Block)
  /-- Introduces a binding; without a value it is uninitialized. -/
  | declare (name : String) (type : Option TypeId) (value : Expr) (mutable : Bool) (loc : Span)
  | assign (target value : Expr) (loc : Span)
  | evaluate (value : Expr) (loc : Span)
  | ret (value : Expr) (loc : Span)
  | branch (test : Expr) (thenPart : Block) (elsePart : Option Block) (loc : Span)
  /-- A loop whose test comes first. -/
  | loop (test : Expr) (body : Block) (loc : Span)
  /-- A selection among the arms of a variant; `type` overrides the type of the scrutinee. -/
  | select (scrutinee : Expr) (arms : List Arm) (type : Option TypeId) (loc : Span)
  /-- A statement of a kind that no rule knows. -/
  | foreign (kind : String)

/-- A list of statements with a scope of its own. -/
inductive Block where
  | mk (stmts : List Stmt) (loc : Span)

/-- An arm of a selection. Without a variant it is the wildcard. Its binders take the fields of the
variant in order, `_` skips one; with `byRef` they are shared references into the scrutinee. -/
inductive Arm where
  | mk (variant : Option String) (body : Block) (binders : List String) (byRef : Bool) (loc : Span)

end


instance : Inhabited Stmt := ⟨.foreign ""⟩

instance : Inhabited Block := ⟨.mk [] .unknown⟩

instance : Inhabited Arm := ⟨.mk none default [] false .unknown⟩

namespace Block

def stmts : Block → List Stmt
  | mk stmts _ => stmts

def loc : Block → Span
  | mk _ loc => loc

end Block

namespace Arm

def variant : Arm → Option String
  | mk variant _ _ _ _ => variant

def body : Arm → Block
  | mk _ body _ _ _ => body

def binders : Arm → List String
  | mk _ _ binders _ _ => binders

def byRef : Arm → Bool
  | mk _ _ _ byRef _ => byRef

def loc : Arm → Span
  | mk _ _ _ _ loc => loc

def named (a : Arm) : List String := a.binders.filter (· ≠ "_")

end Arm

namespace Stmt

def loc : Stmt → Span
  | block b => b.loc
  | declare _ _ _ _ l | assign _ _ l | evaluate _ l | ret _ l | branch _ _ _ l | loop _ _ l
  | select _ _ _ l => l
  | foreign _ => .unknown

def kindName : Stmt → String
  | block _ => "Block"
  | declare .. => "Let"
  | assign .. => "Assign"
  | evaluate .. => "ExprStmt"
  | ret .. => "Return"
  | branch .. => "If"
  | loop .. => "While"
  | select .. => "Match"
  | foreign kind => kind

/-- The expressions of the statement itself, without those of nested blocks. -/
def expressions : Stmt → List Expr
  | block _ | foreign _ => []
  | declare _ _ value _ _ => [value]
  | assign target value _ => [target, value]
  | evaluate value _ | ret value _ => [value]
  | branch test _ _ _ | loop test _ _ => [test]
  | select scrutinee _ _ _ => [scrutinee]

def arms : Stmt → List Arm
  | select _ arms _ _ => arms
  | _ => []

end Stmt

/-! ### Width -/

mutual

def Stmt.width : Stmt → Nat
  | .block b => b.width
  | .declare .. | .assign .. | .evaluate .. | .ret .. | .foreign _ => 1
  | .branch _ t e _ => 1 + t.width + Block.widthOpt e
  | .loop _ b _ => 1 + b.width
  | .select _ arms _ _ => 1 + Arm.widthAll arms

/-- How many positions a block takes: its statements, its entry and its exit. -/
def Block.width : Block → Nat
  | .mk stmts _ => 2 + Stmt.widthAll stmts

def Block.widthOpt : Option Block → Nat
  | none => 0
  | some b => b.width

def Stmt.widthAll : List Stmt → Nat
  | [] => 0
  | s :: rest => s.width + Stmt.widthAll rest

/-- How many positions an arm takes: its body and its header. -/
def Arm.width : Arm → Nat
  | .mk _ b _ _ _ => 1 + b.width

def Arm.widthAll : List Arm → Nat
  | [] => 0
  | a :: rest => a.width + Arm.widthAll rest

end

/-! ### Statements of unknown kinds -/

mutual

/-- The kind of the first statement of an unknown kind, in the order of the text. -/
def Stmt.firstForeign? : Stmt → Option String
  | .block b => b.firstForeign?
  | .declare .. | .assign .. | .evaluate .. | .ret .. => none
  | .branch _ t e _ => t.firstForeign?.or (Block.firstForeignOpt? e)
  | .loop _ b _ => b.firstForeign?
  | .select _ arms _ _ => Arm.firstForeignOf? arms
  | .foreign kind => some kind

/-- The kind of the first statement of an unknown kind in a block. -/
def Block.firstForeign? : Block → Option String
  | .mk stmts _ => Stmt.firstForeignOf? stmts

/-- The kind of the first statement of an unknown kind in an optional block. -/
def Block.firstForeignOpt? : Option Block → Option String
  | none => none
  | some b => b.firstForeign?

/-- The kind of the first statement of an unknown kind in a list. -/
def Stmt.firstForeignOf? : List Stmt → Option String
  | [] => none
  | s :: rest => s.firstForeign?.or (Stmt.firstForeignOf? rest)

/-- The kind of the first statement of an unknown kind in a list of arms. -/
def Arm.firstForeignOf? : List Arm → Option String
  | [] => none
  | .mk _ b _ _ _ :: rest => b.firstForeign?.or (Arm.firstForeignOf? rest)

end

end Ownership
