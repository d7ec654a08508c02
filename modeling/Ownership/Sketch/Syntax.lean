import Ownership.Syntax.Program

/-!
# Sketches as written

What a sketch says before anything in it is looked up or counted: types stand for themselves, a call
of a struct's name is still a call, and a number is its digits.
-/

namespace Ownership.Sketch

/-- A type as it is written. -/
inductive TypeExpr where
  | named (name : String) (loc : Span)
  | ref (inner : TypeExpr) (mutable : Bool)
  | box (inner : TypeExpr)
deriving DecidableEq, Inhabited

/-- Expressions. -/
inductive Expr where
  | numeral (digits : List Char) (loc : Span)
  | truth (value : Bool) (loc : Span)
  | text (value : String) (loc : Span)
  | var (name : String) (loc : Span)
  | field (subject : Expr) (name : String) (loc : Span)
  | deref (subject : Expr) (loc : Span)
  | borrow (subject : Expr) (mutable : Bool) (loc : Span)
  | call (callee : String) (args : List Expr) (loc : Span)
  | binary (op : BinaryOp) (left right : Expr) (loc : Span)
  /-- A value of one arm of a variant. -/
  | variant (typeName arm : String) (args : List Expr) (loc : Span)
deriving Inhabited

mutual

/-- Statements. -/
inductive Stmt where
  | block (body : Block)
  | declare (name : String) (mutable : Bool) (type : Option TypeExpr) (value : Option Expr)
      (loc : Span)
  | assign (target value : Expr) (loc : Span)
  | evaluate (value : Expr) (loc : Span)
  | ret (value : Option Expr) (loc : Span)
  | branch (test : Expr) (thenPart : Block) (elsePart : Option Block) (loc : Span)
  | loop (test : Expr) (body : Block) (loc : Span)
  | select (scrutinee : Expr) (arms : List Arm) (loc : Span)

/-- A list of statements in braces. -/
inductive Block where
  | mk (stmts : List Stmt) (loc : Span)

/-- An arm of a selection; without a variant it is the wildcard. -/
inductive Arm where
  | mk (variant : Option String) (binders : List String) (byRef : Bool) (body : Block) (loc : Span)

end

/-- What an arm matches: a variant with its binders, or anything. -/
structure Pattern where
  variant : Option String := none
  binders : List String := []
  byRef : Bool := false
deriving DecidableEq, Inhabited

/-- A field of a struct. -/
structure StructField where
  name : String
  type : TypeExpr
deriving DecidableEq, Inhabited

/-- A field of an arm of a variant, which needs no name. -/
structure ArmField where
  name : Option String
  type : TypeExpr
deriving DecidableEq, Inhabited

/-- An arm of a variant. -/
structure ArmDecl where
  name : String
  fields : List ArmField
deriving DecidableEq, Inhabited

/-- A parameter of a function. -/
structure ParamDecl where
  name : String
  mutable : Bool
  type : TypeExpr
  loc : Span
deriving DecidableEq, Inhabited

/-- A function with its body. -/
structure FunctionDecl where
  name : String
  params : List ParamDecl
  returnType : Option TypeExpr
  body : Block
  loc : Span

/-- The declarations of a sketch. -/
inductive Item where
  | struct (name : String) (fields : List StructField) (loc : Span)
  | variant (name : String) (arms : List ArmDecl) (loc : Span)
  /-- A function that is defined elsewhere. -/
  | outside (name : String) (modes : List PassMode) (returnType : Option TypeExpr)
  | function (decl : FunctionDecl)

end Ownership.Sketch
