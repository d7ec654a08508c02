import Mathlib.Data.List.Forall2
import Ownership.Sketch.Analysis

/-!
# Printing

Programs are printed in three steps. A function is first put into the words of a sketch
(`Function.written`), where its types stand as they are written. What is written is then printed as
tokens: an expression in one way, with parentheses exactly where its operand binds more loosely than
its place allows, and a statement in several ways (`Stmt.Prints`), since the block after `else` may
be left out around a single branch. The tokens are at last spelled with one blank between them.

Not everything can be said in a sketch. `Function.Expressible` says what can, over the types that
are declared along with the function.
-/

namespace Ownership

/-- The level on which an operator binds, from loose to tight. The unary operators are on level 4,
and on level 5 is everything that needs no parentheses anywhere. -/
def BinaryOp.level : BinaryOp → Nat
  | or => 0
  | and => 1
  | eq | ne | lt | le | gt | ge => 2
  | add | sub | mul => 3

/-- The level that the left operand needs: operators group to the left, but comparisons do not group
at all. -/
def BinaryOp.leftLevel : BinaryOp → Nat
  | eq | ne | lt | le | gt | ge => 3
  | op => op.level

lemma BinaryOp.level_lt (op : BinaryOp) : op.level < 4 := by cases op <;> decide

lemma BinaryOp.leftLevel_eq_level {op : BinaryOp} (h : op.level ≠ 2) : op.leftLevel = op.level := by
  cases op <;> simp_all [level, leftLevel]

lemma BinaryOp.leftLevel_eq_three {op : BinaryOp} (h : op.level = 2) : op.leftLevel = 3 := by
  cases op <;> simp_all [level, leftLevel]

def BinaryOp.symbol : BinaryOp → Sketch.Symbol
  | or => .eitherOr
  | and => .bothAnd
  | eq => .equal
  | ne => .differs
  | lt => .less
  | le => .atMost
  | gt => .greater
  | ge => .atLeast
  | add => .plus
  | sub => .minus
  | mul => .star

namespace Sketch

/-! ### Spelling -/

def TokenKind.spelling : TokenKind → List Char
  | name word => word.toList
  | keyword k => k.spelling.toList
  | numeral digits => digits
  | text value => '"' :: (value.toList ++ ['"'])
  | symbol s => s.spelling

def spaced (ts : List TokenKind) : List Char := [' '].intercalate (ts.map TokenKind.spelling)

/-- Whether characters form a word: letters, digits and underscores, but no digit first. -/
def isWord : List Char → Bool
  | [] => false
  | c :: more => (c.isAlpha || c = '_') && more.all fun c => c.isAlphanum || c = '_'

/-- Words that can be names, which keywords cannot. -/
def IsName (word : String) : Prop := isWord word.toList ∧ word ∉ Keyword.all.map Keyword.spelling

instance (word : String) : Decidable (IsName word) := inferInstanceAs (Decidable (_ ∧ _))

/-- Whether characters can stand between quotes: they are on one line, a backslash takes the next
character along, and a quote stands only where a backslash takes it along. -/
def isQuotable : List Char → Bool
  | [] => true
  | ['\\'] => false
  | '\\' :: c :: rest => c ≠ '\n' && isQuotable rest
  | c :: rest => c ≠ '\n' && c ≠ '"' && isQuotable rest

/-! ### Types and expressions -/

def flag (k : Keyword) (stands : Bool) : List TokenKind := if stands then [.keyword k] else []

/-- Lists of tokens with commas between them. -/
def commas (parts : List (List TokenKind)) : List TokenKind :=
  [.symbol .comma].intercalate parts

def TypeExpr.tokens : TypeExpr → List TokenKind
  | named name _ => [.name name]
  | ref inner mutable => .symbol .ampersand :: (flag .mutable mutable ++ inner.tokens)
  | box inner => .keyword .box :: .symbol .less :: (inner.tokens ++ [.symbol .greater])

/-- The level of an expression is the one of its outermost operator. -/
def Expr.level : Expr → Nat
  | binary op _ _ _ => op.level
  | deref .. | borrow .. => 4
  | _ => 5

/-- An operand, in parentheses if its level is below the one that its place needs. -/
def enclosed (needed level : Nat) (ts : List TokenKind) : List TokenKind :=
  if level < needed then .symbol .openParen :: (ts ++ [.symbol .closeParen]) else ts

mutual

def Expr.tokens : Expr → List TokenKind
  | .numeral digits _ => [.numeral digits]
  | .truth value _ => [.keyword (if value then .yes else .no)]
  | .text value _ => [.text value]
  | .var name _ => [.name name]
  | .field e name _ => enclosed 5 e.level e.tokens ++ [.symbol .dot, .name name]
  | .deref e _ => .symbol .star :: enclosed 4 e.level e.tokens
  | .borrow e mutable _ =>
    .symbol .ampersand :: (flag .mutable mutable ++ enclosed 4 e.level e.tokens)
  | .call callee args _ =>
    .name callee :: .symbol .openParen :: (commas (Expr.tokensAll args) ++ [.symbol .closeParen])
  | .binary op l r _ =>
    enclosed op.leftLevel l.level l.tokens ++
      .symbol op.symbol :: enclosed (op.level + 1) r.level r.tokens
  | .variant typeName arm [] _ => [.name typeName, .symbol .path, .name arm]
  | .variant typeName arm (e :: rest) _ =>
    .name typeName :: .symbol .path :: .name arm :: .symbol .openParen ::
      (commas (e.tokens :: Expr.tokensAll rest) ++ [.symbol .closeParen])

def Expr.tokensAll : List Expr → List (List TokenKind)
  | [] => []
  | e :: rest => e.tokens :: Expr.tokensAll rest

end

/-! ### Statements -/

/-- A part that may be missing, after the symbol that announces it. -/
def optional (s : Symbol) : Option (List TokenKind) → List TokenKind
  | none => []
  | some ts => .symbol s :: ts

def binderToken (word : String) : TokenKind := if word = "_" then .keyword .wildcard else .name word

def patternTokens (variant : String) (binders : List String) (byRef : Bool) : List TokenKind :=
  flag .byRef byRef ++ .name variant ::
    match binders with
    | [] => []
    | binder :: rest =>
      .symbol .openParen ::
        (commas ((binder :: rest).map fun word => [binderToken word]) ++ [.symbol .closeParen])

/-- The ways to print a list one by one, given the ways to print one of its members. -/
inductive PrintsEach {α : Type} (P : α → List TokenKind → Prop) :
    List α → List TokenKind → Prop where
  | nil : PrintsEach P [] []
  | cons {x : α} {xs : List α} {ts us : List TokenKind} : P x ts → PrintsEach P xs us →
      PrintsEach P (x :: xs) (ts ++ us)

mutual

/-- The ways to print a statement. -/
inductive Stmt.Prints : Stmt → List TokenKind → Prop where
  | block {b : Block} {ts : List TokenKind} : b.Prints ts → Stmt.Prints (.block b) ts
  | declare (name : String) (mutable : Bool) (type : Option TypeExpr) (value : Option Expr)
      (loc : Span) :
      Stmt.Prints (.declare name mutable type value loc)
        (.keyword .declare :: (flag .mutable mutable ++
          .name name :: (optional .colon (type.map TypeExpr.tokens) ++
            (optional .assign (value.map Expr.tokens) ++ [.symbol .semicolon]))))
  | assign (target value : Expr) (loc : Span) :
      Stmt.Prints (.assign target value loc)
        (target.tokens ++ .symbol .assign :: (value.tokens ++ [.symbol .semicolon]))
  | evaluate (value : Expr) (loc : Span) :
      Stmt.Prints (.evaluate value loc) (value.tokens ++ [.symbol .semicolon])
  | retNothing (loc : Span) : Stmt.Prints (.ret none loc) [.keyword .ret, .symbol .semicolon]
  | ret (value : Expr) (loc : Span) :
      Stmt.Prints (.ret (some value) loc)
        (.keyword .ret :: (value.tokens ++ [.symbol .semicolon]))
  | branch {thenPart : Block} {elsePart : Option Block} {ts us : List TokenKind} (test : Expr)
      (loc : Span) : thenPart.Prints ts → Block.PrintsElse elsePart us →
      Stmt.Prints (.branch test thenPart elsePart loc)
        (.keyword .branch :: (test.tokens ++ (ts ++ us)))
  | loop {body : Block} {ts : List TokenKind} (test : Expr) (loc : Span) : body.Prints ts →
      Stmt.Prints (.loop test body loc) (.keyword .loop :: (test.tokens ++ ts))
  | select {arms : List Arm} {ts : List TokenKind} (scrutinee : Expr) (loc : Span) :
      PrintsEach Arm.Prints arms ts →
      Stmt.Prints (.select scrutinee arms loc)
        (.keyword .select :: (scrutinee.tokens ++
          .symbol .openBrace :: (ts ++ [.symbol .closeBrace])))

/-- The ways to print a block. -/
inductive Block.Prints : Block → List TokenKind → Prop where
  | mk {stmts : List Stmt} {ts : List TokenKind} (loc : Span) : PrintsEach Stmt.Prints stmts ts →
      Block.Prints (.mk stmts loc) (.symbol .openBrace :: (ts ++ [.symbol .closeBrace]))

/-- The ways to print the last part of a branch: as a block or, if it is one branch, as that. -/
inductive Block.PrintsElse : Option Block → List TokenKind → Prop where
  | none : Block.PrintsElse none []
  | block {b : Block} {ts : List TokenKind} : b.Prints ts →
      Block.PrintsElse (some b) (.keyword .otherwise :: ts)
  | branch {test : Expr} {thenPart : Block} {elsePart : Option Block} {loc : Span}
      {ts : List TokenKind} (outer : Span) : Stmt.Prints (.branch test thenPart elsePart loc) ts →
      Block.PrintsElse (some (.mk [.branch test thenPart elsePart loc] outer))
        (.keyword .otherwise :: ts)

/-- The ways to print an arm; a wildcard has nothing to bind. -/
inductive Arm.Prints : Arm → List TokenKind → Prop where
  | wildcard {body : Block} {ts : List TokenKind} (loc : Span) : body.Prints ts →
      Arm.Prints (.mk none [] false body loc) ([.keyword .wildcard] ++ .symbol .yields :: ts)
  | variant {body : Block} {ts : List TokenKind} (name : String) (binders : List String)
      (byRef : Bool) (loc : Span) : body.Prints ts →
      Arm.Prints (.mk (some name) binders byRef body loc)
        (patternTokens name binders byRef ++ .symbol .yields :: ts)

end

/-! ### Declarations -/

def StructField.tokens (f : StructField) : List TokenKind :=
  .name f.name :: .symbol .colon :: f.type.tokens

def ArmField.tokens (f : ArmField) : List TokenKind :=
  match f.name with
  | none => f.type.tokens
  | some name => .name name :: .symbol .colon :: f.type.tokens

def ArmDecl.tokens (a : ArmDecl) : List TokenKind :=
  match a.fields with
  | [] => [.name a.name]
  | f :: rest =>
    .name a.name :: .symbol .openParen ::
      (commas ((f :: rest).map ArmField.tokens) ++ [.symbol .closeParen])

def ParamDecl.tokens (p : ParamDecl) : List TokenKind :=
  flag .mutable p.mutable ++ .name p.name :: .symbol .colon :: p.type.tokens

/-- The ways to print a declaration of a type or a function. -/
inductive Item.Prints : Item → List TokenKind → Prop where
  | struct (name : String) (fields : List StructField) (loc : Span) :
      Item.Prints (.struct name fields loc)
        (.keyword .struct :: .name name :: .symbol .openBrace ::
          (commas (fields.map StructField.tokens) ++ [.symbol .closeBrace]))
  | variant (name : String) (arm : ArmDecl) (rest : List ArmDecl) (loc : Span) :
      Item.Prints (.variant name (arm :: rest) loc)
        (.keyword .variant :: .name name :: .symbol .assign ::
          ([.symbol .bar].intercalate ((arm :: rest).map ArmDecl.tokens) ++ [.symbol .semicolon]))
  | function {decl : FunctionDecl} {ts : List TokenKind} : decl.body.Prints ts →
      Item.Prints (.function decl)
        (.keyword .function :: .name decl.name :: .symbol .openParen ::
          (commas (decl.params.map ParamDecl.tokens) ++
            .symbol .closeParen :: (optional .arrow (decl.returnType.map TypeExpr.tokens) ++ ts)))

/-! ### What a sketch can say -/

def builtinNames : List String := ["Int", "Bool", "Char", "Float", "String", "Vec"]

def structNames (items : List Item) : List String :=
  items.filterMap fun
    | .struct name _ _ => some name
    | _ => none

def variantNames (items : List Item) : List String :=
  items.filterMap fun
    | .variant name _ _ => some name
    | _ => none

/-- All types that are known with some declarations. -/
def typeNames (items : List Item) : List String :=
  builtinNames ++ structNames items ++ variantNames items

def TypeExpr.Expressible (items : List Item) : TypeExpr → Prop
  | named name _ => name ∈ typeNames items
  | ref inner _ | box inner => inner.Expressible items

/-- Declarations of structs and of variants, which have at least one arm. -/
def Item.Expressible (items : List Item) : Item → Prop
  | struct name fields _ =>
    IsName name ∧ ∀ f ∈ fields, IsName f.name ∧ f.type.Expressible items
  | variant name arms _ =>
    IsName name ∧ arms ≠ [] ∧ ∀ a ∈ arms, IsName a.name ∧
      ∀ f ∈ a.fields, (∀ word ∈ f.name, IsName word) ∧ f.type.Expressible items
  | outside .. | function _ => False

/-- Declarations of types, each under a name of its own. -/
structure Declares (items : List Item) : Prop where
  names : (typeNames items).Nodup
  each : ∀ i ∈ items, i.Expressible items

end Sketch

open Sketch (IsName isQuotable TypeExpr)

/-! ### Functions in the words of a sketch -/

mutual

def Expr.written : Expr → Sketch.Expr
  | .literal (.int n) _ => .numeral (Nat.toDigits 10 n.toNat) .unknown
  | .literal (.bool b) _ => .truth b .unknown
  | .literal (.text value) _ => .text value .unknown
  | .var name _ => .var name .unknown
  | .field e name _ => .field e.written name .unknown
  | .deref e _ => .deref e.written .unknown
  | .borrow e mutable _ => .borrow e.written mutable .unknown
  | .call callee args _ => .call callee (Expr.writtenAll args) .unknown
  | .binary op l r _ => .binary op l.written r.written .unknown
  | .construct typeName none args _ => .call typeName (Expr.writtenAll args) .unknown
  | .construct typeName (some arm) args _ => .variant typeName arm (Expr.writtenAll args) .unknown
  -- What follows cannot be said in a sketch.
  | .absent | .literal .other _ | .foreign _ => .truth false .unknown

def Expr.writtenAll : List Expr → List Sketch.Expr
  | [] => []
  | e :: rest => e.written :: Expr.writtenAll rest

end

def Expr.writtenOpt (e : Expr) : Option Sketch.Expr := if e.isPresent then some e.written else none

mutual

/-- A statement in the words of a sketch; `write` says how its types are written. -/
def Stmt.written (write : TypeId → TypeExpr) : Stmt → Sketch.Stmt
  | .block b => .block (b.written write)
  | .declare name type value mutable _ =>
    .declare name mutable (type.map write) value.writtenOpt .unknown
  | .assign target value _ => .assign target.written value.written .unknown
  | .evaluate value _ => .evaluate value.written .unknown
  | .ret value _ => .ret value.writtenOpt .unknown
  | .branch test t e _ =>
    .branch test.written (t.written write) (Block.writtenOpt write e) .unknown
  | .loop test body _ => .loop test.written (body.written write) .unknown
  | .select scrutinee arms _ _ => .select scrutinee.written (Arm.writtenAll write arms) .unknown
  -- What follows cannot be said in a sketch.
  | .foreign _ => .ret none .unknown

def Block.written (write : TypeId → TypeExpr) : Block → Sketch.Block
  | .mk stmts _ => .mk (Stmt.writtenAll write stmts) .unknown

def Block.writtenOpt (write : TypeId → TypeExpr) : Option Block → Option Sketch.Block
  | none => none
  | some b => some (b.written write)

def Stmt.writtenAll (write : TypeId → TypeExpr) : List Stmt → List Sketch.Stmt
  | [] => []
  | s :: rest => s.written write :: Stmt.writtenAll write rest

def Arm.writtenAll (write : TypeId → TypeExpr) : List Arm → List Sketch.Arm
  | [] => []
  | .mk variant body binders byRef _ :: rest =>
    .mk variant binders byRef (body.written write) .unknown :: Arm.writtenAll write rest

end

def Param.written (write : TypeId → TypeExpr) (p : Param) : Sketch.ParamDecl where
  name := p.name
  mutable := p.mutable
  type := write (p.type.getD ⟨0⟩)
  loc := .unknown

def Function.written (write : TypeId → TypeExpr) (f : Function) : Sketch.FunctionDecl where
  name := f.name
  params := f.params.map (·.written write)
  returnType := f.returnType.map write
  body := f.body.written write
  loc := .unknown

/-! ### Functions that a sketch can say -/

mutual

/-- Expressions that a sketch can say. A call of a struct's name would be read as a construction,
and a number that has too many digits is not read at all. -/
def Expr.Expressible (items : List Sketch.Item) : Expr → Prop
  | .literal (.int n) _ => 0 ≤ n ∧ (Nat.toDigits 10 n.toNat).length ≤ Numeral.maxDigits
  | .literal (.bool _) _ => True
  | .literal (.text value) _ => isQuotable value.toList
  | .var name _ => IsName name
  | .field e name _ => e.Expressible items ∧ IsName name
  | .deref e _ | .borrow e _ _ => e.Expressible items
  | .call callee args _ =>
    IsName callee ∧ callee ∉ Sketch.structNames items ∧ Expr.ExpressibleAll items args
  | .binary _ l r _ => l.Expressible items ∧ r.Expressible items
  | .construct typeName none args _ =>
    typeName ∈ Sketch.structNames items ∧ Expr.ExpressibleAll items args
  | .construct typeName (some arm) args _ =>
    typeName ∈ Sketch.typeNames items ∧ IsName arm ∧ Expr.ExpressibleAll items args
  | .absent | .literal .other _ | .foreign _ => False

/-- Lists of expressions that a sketch can say. -/
def Expr.ExpressibleAll (items : List Sketch.Item) : List Expr → Prop
  | [] => True
  | e :: rest => e.Expressible items ∧ Expr.ExpressibleAll items rest

end

/-- Variables, fields and dereferences can be assigned to. -/
def Expr.IsTarget : Expr → Prop
  | .var .. | .field .. | .deref .. => True
  | _ => False

/-- Patterns that a sketch can say: the wildcard has no binders and takes no references. -/
def Arm.Sayable (variant : Option String) (binders : List String) (byRef : Bool) : Prop :=
  match variant with
  | none => binders = [] ∧ byRef = false
  | some name => IsName name ∧ ∀ word ∈ binders, word = "_" ∨ IsName word

mutual

def Stmt.Expressible (items : List Sketch.Item) (write : TypeId → TypeExpr) : Stmt → Prop
  | .block b => b.Expressible items write
  | .declare name type value _ _ =>
    IsName name ∧ (∀ id ∈ type, (write id).Expressible items) ∧
      (value.isPresent → value.Expressible items)
  | .assign target value _ =>
    target.IsTarget ∧ target.Expressible items ∧ value.Expressible items
  | .evaluate value _ => value.Expressible items
  | .ret value _ => value.isPresent → value.Expressible items
  | .branch test t e _ =>
    test.Expressible items ∧ t.Expressible items write ∧ Block.ExpressibleOpt items write e
  | .loop test body _ => test.Expressible items ∧ body.Expressible items write
  | .select scrutinee arms type _ =>
    scrutinee.Expressible items ∧ type = none ∧ Arm.ExpressibleAll items write arms
  | .foreign _ => False

def Block.Expressible (items : List Sketch.Item) (write : TypeId → TypeExpr) : Block → Prop
  | .mk stmts _ => Stmt.ExpressibleAll items write stmts

def Block.ExpressibleOpt (items : List Sketch.Item) (write : TypeId → TypeExpr) :
    Option Block → Prop
  | none => True
  | some b => b.Expressible items write

/-- Lists of statements that a sketch can say. -/
def Stmt.ExpressibleAll (items : List Sketch.Item) (write : TypeId → TypeExpr) :
    List Stmt → Prop
  | [] => True
  | s :: rest => s.Expressible items write ∧ Stmt.ExpressibleAll items write rest

def Arm.ExpressibleAll (items : List Sketch.Item) (write : TypeId → TypeExpr) : List Arm → Prop
  | [] => True
  | .mk variant body binders byRef _ :: rest =>
    Arm.Sayable variant binders byRef ∧ body.Expressible items write ∧
      Arm.ExpressibleAll items write rest

end

/-- Functions that a sketch can say after some declarations; `write` says how the types are written
that the function refers to. -/
structure Function.Expressible (items : List Sketch.Item) (write : TypeId → TypeExpr)
    (f : Function) : Prop where
  name : IsName f.name
  params : ∀ p ∈ f.params, IsName p.name ∧ ∃ id, p.type = some id ∧ (write id).Expressible items
  returnType : ∀ id ∈ f.returnType, (write id).Expressible items
  body : f.body.Expressible items write

/-! ### The same function -/

mutual

def Expr.bare : Expr → Expr
  | .absent => .absent
  | .literal value _ => .literal value .unknown
  | .var name _ => .var name .unknown
  | .field e name _ => .field e.bare name .unknown
  | .deref e _ => .deref e.bare .unknown
  | .borrow e mutable _ => .borrow e.bare mutable .unknown
  | .call callee args _ => .call callee (Expr.bareAll args) .unknown
  | .binary op l r _ => .binary op l.bare r.bare .unknown
  | .construct typeName variant args _ =>
    .construct typeName variant (Expr.bareAll args) .unknown
  | .foreign kind => .foreign kind

def Expr.bareAll : List Expr → List Expr
  | [] => []
  | e :: rest => e.bare :: Expr.bareAll rest

end

/-- The type that is written, if the table has it. -/
def Sketch.TypeExpr.idIn (t : TypeTable) : TypeExpr → Option TypeId
  | named name _ => t.lookup name
  | ref inner mutable => (inner.idIn t).bind fun id => t.refs.get? (id, mutable)
  | box inner => (inner.idIn t).bind fun id => t.boxes.get? id

section

variable (R : TypeId → TypeId → Prop)

mutual

/-- Statements that are the same but for their spans and for the numbers of their types, which `R`
relates. -/
inductive Stmt.Same : Stmt → Stmt → Prop where
  | block {b b' : Block} : Block.Same b b' → Stmt.Same (.block b) (.block b')
  | declare {type type' : Option TypeId} {value value' : Expr} (name : String) (mutable : Bool)
      (loc loc' : Span) : Option.Rel R type type' → value.bare = value'.bare →
      Stmt.Same (.declare name type value mutable loc) (.declare name type' value' mutable loc')
  | assign {target target' value value' : Expr} (loc loc' : Span) : target.bare = target'.bare →
      value.bare = value'.bare → Stmt.Same (.assign target value loc) (.assign target' value' loc')
  | evaluate {value value' : Expr} (loc loc' : Span) : value.bare = value'.bare →
      Stmt.Same (.evaluate value loc) (.evaluate value' loc')
  | ret {value value' : Expr} (loc loc' : Span) : value.bare = value'.bare →
      Stmt.Same (.ret value loc) (.ret value' loc')
  | branch {test test' : Expr} {t t' : Block} {e e' : Option Block} (loc loc' : Span) :
      test.bare = test'.bare → Block.Same t t' → Option.Rel Block.Same e e' →
      Stmt.Same (.branch test t e loc) (.branch test' t' e' loc')
  | loop {test test' : Expr} {b b' : Block} (loc loc' : Span) : test.bare = test'.bare →
      Block.Same b b' → Stmt.Same (.loop test b loc) (.loop test' b' loc')
  | select {e e' : Expr} {arms arms' : List Arm} {type type' : Option TypeId} (loc loc' : Span) :
      e.bare = e'.bare → List.Forall₂ Arm.Same arms arms' → Option.Rel R type type' →
      Stmt.Same (.select e arms type loc) (.select e' arms' type' loc')
  | foreign (kind : String) : Stmt.Same (.foreign kind) (.foreign kind)

/-- Blocks that are the same but for their spans and for the numbers of their types. -/
inductive Block.Same : Block → Block → Prop where
  | mk {ss ss' : List Stmt} (loc loc' : Span) : List.Forall₂ Stmt.Same ss ss' →
      Block.Same (.mk ss loc) (.mk ss' loc')

/-- Arms that are the same but for their spans and for the numbers of their types. -/
inductive Arm.Same : Arm → Arm → Prop where
  | mk {b b' : Block} (variant : Option String) (binders : List String) (byRef : Bool)
      (loc loc' : Span) : Block.Same b b' →
      Arm.Same (.mk variant b binders byRef loc) (.mk variant b' binders byRef loc')

end

/-- Parameters that are the same but for their spans and for the numbers of their types. -/
structure Param.Same (p q : Param) : Prop where
  name : p.name = q.name
  type : Option.Rel R p.type q.type
  mutable : p.mutable = q.mutable

/-- Functions that are the same but for their spans and for the numbers of their types. -/
structure Function.Same (f g : Function) : Prop where
  name : f.name = g.name
  params : List.Forall₂ (Param.Same R) f.params g.params
  returnType : Option.Rel R f.returnType g.returnType
  body : Block.Same R f.body g.body

end

end Ownership
