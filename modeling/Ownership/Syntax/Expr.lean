import Ownership.Span

/-!
# Expressions

Expressions tell *places* (variables, fields, dereferences) from values. Borrows are explicit, and a
call names its callee; how it passes its arguments is a matter of the callee's signature.
-/

namespace Ownership

/-- A literal value. -/
inductive Literal where
  | int (value : Int)
  | bool (value : Bool)
  | text (value : String)
  /-- A value of any other kind; nothing is known about its type. -/
  | other
deriving DecidableEq, Inhabited

/-- Binary operators. Their operands are read, never moved. -/
inductive BinaryOp where
  | add | sub | mul | eq | ne | lt | le | gt | ge | and | or
deriving DecidableEq, Inhabited

def BinaryOp.isTest : BinaryOp → Bool
  | add | sub | mul => false
  | eq | ne | lt | le | gt | ge | and | or => true

/-- Expressions. -/
inductive Expr where
  /-- No expression: it names nothing, has no type and does nothing. -/
  | absent
  | literal (value : Literal) (loc : Span)
  | var (name : String) (loc : Span)
  | field (subject : Expr) (name : String) (loc : Span)
  | deref (subject : Expr) (loc : Span)
  | borrow (subject : Expr) (mutable : Bool) (loc : Span)
  | call (callee : String) (args : List Expr) (loc : Span)
  | binary (op : BinaryOp) (left right : Expr) (loc : Span)
  /-- A value of a struct or, with a variant, of one arm of a variant. -/
  | construct (typeName : String) (variant : Option String) (args : List Expr) (loc : Span)
  /-- An expression of a kind that no rule knows. -/
  | foreign (kind : String)
deriving Inhabited

namespace Expr

/-- Whether there is an expression at all. -/
def isPresent : Expr → Bool
  | absent => false
  | _ => true

def loc : Expr → Span
  | absent | foreign _ => .unknown
  | literal _ l | var _ l | field _ _ l | deref _ l | borrow _ _ l | call _ _ l | binary _ _ _ l
  | construct _ _ _ l => l

def kindName : Expr → String
  | absent => "None"
  | literal .. => "Literal"
  | var .. => "Var"
  | field .. => "Field"
  | deref .. => "Deref"
  | borrow .. => "Borrow"
  | call .. => "Call"
  | binary .. => "Binary"
  | construct .. => "Construct"
  | foreign kind => kind

/-! ### Variables and parts -/

mutual

/-- The names of the variables of an expression, from left to right. -/
def vars : Expr → List String
  | absent | literal .. | foreign _ => []
  | var name _ => [name]
  | field e _ _ | deref e _ | borrow e _ _ => e.vars
  | call _ args _ | construct _ _ args _ => varsAll args
  | binary _ l r _ => l.vars ++ r.vars

def varsAll : List Expr → List String
  | [] => []
  | e :: rest => e.vars ++ varsAll rest

end

mutual

/-- The kind of the first expression of an unknown kind, from left to right. -/
def firstForeign? : Expr → Option String
  | absent | literal .. | var .. => none
  | field e _ _ | deref e _ | borrow e _ _ => e.firstForeign?
  | call _ args _ | construct _ _ args _ => firstForeignOf? args
  | binary _ l r _ => l.firstForeign?.or r.firstForeign?
  | foreign kind => some kind

/-- The kind of the first expression of an unknown kind in a list. -/
def firstForeignOf? : List Expr → Option String
  | [] => none
  | e :: rest => e.firstForeign?.or (firstForeignOf? rest)

end

mutual

/-- An expression and all its parts, each before its own parts, from left to right. -/
def parts : Expr → List Expr
  | absent => []
  | field e name l => field e name l :: e.parts
  | deref e l => deref e l :: e.parts
  | borrow e mutable l => borrow e mutable l :: e.parts
  | call callee args l => call callee args l :: partsAll args
  | construct typeName variant args l => construct typeName variant args l :: partsAll args
  | binary op e f l => binary op e f l :: (e.parts ++ f.parts)
  | e => [e]

def partsAll : List Expr → List Expr
  | [] => []
  | e :: rest => e.parts ++ partsAll rest

end

end Expr

end Ownership
