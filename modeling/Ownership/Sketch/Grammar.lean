import Ownership.Sketch.Reader
import Ownership.Sketch.Syntax

/-!
# The grammar of sketches

One reader per rule. Expressions bind, from loose to tight: `||`, `&&`, one comparison, the
operators `+`, `-` and `*` on one level, the unary `*`, `&` and `&mut`, and the field access. Types,
expressions and statements nest; the number that their readers take bounds how deep, and the number
of tokens is always enough.

A node spans its tokens from the first to the last. Parentheses are no nodes, but they belong to the
node around them.
-/

namespace Ownership.Sketch

open Reader

/-! ### Types -/

def typeExpr : Nat → Reader TypeExpr
  | 0 => fail
  | n + 1 => do
    let start ← here
    match ← peek? with
    | some (.name word) =>
      skip
      return .named word (← spanFrom start)
    | some (.symbol .ampersand) =>
      skip
      let mutable ← hasKeyword .mutable
      return .ref (← typeExpr n) mutable
    | some (.keyword .box) =>
      skip
      symbol .less
      let inner ← typeExpr n
      symbol .greater
      return .box inner
    | _ => fail

/-! ### Expressions -/

def orOp? : TokenKind → Option BinaryOp
  | .symbol .eitherOr => some .or
  | _ => none

def andOp? : TokenKind → Option BinaryOp
  | .symbol .bothAnd => some .and
  | _ => none

def comparison? : TokenKind → Option BinaryOp
  | .symbol .equal => some .eq
  | .symbol .differs => some .ne
  | .symbol .less => some .lt
  | .symbol .atMost => some .le
  | .symbol .greater => some .gt
  | .symbol .atLeast => some .ge
  | _ => none

def arithmetic? : TokenKind → Option BinaryOp
  | .symbol .plus => some .add
  | .symbol .minus => some .sub
  | .symbol .star => some .mul
  | _ => none

/-- Goes on after a left operand with at most `n` operators of one level and their right
operands. -/
def chainUpTo (op? : TokenKind → Option BinaryOp) (operand : Reader Expr) (start : Spot) :
    Nat → Expr → Reader Expr
  | 0, left => return left
  | n + 1, left => do
    match (← peek?).bind op? with
    | none => return left
    | some op =>
      skip
      let right ← operand
      chainUpTo op? operand start n (.binary op left right (← spanFrom start))

/-- Operands with operators of one level between them, grouped to the left. -/
def chain (op? : TokenKind → Option BinaryOp) (operand : Reader Expr) : Reader Expr := do
  let start ← here
  let left ← operand
  chainUpTo op? operand start (← remaining) left

def compared (operand : Reader Expr) : Reader Expr := do
  let start ← here
  let left ← operand
  match (← peek?).bind comparison? with
  | none => return left
  | some op =>
    skip
    let right ← operand
    return .binary op left right (← spanFrom start)

def exprOver (operand : Reader Expr) : Reader Expr :=
  chain orOp? (chain andOp? (compared (chain arithmetic? operand)))

/-- A name and what may follow it: the arguments of a call, or a variant and its arguments. -/
def named (expr : Reader Expr) (start : Spot) (word : String) : Reader Expr := do
  if (← hasSymbol .openParen) then
    let args ← listed .closeParen expr
    return .call word args (← spanFrom start)
  else if (← hasSymbol .path) then
    let arm ← name
    if (← hasSymbol .openParen) then
      let args ← listed .closeParen expr
      return .variant word arm args (← spanFrom start)
    else return .variant word arm [] (← spanFrom start)
  else return .var word (← spanFrom start)

/-- The expressions without operators, given the reader of nested expressions. -/
def atom (expr : Reader Expr) : Reader Expr := do
  let start ← here
  match ← peek? with
  | some (.name word) =>
    skip
    named expr start word
  | some (.numeral digits) =>
    skip
    return .numeral digits (← spanFrom start)
  | some (.keyword .yes) =>
    skip
    return .truth true (← spanFrom start)
  | some (.keyword .no) =>
    skip
    return .truth false (← spanFrom start)
  | some (.text value) =>
    skip
    return .text value (← spanFrom start)
  | some (.symbol .openParen) =>
    skip
    let e ← expr
    symbol .closeParen
    return e
  | _ => fail

/-- Goes on after a subject with at most `n` field accesses. -/
def fieldsUpTo (start : Spot) : Nat → Expr → Reader Expr
  | 0, subject => return subject
  | n + 1, subject => do
    if (← hasSymbol .dot) then
      let field ← name
      fieldsUpTo start n (.field subject field (← spanFrom start))
    else return subject

/-- An operand: unary operators before an atom with its field accesses. -/
def operand : Nat → Reader Expr
  | 0 => fail
  | n + 1 => do
    let start ← here
    match ← peek? with
    | some (.symbol .star) =>
      skip
      let subject ← operand n
      return .deref subject (← spanFrom start)
    | some (.symbol .ampersand) =>
      skip
      let mutable ← hasKeyword .mutable
      let subject ← operand n
      return .borrow subject mutable (← spanFrom start)
    | _ =>
      let subject ← atom (exprOver (operand n))
      fieldsUpTo start (← remaining) subject

def expr (n : Nat) : Reader Expr := exprOver (operand n)

/-! ### Statements -/

def blockOf (stmt : Reader Stmt) : Reader Block := do
  let start ← here
  symbol .openBrace
  let stmts ← manyUntil .closeBrace stmt
  return .mk stmts (← spanFrom start)

def binder : Reader String := do
  if (← hasKeyword .wildcard) then return "_" else name

def pattern : Reader Pattern := do
  if (← hasKeyword .wildcard) then return {}
  else
    let byRef ← hasKeyword .byRef
    let variant ← name
    if (← hasSymbol .openParen) then
      let binders ← separated .comma binder
      symbol .closeParen
      return { variant := some variant, binders, byRef }
    else return { variant := some variant, byRef }

def armOf (stmt : Reader Stmt) : Reader Arm := do
  let start ← here
  let p ← pattern
  symbol .yields
  let body ← blockOf stmt
  let _ ← hasSymbol .comma
  return .mk p.variant p.binders p.byRef body (← spanFrom start)

/-- The rest of a declaration of a binding, after its keyword. -/
def declaration (depth : Nat) (start : Spot) : Reader Stmt := do
  let mutable ← hasKeyword .mutable
  let word ← name
  let type ← if (← hasSymbol .colon) then some <$> typeExpr depth else pure none
  let value ← if (← hasSymbol .assign) then some <$> expr depth else pure none
  symbol .semicolon
  return .declare word mutable type value (← spanFrom start)

def returned (depth : Nat) (start : Spot) : Reader Stmt := do
  if (← hasSymbol .semicolon) then return .ret none (← spanFrom start)
  else
    let value ← expr depth
    symbol .semicolon
    return .ret (some value) (← spanFrom start)

def elsePart (stmt : Reader Stmt) : Reader (Option Block) := do
  if (← hasKeyword .otherwise) then
    if (← peek?) = some (.keyword .branch) then
      let start ← here
      let nested ← stmt
      return some (.mk [nested] (← spanFrom start))
    else some <$> blockOf stmt
  else return none

def evaluation (depth : Nat) (start : Spot) : Reader Stmt := do
  let e ← expr depth
  if (← hasSymbol .assign) then
    let value ← expr depth
    symbol .semicolon
    return .assign e value (← spanFrom start)
  else
    symbol .semicolon
    return .evaluate e (← spanFrom start)

/-- A statement. Its types and expressions nest at most `depth` deep. -/
def stmt (depth : Nat) : Nat → Reader Stmt
  | 0 => fail
  | n + 1 => do
    let start ← here
    match ← peek? with
    | some (.keyword .declare) =>
      skip
      declaration depth start
    | some (.keyword .ret) =>
      skip
      returned depth start
    | some (.keyword .branch) =>
      skip
      let test ← expr depth
      let thenPart ← blockOf (stmt depth n)
      let elsePart ← elsePart (stmt depth n)
      return .branch test thenPart elsePart (← spanFrom start)
    | some (.keyword .loop) =>
      skip
      let test ← expr depth
      let body ← blockOf (stmt depth n)
      return .loop test body (← spanFrom start)
    | some (.keyword .select) =>
      skip
      let scrutinee ← expr depth
      symbol .openBrace
      let arms ← manyUntil .closeBrace (armOf (stmt depth n))
      return .select scrutinee arms (← spanFrom start)
    | some (.symbol .openBrace) => .block <$> blockOf (stmt depth n)
    | _ => evaluation depth start

/-! ### Declarations -/

def structField (depth : Nat) : Reader StructField := do
  let word ← name
  symbol .colon
  return { name := word, type := ← typeExpr depth }

/-- A field of an arm of a variant: a type, and before it possibly a name and a colon. -/
def armField (depth : Nat) : Reader ArmField := do
  let start ← here
  match ← peek? with
  | some (.name word) =>
    skip
    let loc ← spanFrom start
    if (← hasSymbol .colon) then return { name := some word, type := ← typeExpr depth }
    else return { name := none, type := .named word loc }
  | _ => return { name := none, type := ← typeExpr depth }

def armDecl (depth : Nat) : Reader ArmDecl := do
  let word ← name
  if (← hasSymbol .openParen) then
    let fields ← separated .comma (armField depth)
    symbol .closeParen
    return { name := word, fields }
  else return { name := word, fields := [] }

/-- How a function that is defined elsewhere takes an argument. -/
def passMode : Reader PassMode := do
  if (← hasKeyword .wildcard) then return .byValue
  else
    symbol .ampersand
    if (← hasKeyword .mutable) then return .exclusive else return .shared

def paramDecl (depth : Nat) : Reader ParamDecl := do
  let start ← here
  let mutable ← hasKeyword .mutable
  let word ← name
  symbol .colon
  let type ← typeExpr depth
  return { name := word, mutable, type, loc := ← spanFrom start }

def returnType (depth : Nat) : Reader (Option TypeExpr) := do
  if (← hasSymbol .arrow) then some <$> typeExpr depth else return none

/-- The rest of a declaration of a struct, after its keyword. -/
def structDecl (depth : Nat) (start : Spot) : Reader Item := do
  let word ← name
  symbol .openBrace
  let fields ← listedLoosely .closeBrace (structField depth)
  return .struct word fields (← spanFrom start)

/-- The rest of a declaration of a variant, after its keyword. -/
def variantDecl (depth : Nat) (start : Spot) : Reader Item := do
  let word ← name
  symbol .assign
  let arms ← separated .bar (armDecl depth)
  symbol .semicolon
  return .variant word arms (← spanFrom start)

def signatureDecl (depth : Nat) : Reader Item := do
  keyword .function
  let word ← name
  symbol .openParen
  let modes ← listed .closeParen passMode
  let returnType ← returnType depth
  symbol .semicolon
  return .outside word modes returnType

def functionDecl (depth : Nat) (start : Spot) : Reader Item := do
  let word ← name
  symbol .openParen
  let params ← listed .closeParen (paramDecl depth)
  let returnType ← returnType depth
  let body ← blockOf (stmt depth depth)
  return .function { name := word, params, returnType, body, loc := ← spanFrom start }

def item (depth : Nat) : Reader Item := do
  let start ← here
  match ← peek? with
  | some (.keyword .variant) =>
    skip
    variantDecl depth start
  | some (.keyword .struct) =>
    skip
    structDecl depth start
  | some (.keyword .outside) =>
    skip
    signatureDecl depth
  | some (.keyword .function) =>
    skip
    functionDecl depth start
  | _ => fail

/-- The declarations of a sketch, or where it goes wrong: at the first token with which no sketch
goes on, at the first character that begins no token, or, when the text ends too early, at its last
token. -/
def items (file : Option String) (text : List Char) : Except Spot (List Item) :=
  let scan := scan text
  let stuck (c : Cursor) : Spot :=
    match c.rest with
    | t :: _ => t.start
    | [] => scan.stray.getD ((c.last.map (·.start)).getD {})
  match (Reader.all (item scan.tokens.length)).run { file, rest := scan.tokens } with
  | .error c => .error (stuck c)
  | .ok (items, _) =>
    match scan.stray with
    | some spot => .error spot
    | none => .ok items

end Ownership.Sketch
