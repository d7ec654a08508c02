import Ownership.Numeral
import Ownership.Sketch.Syntax

/-!
# From a sketch to a program

All structs and variants are declared before anything else is looked at, so declarations may refer
to each other in any order. After that the declarations are taken one by one. A call of a struct's
name builds a value of that struct.
-/

namespace Ownership.Sketch

/-- Why a sketch gives no program. -/
inductive Error where
  /-- The text does not follow the grammar. -/
  | unexpected (loc : Span)
  | unknownType (name : String) (loc : Span)
  | badTarget (loc : Span)
  /-- A number has too many digits. -/
  | tooLong (numeral : Numeral.TooLong)
  /-- The type table refused a declaration. -/
  | refused (fault : Fault) (loc : Span)

namespace Error

/-- The text of an error. -/
def message : Error → String
  | unexpected _ => "invalid sketch"
  | unknownType name _ => "unknown type '" ++ name ++ "'"
  | badTarget _ => "assignment target must be a variable, field or dereference"
  | tooLong numeral => numeral.message
  | refused fault _ => fault.message

/-- Where the error is; a number that is too long is reported without a location. -/
def loc : Error → Span
  | tooLong _ => .unknown
  | unexpected loc | unknownType _ loc | badTarget loc | refused _ loc => loc

end Error

/-- Steps that may add references and boxes to the type table. -/
abbrev Build (α : Type) := StateT TypeTable (Except Error) α

namespace Build

def fail {α : Type} (e : Error) : Build α := fun _ => .error e

/-- A step of the type table; a refusal is reported at the given span. -/
def table {α : Type} (loc : Span) (step : TypeTable → Except Fault (α × TypeTable)) : Build α :=
  fun t => (step t).mapError (.refused · loc)

def ask {α : Type} (question : TypeTable → Except Error α) : Build α :=
  fun t => (question t).map (·, t)

end Build

def TypeExpr.build : TypeExpr → Build TypeId
  | named name loc => Build.ask fun t =>
    match t.lookup name with
    | some id => .ok id
    | none => .error (.unknownType name loc)
  | ref inner mutable => do
    let id ← inner.build
    Build.table .unknown (·.ensureRef id mutable)
  | box inner => do
    let id ← inner.build
    Build.table .unknown (·.ensureBox id)

def TypeExpr.buildOpt : Option TypeExpr → Build (Option TypeId)
  | none => return none
  | some type => some <$> type.build

/-! ### Expressions -/

def isStructName (t : TypeTable) (name : String) : Bool :=
  ((t.lookup name).bind t.get?).any (·.isStruct)

mutual

/-- The expression that is written. A call of a struct's name is a construction, and the type of a
variant has to be declared. -/
def resolve (t : TypeTable) : Expr → Except Error Ownership.Expr
  | .numeral digits loc => do
    let value ← (Numeral.decimal digits).mapError .tooLong
    return .literal (.int value) loc
  | .truth value loc => .ok (.literal (.bool value) loc)
  | .text value loc => .ok (.literal (.text value) loc)
  | .var name loc => .ok (.var name loc)
  | .field e name loc => return .field (← resolve t e) name loc
  | .deref e loc => return .deref (← resolve t e) loc
  | .borrow e mutable loc => return .borrow (← resolve t e) mutable loc
  | .call callee args loc => do
    let args ← resolveAll t args
    if isStructName t callee then return .construct callee none args loc
    else return .call callee args loc
  | .binary op l r loc => do
    let l ← resolve t l
    let r ← resolve t r
    return .binary op l r loc
  | .variant typeName arm args loc =>
    match t.lookup typeName with
    | none => .error (.unknownType typeName loc)
    | some _ => return .construct typeName (some arm) (← resolveAll t args) loc

def resolveAll (t : TypeTable) : List Expr → Except Error (List Ownership.Expr)
  | [] => .ok []
  | e :: rest => do
    let e ← resolve t e
    let rest ← resolveAll t rest
    return e :: rest

end

def buildExpr (e : Expr) : Build Ownership.Expr := Build.ask (resolve · e)

def buildExprOpt : Option Expr → Build Ownership.Expr
  | none => return .absent
  | some e => buildExpr e

def isTarget : Ownership.Expr → Bool
  | .var .. | .field .. | .deref .. => true
  | _ => false

/-! ### Statements -/

mutual

/-- The statement that is written. The last part of a branch is taken first. -/
def Stmt.build : Stmt → Build Ownership.Stmt
  | .block b => .block <$> b.build
  | .declare name mutable type value loc => do
    let type ← TypeExpr.buildOpt type
    let value ← buildExprOpt value
    return .declare name type value mutable loc
  | .assign target value loc => do
    let target ← buildExpr target
    if isTarget target then
      let value ← buildExpr value
      return .assign target value loc
    else Build.fail (.badTarget loc)
  | .evaluate value loc => return .evaluate (← buildExpr value) loc
  | .ret value loc => return .ret (← buildExprOpt value) loc
  | .branch test thenPart elsePart loc => do
    let elsePart ← Block.buildOpt elsePart
    let test ← buildExpr test
    let thenPart ← thenPart.build
    return .branch test thenPart elsePart loc
  | .loop test body loc => do
    let test ← buildExpr test
    let body ← body.build
    return .loop test body loc
  | .select scrutinee arms loc => do
    let scrutinee ← buildExpr scrutinee
    let arms ← Arm.buildAll arms
    return .select scrutinee arms none loc

def Block.build : Block → Build Ownership.Block
  | .mk stmts loc => return .mk (← Stmt.buildAll stmts) loc

def Block.buildOpt : Option Block → Build (Option Ownership.Block)
  | none => return none
  | some b => some <$> b.build

def Stmt.buildAll : List Stmt → Build (List Ownership.Stmt)
  | [] => return []
  | s :: rest => do
    let s ← s.build
    let rest ← Stmt.buildAll rest
    return s :: rest

def Arm.buildAll : List Arm → Build (List Ownership.Arm)
  | [] => return []
  | .mk variant binders byRef body loc :: rest => do
    let body ← body.build
    let rest ← Arm.buildAll rest
    return .mk variant body binders byRef loc :: rest

end

/-! ### Declarations -/

/-- Declares the type of a declaration, still without fields or arms. -/
def Item.declare : Item → Build Unit
  | struct name _ loc => discard (Build.table loc (·.declareStruct name none))
  | variant name _ loc => discard (Build.table loc (·.declareVariant name none))
  | outside .. | function _ => return ()

def StructField.build (f : StructField) : Build FieldDecl :=
  return { name := f.name, type := ← f.type.build }

/-- The fields of an arm of a variant; those without a name have their index, which counts from
`i`. -/
def ArmField.buildAll (i : Nat) : List ArmField → Build (List FieldDecl)
  | [] => return []
  | f :: rest => do
    let type ← f.type.build
    let rest ← buildAll (i + 1) rest
    return { name := f.name.getD (toString i), type } :: rest

def ArmDecl.build (a : ArmDecl) : Build VariantArm :=
  return { name := a.name, fields := ← ArmField.buildAll 0 a.fields }

def ParamDecl.build (p : ParamDecl) : Build Param :=
  return { name := p.name, type := some (← p.type.build), mutable := p.mutable, loc := p.loc }

def FunctionDecl.build (f : FunctionDecl) : Build Function := do
  let params ← f.params.mapM (·.build)
  let returnType ← TypeExpr.buildOpt f.returnType
  let body ← f.body.build
  return { name := f.name, params, body, returnType, loc := f.loc }

def define (name : String) (loc : Span) (step : TypeTable → TypeId → Except Fault TypeTable) :
    Build Unit := do
  let id ← (TypeExpr.named name loc).build
  Build.table loc fun t => (step t id).map ((), ·)

/-- What the declarations contribute beside the types. -/
structure Outline where
  functions : List Function := []
  externs : Registry String Signature := .empty

/-- Takes one declaration; a later signature replaces an earlier one of the same name. -/
def Item.build (o : Outline) : Item → Build Outline
  | struct name fields loc => do
    let fields ← fields.mapM (·.build)
    define name loc (·.defineStruct · fields)
    return o
  | variant name arms loc => do
    let arms ← arms.mapM (·.build)
    define name loc (·.defineVariant · arms)
    return o
  | outside name modes type => do
    let returnType ← TypeExpr.buildOpt type
    return { o with externs := o.externs.insert name { name, modes, returnType } }
  | function decl => return { o with functions := o.functions ++ [← decl.build] }

def builtins : Build Unit := do
  discard (Build.table .unknown (·.ensureInt))
  discard (Build.table .unknown (·.ensureBool))
  discard (Build.table .unknown (·.newScalar "Char"))
  discard (Build.table .unknown (·.newScalar "Float"))
  discard (Build.table .unknown (·.ensureString))
  discard (Build.table .unknown (·.newOwned "Vec"))

/-- Declares all types, then takes the declarations one by one. -/
def buildItems (items : List Item) : Build Outline := do
  builtins
  items.forM (·.declare)
  items.foldlM Item.build {}

def build (items : List Item) : Except Error Program := do
  let (o, types) ← (buildItems items).run .empty
  return { types, functions := o.functions, externs := o.externs }

end Ownership.Sketch
