import Ownership.Place

/-!
# Static types inside a function

A binding that is declared without a type takes the type of its initializer. References that arise
in a body are not entered into the type table; they are types of their own.
-/

namespace Ownership

/-- Types of places and expressions. -/
inductive Ty where
  | unknown
  /-- A type of the table. -/
  | named (id : TypeId)
  /-- A reference that arises in the body. -/
  | ref (inner : Ty) (mutable : Bool)
deriving DecidableEq, Inhabited

namespace Ty

/-- The type with a number, or the unknown type. -/
def ofOption : Option TypeId → Ty
  | none => unknown
  | some id => named id

def isLocalRef : Ty → Bool
  | ref .. => true
  | _ => false

end Ty

namespace TypeTable

def tyIsCopy (t : TypeTable) : Ty → Except Fault Bool
  | .unknown => .ok false
  | .named id => t.copies? (some id)
  | .ref _ mutable => .ok (!mutable)

def tyIsRef (t : TypeTable) : Ty → Except Fault Bool
  | .unknown => .ok false
  | .named id => (t.get id).map (·.isRef)
  | .ref .. => .ok true

def tyIsMutRef (t : TypeTable) : Ty → Except Fault Bool
  | .unknown => .ok false
  | .named id => (t.get id).map (·.isMutRef)
  | .ref _ mutable => .ok mutable

/-- The type behind a reference or a box; unknown for other types. -/
def tyPointee (t : TypeTable) : Ty → Except Fault Ty
  | .unknown => .ok .unknown
  | .named id => (t.pointee id).map .ofOption
  | .ref inner _ => .ok inner

def describeTy (t : TypeTable) : Ty → Except Fault String
  | .unknown => t.nameOf none
  | .named id => t.nameOf (some id)
  | .ref inner mutable => do
    let name ← t.describeTy inner
    return (if mutable then "&mut " else "&") ++ name

/-- The two kinds of types with members. -/
inductive AggregateKind where
  | struct
  | variant
deriving DecidableEq, Inhabited

def AggregateKind.holds (k : AggregateKind) (d : TypeDef) : Bool :=
  match k with
  | struct => d.isStruct
  | variant => d.isVariant

/-- The definition of a kind that a type of the table reaches through references and boxes. A
pointee has a smaller number than its pointer, so as many steps as there are types are enough. -/
def aggregateFrom (t : TypeTable) (kind : AggregateKind) :
    Nat → TypeId → Except Fault (Option TypeDef)
  | 0, _ => .ok none
  | steps + 1, id => do
    let d ← t.get id
    if kind.holds d then return some d
    match d.pointee? with
    | some inner => t.aggregateFrom kind steps inner
    | none => return none

/-- The definition of a kind that a type reaches through references and boxes. -/
def aggregate? (t : TypeTable) (kind : AggregateKind) : Ty → Except Fault (Option TypeDef)
  | .unknown => .ok none
  | .named id => t.aggregateFrom kind (t.size + 1) id
  | .ref inner _ => t.aggregate? kind inner

/-- The type of a field of a struct, which may lie behind references and boxes. -/
def tyField (t : TypeTable) (ty : Ty) (name : String) : Except Fault Ty := do
  match ← t.aggregate? .struct ty with
  | none => return .unknown
  | some d => return .ofOption ((d.field? name).map (·.type))

end TypeTable

/-- The types of the bindings of a function, by index, in a program. -/
structure Typing where
  program : Program
  bindings : Registry Nat Ty := .empty

namespace Typing

def table (g : Typing) : TypeTable := g.program.types

def bindingType (g : Typing) (b : Binding) : Ty := (g.bindings.get? b.index).getD .unknown

def followPath (g : Typing) (ty : Ty) : List Projection → Except Fault Ty
  | [] => .ok ty
  | step :: rest =>
    match ty, step with
    | .unknown, _ => .ok .unknown
    | ty, .deref => do g.followPath (← g.table.tyPointee ty) rest
    | ty, .field name => do g.followPath (← g.table.tyField ty name) rest

def placeType (g : Typing) (p : Place) : Except Fault Ty :=
  g.followPath (g.bindingType p.base) p.path

/-- The type of a literal is the type of the table with the usual name. -/
def literalType (g : Typing) : Literal → Ty
  | .int _ => .ofOption (g.table.lookup "Int")
  | .bool _ => .ofOption (g.table.lookup "Bool")
  | .text _ => .ofOption (g.table.lookup "String")
  | .other => .unknown

def exprType (g : Typing) (meaning : String → Option Binding) : Expr → Except Fault Ty
  | .absent => .ok .unknown
  | .literal value _ => .ok (g.literalType value)
  | .var name l =>
    match (Expr.var name l).place? meaning with
    | some p => g.placeType p
    | none => .ok .unknown
  | .field e name l =>
    match (Expr.field e name l).place? meaning with
    | some p => g.placeType p
    | none => do g.table.tyField (← g.exprType meaning e) name
  | .deref e l =>
    match (Expr.deref e l).place? meaning with
    | some p => g.placeType p
    | none => do g.table.tyPointee (← g.exprType meaning e)
  | .borrow e mutable _ => do return .ref (← g.exprType meaning e) mutable
  | .call callee _ _ => do
    match ← g.program.signature? callee with
    | some sig => return .ofOption sig.returnType
    | none => return .unknown
  | .construct typeName _ _ _ => .ok (.ofOption (g.table.lookup typeName))
  | .binary op left _ _ =>
    if op.isTest then .ok (.ofOption (g.table.lookup "Bool")) else g.exprType meaning left
  | .foreign kind => .error (.unhandledExpression kind)

/-- The longest of some prefixes of a place that is a reference. -/
def lastRef? (g : Typing) : List Place → Except Fault (Option Place)
  | [] => .ok none
  | p :: rest => do
    let here ← g.table.tyIsRef (← g.placeType p)
    let later ← g.lastRef? rest
    return later.or (if here then some p else none)

/-- The longest strict prefix of a place that is a reference, through which the rest of the path
looks; nothing for storage that the function owns. -/
def refPrefix? (g : Typing) (p : Place) : Except Fault (Option Place) := g.lastRef? p.strictPrefixes

/-- The type of a scrutinee: the one that the selection states, else the one of the expression. -/
def scrutineeType (g : Typing) (meaning : String → Option Binding) (scrutinee : Expr)
    (stated : Option TypeId) : Except Fault Ty :=
  match stated with
  | some id => .ok (.named id)
  | none => g.exprType meaning scrutinee

/-- The fields of the arm of a name, if there is a variant with such an arm. -/
def armFields : Option TypeDef → Option String → List FieldDecl
  | some d, some name => ((d.arm? name).map VariantArm.fields).getD []
  | _, _ => []

/-- The types of the binders of an arm, one for each, skipped ones included. They are references
when the arm binds by reference or the scrutinee is a reference. -/
def binderTypes (g : Typing) (scrutinee : Ty) (a : Arm) : Except Fault (List Ty) := do
  let d? ← g.table.aggregate? .variant scrutinee
  let isRef ← g.table.tyIsRef scrutinee
  let isMutRef ← g.table.tyIsMutRef scrutinee
  let fields := armFields d? a.variant
  return (List.range a.binders.length).map fun i =>
    let ty := Ty.ofOption ((fields[i]?).map FieldDecl.type)
    if a.byRef || isRef then .ref ty (isMutRef && !a.byRef) else ty

def namedTypes (a : Arm) (types : List Ty) : List Ty :=
  ((a.binders.zip types).filter (·.1 ≠ "_")).map (·.2)

/-! ### Computing the types of bindings -/

def assign (g : Typing) (b : Binding) (ty : Ty) : Typing :=
  { g with bindings := g.bindings.insert b.index ty }

def readEvent (tree : ScopeTree) (g : Typing) (e : Event) : Except Fault Typing :=
  match e.kind, e.node with
  | .step, .param p =>
    .ok ((tree.declaredBy e.label).foldl (fun g b => g.assign b (.ofOption p.type)) g)
  | .step, .stmt (.declare _ type value _ _) => do
    let ty ← match type with
      | some id => pure (.named id)
      | none => g.exprType (tree.resolve e.label) value
    return (tree.declaredBy e.label).foldl (fun g b => g.assign b ty) g
  | .step, .arm a (some sel) => do
    let scrutinee ← g.scrutineeType (tree.resolve sel.label) sel.scrutinee sel.type
    let types ← g.binderTypes scrutinee a
    return ((tree.declaredBy e.label).zip (namedTypes a types)).foldl
      (fun g (b, ty) => g.assign b ty) g
  | _, _ => .ok g

/-- Reads the types that a stream of events gives to bindings. -/
def readEvents (tree : ScopeTree) (g : Typing) : List Event → Except Fault Typing
  | [] => .ok g
  | e :: rest => do
    let g ← g.readEvent tree e
    g.readEvents tree rest

/-- The types of the bindings of a scope tree, computed once in program order. -/
def ofTree (program : Program) (tree : ScopeTree) : Except Fault Typing :=
  readEvents tree { program } tree.events

end Typing

end Ownership
