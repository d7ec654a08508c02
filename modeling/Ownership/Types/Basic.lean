import Ownership.Fault
import Ownership.Registry

/-!
# Type tables

A table hands out type identifiers `1, 2, 3, …` in the order of registration. Named types (scalars,
owned leaves, structs, variants, the unknown type) are registered under their name; references and
boxes are interned, one per pointee. Structs and variants may be registered before their fields are
known, so that recursive types can be written down.
-/

namespace Ownership

/-- A named field of a struct or of an arm of a variant. -/
structure FieldDecl where
  name : String
  type : TypeId
deriving DecidableEq, Inhabited

/-- One alternative of a variant. -/
structure VariantArm where
  name : String
  fields : List FieldDecl := []
deriving DecidableEq, Inhabited

/-- What a type is made of. -/
inductive Shape where
  /-- A plain value such as a number. -/
  | scalar
  /-- A leaf that owns memory, such as a text. -/
  | owned
  /-- An owning pointer. -/
  | box (inner : TypeId)
  /-- A reference, exclusive when `mutable`. -/
  | ref (inner : TypeId) (mutable : Bool)
  | struct (fields : List FieldDecl)
  | variant (arms : List VariantArm)
  /-- A type about which nothing is known. -/
  | unknown
deriving DecidableEq, Inhabited

/-- A type: its name and its shape. -/
structure TypeDef where
  name : String
  shape : Shape
deriving DecidableEq, Inhabited

def FieldDecl.find? (fields : List FieldDecl) (name : String) : Option FieldDecl :=
  fields.find? (·.name = name)

namespace TypeDef

def arms (d : TypeDef) : List VariantArm :=
  match d.shape with
  | .variant arms => arms
  | _ => []

def fields (d : TypeDef) : List FieldDecl :=
  match d.shape with
  | .struct fields => fields
  | _ => []

def arm? (d : TypeDef) (name : String) : Option VariantArm := d.arms.find? (·.name = name)

def field? (d : TypeDef) (name : String) : Option FieldDecl := FieldDecl.find? d.fields name

/-- The names of the arms, in the order of their declaration. -/
def variantNames (d : TypeDef) : List String := d.arms.map (·.name)

def pointee? (d : TypeDef) : Option TypeId :=
  match d.shape with
  | .box inner | .ref inner _ => some inner
  | _ => none

def isRef (d : TypeDef) : Bool :=
  match d.shape with
  | .ref .. => true
  | _ => false

def isMutRef (d : TypeDef) : Bool :=
  match d.shape with
  | .ref _ mutable => mutable
  | _ => false

def isStruct (d : TypeDef) : Bool :=
  match d.shape with
  | .struct _ => true
  | _ => false

def isVariant (d : TypeDef) : Bool :=
  match d.shape with
  | .variant _ => true
  | _ => false

end TypeDef

/-- The types of a program. `copies` remembers answers of the copy classification. -/
structure TypeTable where
  defs : List TypeDef := []
  names : Registry String TypeId := .empty
  refs : Registry (TypeId × Bool) TypeId := .empty
  boxes : Registry TypeId TypeId := .empty
  copies : Registry TypeId Bool := .empty

namespace TypeTable

def empty : TypeTable := {}

instance : Inhabited TypeTable := ⟨empty⟩

def size (t : TypeTable) : Nat := t.defs.length

def get? (t : TypeTable) (id : TypeId) : Option TypeDef :=
  if 0 < id.val then t.defs[(id.val - 1).toNat]? else none

/-- The definition behind an identifier; an identifier outside the table is a fault. -/
def get (t : TypeTable) (id : TypeId) : Except Fault TypeDef :=
  match t.get? id with
  | some d => .ok d
  | none => .error (.missingType id)

def lookup (t : TypeTable) (name : String) : Option TypeId := t.names.get? name

def nameOf (t : TypeTable) : Option TypeId → Except Fault String
  | none => .ok "<unknown>"
  | some id => (t.get id).map (·.name)

/-- The type behind a reference or a box, and nothing for other types. -/
def pointee (t : TypeTable) (id : TypeId) : Except Fault (Option TypeId) :=
  (t.get id).map (·.pointee?)

/-- The type of a field of a struct, and nothing for other types and other names. -/
def fieldType (t : TypeTable) (id : TypeId) (name : String) : Except Fault (Option TypeId) :=
  (t.get id).map fun d => (d.field? name).map (·.type)

/-! ### Registration -/

def add (t : TypeTable) (d : TypeDef) : TypeId × TypeTable :=
  (⟨(t.size : Int) + 1⟩, { t with defs := t.defs ++ [d] })

def addNamed (t : TypeTable) (name : String) (shape : Shape) : Except Fault (TypeId × TypeTable) :=
  if t.names.contains name then .error (.duplicateType name)
  else
    let (id, t) := t.add { name, shape }
    .ok (id, { t with names := t.names.insert name id })

/-- The named type of a name, added with the given shape if there is none. -/
def ensureNamed (t : TypeTable) (name : String) (shape : Shape) :
    Except Fault (TypeId × TypeTable) :=
  match t.lookup name with
  | some id => .ok (id, t)
  | none => t.addNamed name shape

def newScalar (t : TypeTable) (name : String) : Except Fault (TypeId × TypeTable) :=
  t.addNamed name .scalar

def newOwned (t : TypeTable) (name : String) : Except Fault (TypeId × TypeTable) :=
  t.addNamed name .owned

def ensureInt (t : TypeTable) : Except Fault (TypeId × TypeTable) := t.ensureNamed "Int" .scalar

def ensureBool (t : TypeTable) : Except Fault (TypeId × TypeTable) := t.ensureNamed "Bool" .scalar

def ensureString (t : TypeTable) : Except Fault (TypeId × TypeTable) :=
  t.ensureNamed "String" .owned

def ensureUnknown (t : TypeTable) : Except Fault (TypeId × TypeTable) :=
  t.ensureNamed "Unknown" .unknown

/-- The reference type to a pointee, one per pointee and mutability. -/
def ensureRef (t : TypeTable) (inner : TypeId) (mutable : Bool) :
    Except Fault (TypeId × TypeTable) :=
  match t.refs.get? (inner, mutable) with
  | some id => .ok (id, t)
  | none => do
    let d ← t.get inner
    let sigil := if mutable then "&mut " else "&"
    let (id, t) := t.add { name := sigil ++ d.name, shape := .ref inner mutable }
    return (id, { t with refs := t.refs.insert (inner, mutable) id })

def ensureBox (t : TypeTable) (inner : TypeId) : Except Fault (TypeId × TypeTable) :=
  match t.boxes.get? inner with
  | some id => .ok (id, t)
  | none => do
    let d ← t.get inner
    let (id, t) := t.add { name := "Box<" ++ d.name ++ ">", shape := .box inner }
    return (id, { t with boxes := t.boxes.insert inner id })

/-- Replaces the shape of a type and forgets what was remembered about copying. -/
def setShape (t : TypeTable) (id : TypeId) (shape : Shape) : TypeTable :=
  { t with
    defs := t.defs.modify (id.val - 1).toNat fun d => { d with shape }
    copies := .empty }

def defineStruct (t : TypeTable) (id : TypeId) (fields : List FieldDecl) :
    Except Fault TypeTable := do
  let d ← t.get id
  if d.isStruct then return t.setShape id (.struct fields)
  else throw (.notAStruct d.name)

def defineVariant (t : TypeTable) (id : TypeId) (arms : List VariantArm) :
    Except Fault TypeTable := do
  let d ← t.get id
  if d.isVariant then return t.setShape id (.variant arms)
  else throw (.notAVariant d.name)

/-- Registers a struct; without fields they are to be given later. -/
def declareStruct (t : TypeTable) (name : String) (fields : Option (List FieldDecl)) :
    Except Fault (TypeId × TypeTable) := do
  let (id, t) ← t.addNamed name (.struct [])
  match fields with
  | none => return (id, t)
  | some fields => return (id, ← t.defineStruct id fields)

/-- Registers a variant; without arms they are to be given later. -/
def declareVariant (t : TypeTable) (name : String) (arms : Option (List VariantArm)) :
    Except Fault (TypeId × TypeTable) := do
  let (id, t) ← t.addNamed name (.variant [])
  match arms with
  | none => return (id, t)
  | some arms => return (id, ← t.defineVariant id arms)

/-! ### The view of a table -/

theorem get_eq_ok_iff {t : TypeTable} {id : TypeId} {d : TypeDef} :
    t.get id = .ok d ↔ t.get? id = some d := by
  unfold get; split <;> simp_all

theorem get?_eq_some_bounds {t : TypeTable} {id : TypeId} {d : TypeDef}
    (h : t.get? id = some d) : 1 ≤ id.val ∧ id.val ≤ t.size := by
  unfold get? at h
  split at h
  · have := (List.getElem?_eq_some_iff.mp h).1
    unfold size
    omega
  · simp at h

theorem get?_isSome_iff {t : TypeTable} {id : TypeId} :
    (t.get? id).isSome ↔ 1 ≤ id.val ∧ id.val ≤ t.size := by
  constructor
  · intro h
    obtain ⟨d, hd⟩ := Option.isSome_iff_exists.mp h
    exact get?_eq_some_bounds hd
  · rintro ⟨h1, h2⟩
    have h0 : (0 : Int) < id.val := by omega
    have hl : (id.val - 1).toNat < t.defs.length := by unfold size at h2; omega
    rw [get?, if_pos h0, List.getElem?_eq_getElem hl]
    rfl

end TypeTable

end Ownership
