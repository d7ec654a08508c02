import Ownership.Types.Copy

/-!
# Scripts of table operations

A table is built by a sequence of steps. A step that fails changes no definition and no name; the
next step goes on from there.
-/

namespace Ownership

namespace TypeTable

/-- One operation on a table. -/
inductive Step where
  | newScalar (name : String)
  | newOwned (name : String)
  | ensureInt
  | ensureBool
  | ensureString
  | ensureUnknown
  | ensureRef (inner : TypeId) (mutable : Bool)
  | ensureBox (inner : TypeId)
  | declareStruct (name : String) (fields : Option (List FieldDecl))
  | defineStruct (id : TypeId) (fields : List FieldDecl)
  | declareVariant (name : String) (arms : Option (List VariantArm))
  | defineVariant (id : TypeId) (arms : List VariantArm)
  | lookup (name : String)
  | nameOf (id : Option TypeId)
  | isCopy (id : Option TypeId)
  | pointee (id : TypeId)
  | fieldType (id : TypeId) (name : String)
  | get (id : TypeId)
  | variantNames (id : TypeId)
  | armField (id : TypeId) (arm name : String)
  /-- An operation on a type that is not given. -/
  | untyped

/-- What an operation answers. -/
inductive Answer where
  | nothing
  | type (id : Option TypeId)
  | text (text : String)
  | truth (b : Bool)
  | definition (id : TypeId) (d : TypeDef)
  | names (names : List String)
  | noArm

namespace Step

/-- What registering a type answers, and the table after it. -/
def registered (t : TypeTable) :
    Except Fault (TypeId × TypeTable) → Except Fault Answer × TypeTable
  | .ok (id, t) => (.ok (.type (some id)), t)
  | .error e => (.error e, t)

def defined (t : TypeTable) : Except Fault TypeTable → Except Fault Answer × TypeTable
  | .ok t => (.ok .nothing, t)
  | .error e => (.error e, t)

def apply (t : TypeTable) : Step → Except Fault Answer × TypeTable
  | newScalar name => registered t (t.newScalar name)
  | newOwned name => registered t (t.newOwned name)
  | ensureInt => registered t t.ensureInt
  | ensureBool => registered t t.ensureBool
  | ensureString => registered t t.ensureString
  | ensureUnknown => registered t t.ensureUnknown
  | ensureRef inner mutable => registered t (t.ensureRef inner mutable)
  | ensureBox inner => registered t (t.ensureBox inner)
  | declareStruct name fields => registered t (t.declareStruct name fields)
  | defineStruct id fields => defined t (t.defineStruct id fields)
  | declareVariant name arms => registered t (t.declareVariant name arms)
  | defineVariant id arms => defined t (t.defineVariant id arms)
  | lookup name => (.ok (.type (t.lookup name)), t)
  | nameOf id => ((t.nameOf id).map .text, t)
  | isCopy id =>
    let (answer, t) := t.isCopy id
    (answer.map .truth, t)
  | pointee id => ((t.pointee id).map .type, t)
  | fieldType id name => ((t.fieldType id name).map .type, t)
  | get id => ((t.get id).map (.definition id), t)
  | variantNames id => ((t.get id).map fun d => .names d.variantNames, t)
  | armField id arm name =>
    ((t.get id).map fun d =>
      match d.arm? arm with
      | none => .noArm
      | some a => .type ((FieldDecl.find? a.fields name).map (·.type)), t)
  | untyped => (.error .noType, t)

end Step

/-- Performs operations one after another and collects their answers. -/
def run (t : TypeTable) : List Step → List (Except Fault Answer) × TypeTable
  | [] => ([], t)
  | s :: rest =>
    let (answer, t) := s.apply t
    let (answers, t) := t.run rest
    (answer :: answers, t)

def build (t : TypeTable) : List Step → Except Fault TypeTable
  | [] => .ok t
  | s :: rest =>
    match s.apply t with
    | (.ok _, t) => t.build rest
    | (.error e, _) => .error e

end TypeTable

end Ownership
