import Ownership.Types.Basic

/-!
# Copy classification

A value may be duplicated bit by bit when nothing in it owns anything:

* scalars and shared references are copied,
* owned leaves, boxes, unknown types and exclusive references move,
* a struct or variant is copied when all fields of all arms are.

Boxes and references do not look at their pointee, which is what makes recursive types legal. A
struct or variant that contains itself by value has no finite size and is a fault.
-/

namespace Ownership

namespace TypeDef

/-- How the classification of a type is decided. -/
inductive CopyRule where
  /-- By the kind of the type alone. -/
  | settled (copy : Bool)
  /-- By the fields, all of which have to be copied. -/
  | fields (fields : List FieldDecl)
deriving DecidableEq

/-- The rule for a type. -/
def copyRule (d : TypeDef) : CopyRule :=
  match d.shape with
  | .scalar => .settled true
  | .ref _ mutable => .settled (!mutable)
  | .owned | .box _ | .unknown => .settled false
  | .struct fields => .fields fields
  | .variant arms => .fields (arms.flatMap (·.fields))

end TypeDef

namespace TypeTable

abbrev CopyMemo := Registry TypeId Bool

/-- Classifies the types of fields from left to right. The walk goes on after a field that moves, so
that a cycle is found wherever it sits. -/
def classifyFields (classify : TypeId → CopyMemo → Except Fault Bool × CopyMemo) :
    List FieldDecl → CopyMemo → Except Fault Bool × CopyMemo
  | [], memo => (.ok true, memo)
  | f :: rest, memo =>
    match classify f.type memo with
    | (.error e, memo) => (.error e, memo)
    | (.ok b, memo) =>
      match classifyFields classify rest memo with
      | (.error e, memo) => (.error e, memo)
      | (.ok c, memo) => (.ok (b && c), memo)

def cycleNames (t : TypeTable) (path : List TypeId) (id : TypeId) : List String :=
  (path.dropWhile (· ≠ id)).filterMap fun i => (t.get? i).map (·.name)

/-- Classifies a type below the structs and variants on `path`. The path never repeats a type, so a
budget of one more than the number of types is never used up. -/
def classify (t : TypeTable) : (budget : Nat) → (path : List TypeId) → TypeId → CopyMemo →
    Except Fault Bool × CopyMemo
  | 0, _, _, memo => (.ok false, memo)
  | budget + 1, path, id, memo =>
    match memo.get? id with
    | some b => (.ok b, memo)
    | none =>
      match t.get? id with
      | none => (.error (.missingType id), memo)
      | some d =>
        match d.copyRule with
        | .settled b => (.ok b, memo.insert id b)
        | .fields fields =>
          if id ∈ path then (.error (.cyclicType d.name (t.cycleNames path id ++ [d.name])), memo)
          else
            match classifyFields (t.classify budget (path ++ [id])) fields memo with
            | (.error e, memo) => (.error e, memo)
            | (.ok b, memo) => (.ok b, memo.insert id b)

/-- Whether values of a type are copied, and the table that remembers the answer. Without a type
they are not. -/
def isCopy (t : TypeTable) : Option TypeId → Except Fault Bool × TypeTable
  | none => (.ok false, t)
  | some id =>
    let (answer, copies) := t.classify (t.size + 1) [] id t.copies
    (answer, { t with copies })

def copies? (t : TypeTable) (id : Option TypeId) : Except Fault Bool := (t.isCopy id).1

/-- Classifies every type once, so that later questions are answered from memory. -/
def warm (t : TypeTable) : TypeTable :=
  (List.range t.size).foldl (fun t (i : Nat) => (t.isCopy (some ⟨(i : Int) + 1⟩)).2) t

def cold (t : TypeTable) : TypeTable := { t with copies := .empty }

@[simp] theorem defs_isCopy (t : TypeTable) (id : Option TypeId) :
    (t.isCopy id).2.defs = t.defs := by
  cases id <;> rfl

@[simp] theorem names_isCopy (t : TypeTable) (id : Option TypeId) :
    (t.isCopy id).2.names = t.names := by
  cases id <;> rfl

end TypeTable

end Ownership
