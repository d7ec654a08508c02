import Ownership.Scope.Tree

/-!
# Places

A place is a binding with a path of projections: `(*r).name` is the base `r` with a dereference and
the field `name`. Moves, borrows and writes are tracked per place.
-/

namespace Ownership

/-- One step of a path. -/
inductive Projection where
  | field (name : String)
  | deref
deriving DecidableEq, Inhabited

namespace Projection

def throughDeref (path : List Projection) : Bool := path.contains deref

/-- Whether two paths from one base may reach common storage. Where they first differ, two fields
are disjoint and anything else may meet; a path and its continuation share storage. -/
def overlap : List Projection → List Projection → Bool
  | a :: as, b :: bs =>
    if a = b then overlap as bs
    else
      match a, b with
      | field _, field _ => false
      | _, _ => true
  | _, _ => true

def fieldNames? : List Projection → Option (List String)
  | [] => some []
  | field name :: rest => (fieldNames? rest).map (name :: ·)
  | deref :: _ => none

def strictPrefixes : List Projection → List (List Projection)
  | [] => []
  | a :: rest => [] :: (strictPrefixes rest).map (a :: ·)

/-- The text of a path after the text of its base. A dereference of something with a dot in it is
put in parentheses. -/
def render (text : List Char) : List Projection → List Char
  | [] => text
  | field name :: rest => render (text ++ '.' :: name.toList) rest
  | deref :: rest =>
    render (if '.' ∈ text then '(' :: '*' :: text ++ [')'] else '*' :: text) rest

end Projection

/-- A storage location that can be moved and borrowed. -/
structure Place where
  base : Binding
  path : List Projection := []
deriving DecidableEq, Inhabited

namespace Place

def ofBinding (b : Binding) : Place := { base := b }

def project (p : Place) (step : Projection) : Place := { p with path := p.path ++ [step] }

def strictPrefixes (p : Place) : List Place :=
  (Projection.strictPrefixes p.path).map fun path => { p with path }

def covers (p q : Place) : Bool := p.base = q.base && p.path.isPrefixOf q.path

def throughDeref (p : Place) : Bool := Projection.throughDeref p.path

def overlaps (p q : Place) : Bool := p.base = q.base && Projection.overlap p.path q.path

def describe (p : Place) : String := String.ofList (Projection.render p.base.name.toList p.path)

/-- The text of a place without its base, or the whole text if the path has a dereference. -/
def relativePath (p : Place) : String :=
  match Projection.fieldNames? p.path with
  | some names => ".".intercalate names
  | none => p.describe

@[simp] theorem covers_refl (p : Place) : p.covers p = true := by simp [covers]

theorem covers_iff {p q : Place} : p.covers q = true ↔ p.base = q.base ∧ p.path <+: q.path := by
  simp [covers]

/-- A place overlaps everything that it contains. -/
theorem overlaps_of_covers {p q : Place} (h : p.covers q = true) : p.overlaps q = true := by
  rw [covers_iff] at h
  obtain ⟨hb, t, ht⟩ := h
  have hpath : ∀ l : List Projection, Projection.overlap l (l ++ t) = true := by
    intro l
    induction l with
    | nil => cases t <;> simp [Projection.overlap]
    | cons a l ih => simp [Projection.overlap, ih]
  simp [overlaps, hb, ← ht, hpath]

end Place

/-- The place that an expression denotes under a meaning of its names; nothing for values and for
names that are not local. -/
def Expr.place? (meaning : String → Option Binding) : Expr → Option Place
  | .var name _ => (meaning name).map .ofBinding
  | .field e name _ => (e.place? meaning).map (·.project (.field name))
  | .deref e _ => (e.place? meaning).map (·.project .deref)
  | _ => none

end Ownership
