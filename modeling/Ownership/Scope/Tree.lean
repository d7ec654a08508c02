import Ownership.Scope.Event
import Ownership.StableSort

/-!
# Scope trees

A scope tree holds what the stream of a body says about scopes and names: which scopes there are and
how they nest, which bindings they own, where the loops are, which binding a name in a statement
means, and where each binding is used and defined.
-/

namespace Ownership

/-- A named storage location, owned by one scope. -/
structure Binding where
  name : String
  /-- The number of the binding in its function, in the order of declaration. -/
  index : Nat
  declaredType : Option TypeId := none
  mutable : Bool := false
  /-- The number of the owning scope. -/
  scope : Nat := 0
  declaredAt : Int := 0
  /-- The label of the declaring node. -/
  label : Int := 0
  isParam : Bool := false
  initialized : Bool := true
deriving DecidableEq, Inhabited

/-- A lexical scope. -/
structure Scope where
  id : Nat
  kind : ScopeKind
  start : Int
  stop : Int
  /-- The enclosing scopes, the innermost first. -/
  outer : List Nat
deriving DecidableEq, Inhabited

namespace Scope

/-- The directly enclosing scope. -/
def parent? (s : Scope) : Option Nat := s.outer.head?

def encloses (s other : Scope) : Bool := s.id == other.id || other.outer.contains s.id

end Scope

/-- The positions of a loop, from its header to the end of its body. -/
structure LoopRange where
  start : Int
  stop : Int
  /-- The kind of the node that heads the loop. -/
  header : String
deriving DecidableEq, Inhabited

/-- Whether a position lies in a loop. -/
def LoopRange.contains (l : LoopRange) (p : Int) :
    Bool := decide (l.start ≤ p) && decide (p ≤ l.stop)

/-- What a stream of events says about scopes and names. -/
structure ScopeTree where
  events : List Event := []
  /-- The scopes in the order of their entry, numbered from zero. -/
  scopes : List Scope := []
  bindings : List Binding := []
  /-- The loops in the order of their ends. -/
  loops : List LoopRange := []
  /-- The position at which a node is executed, by label. -/
  positions : Registry Int Int := .empty
  /-- The scope that a node opens, by label. -/
  opened : Registry Int Nat := .empty
  /-- The binding that a name in a statement means, by label and name. -/
  resolved : Registry (Int × String) Binding := .empty
  /-- Uses of bindings, as pairs of an index and a position. -/
  uses : List (Nat × Int) := []
  /-- Definitions of bindings, as pairs of an index and a position. -/
  defs : List (Nat × Int) := []

/-- The positions recorded for a binding, in ascending order. -/
def positionsOf (index : Nat) (entries : List (Nat × Int)) : List Int :=
  stableSort (fun a b => decide (a ≤ b)) ((entries.filter (·.1 = index)).map (·.2))

namespace ScopeTree

instance : Inhabited ScopeTree := ⟨{}⟩

def stop (t : ScopeTree) : Int := (t.scopes.head?.map (·.stop)).getD 0

def positionOf (t : ScopeTree) (label : Int) (kind : String) : Except Fault Int :=
  match t.positions.get? label with
  | some p => .ok p
  | none => .error (.noPosition kind)

def scopeOf (t : ScopeTree) (label : Int) (kind : String) : Except Fault Scope :=
  match (t.opened.get? label).bind (t.scopes[·]?) with
  | some s => .ok s
  | none => .error (.noScope kind)

/-- The binding that a name in a statement means; nothing for a name that is not local. -/
def resolve (t : ScopeTree) (label : Int) (name : String) : Option Binding :=
  t.resolved.get? (label, name)

def declaredBy (t : ScopeTree) (label : Int) : List Binding :=
  t.bindings.filter (·.label = label)

/-- The bindings that a scope owns, in the order of declaration. -/
def bindingsOf (t : ScopeTree) (scope : Nat) : List Binding :=
  t.bindings.filter (·.scope = scope)

/-- The bindings of a scope in the order of their destruction. -/
def dropOrder (t : ScopeTree) (scope : Nat) : List Binding := (t.bindingsOf scope).reverse

def childrenOf (t : ScopeTree) (scope : Nat) : List Scope :=
  t.scopes.filter (·.parent? = some scope)

def owner? (t : ScopeTree) (b : Binding) : Option Scope := t.scopes[b.scope]?

def ownerStop (t : ScopeTree) (b : Binding) : Int := ((t.owner? b).map (·.stop)).getD 0

/-- Where a binding is read, borrowed or passed on, in ascending order. -/
def usesOf (t : ScopeTree) (b : Binding) : List Int := positionsOf b.index t.uses

/-- Where a binding is declared or assigned as a whole, in ascending order. -/
def defsOf (t : ScopeTree) (b : Binding) : List Int := positionsOf b.index t.defs

def loopsContaining (t : ScopeTree) (p : Int) : List LoopRange := t.loops.filter (·.contains p)

end ScopeTree

end Ownership
