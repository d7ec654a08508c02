import Ownership.Place

/-!
# Ownership states

Along a path through a body, every place is owned, uninitialized or moved out. Only deviations and
declarations are recorded; a place without a record is owned. Where paths meet their states are
merged: moved on any path is moved, and uninitialized on any path is uninitialized.
-/

namespace Ownership

/-- The state of a place. -/
inductive PlaceState where
  | uninit
  | owned
  | moved
deriving DecidableEq, Inhabited

def PlaceState.merge (a b : PlaceState) : PlaceState :=
  if a = b then a
  else if a = moved || b = moved then moved
  else uninit

/-- Where a place was moved. -/
structure MoveSite where
  pos : Int
  span : Span
deriving DecidableEq, Inhabited

def MoveSite.missing : MoveSite := ⟨-1, .unknown⟩

/-- The ownership state of one path. -/
structure Flow where
  states : Registry Place PlaceState := .empty
  sites : Registry Place MoveSite := .empty
  /-- Whether the path has returned from the function. -/
  returned : Bool := false

/-- Why a place cannot be used. -/
inductive Refusal where
  | uninitialized
  /-- Something that the place overlaps has been moved. -/
  | moved (cause : Place)
deriving DecidableEq, Inhabited

/-- The state of a whole binding. -/
inductive BindingStatus where
  | owned
  | movedOut
  /-- Some parts have been moved. -/
  | partiallyMoved (fields : List String)
  | uninitialized
deriving DecidableEq, Inhabited

namespace Flow

instance : Inhabited Flow := ⟨{}⟩

/-- The state of a place; without a record it is owned. -/
def stateOf (f : Flow) (p : Place) : PlaceState := (f.states.get? p).getD .owned

def siteOf (f : Flow) (p : Place) : MoveSite := (f.sites.get? p).getD .missing

/-! ### Merging -/

/-- The record of a place after two paths meet; a missing record counts as owned. -/
def mergeStates (a b : Option PlaceState) : Option PlaceState :=
  match a, b with
  | none, none => none
  | _, _ => some ((a.getD .owned).merge (b.getD .owned))

/-- The state after two paths meet. A path that has returned contributes nothing; of two move sites
the one of the first path is kept. -/
def merge (f g : Flow) : Flow :=
  if f.returned then g
  else if g.returned then f
  else
    { states := .combine mergeStates f.states g.states
      sites := .combine Option.or f.sites g.sites }

/-! ### Usability -/

def isMoved (f : Flow) (p : Place) : Bool := f.states.get? p = some .moved

/-- The moved place that makes a place unusable: something around it or itself, the outermost first,
else a part of it, the one recorded first. -/
def movedConflict? (f : Flow) (p : Place) : Option Place :=
  ((p.strictPrefixes ++ [p]).find? f.isMoved).or
    ((f.states.entries.find? fun e => e.2 = .moved && e.1 ≠ p && p.covers e.1).map (·.1))

def baseUninit (f : Flow) (p : Place) : Bool := f.states.get? (.ofBinding p.base) = some .uninit

def refusal? (f : Flow) (p : Place) : Option Refusal :=
  if f.baseUninit p then some .uninitialized
  else (f.movedConflict? p).map .moved

/-- Why a place cannot be assigned. A whole binding always can; a part needs what is around it. -/
def writeRefusal? (f : Flow) (p : Place) : Option Refusal :=
  if p.path.isEmpty then none
  else if f.baseUninit p then some .uninitialized
  else (p.strictPrefixes.find? f.isMoved).map .moved

/-! ### Changes -/

def mark (f : Flow) (p : Place) (s : PlaceState) : Flow :=
  { f with states := f.states.insert p s }

/-- Forgets what is recorded for a place and everything in it. -/
def resetBelow (f : Flow) (p : Place) : Flow :=
  { f with states := f.states.keep (!p.covers ·), sites := f.sites.keep (!p.covers ·) }

def moveOut (f : Flow) (p : Place) (site : MoveSite) : Flow :=
  let f := (f.resetBelow p).mark p .moved
  { f with sites := f.sites.insert p site }

def refill (f : Flow) (p : Place) : Flow := (f.resetBelow p).mark p .owned

def forget (f : Flow) (b : Binding) : Flow :=
  { f with
    states := f.states.keep (·.base ≠ b)
    sites := f.sites.keep (·.base ≠ b) }

/-! ### Bindings -/

/-- The moved parts of a binding, in the order of their records. -/
def movedParts (f : Flow) (b : Binding) : List Place :=
  (f.states.entries.filter fun e => e.2 = .moved && e.1.base = b && !e.1.path.isEmpty).map (·.1)

def status (f : Flow) (b : Binding) : BindingStatus :=
  match f.stateOf (.ofBinding b) with
  | .uninit => .uninitialized
  | .moved => .movedOut
  | .owned =>
    match f.movedParts b with
    | [] => .owned
    | parts => .partiallyMoved (parts.map (·.relativePath))

/-! ### Views -/

@[simp] theorem get?_mark (f : Flow) (p q : Place) (s : PlaceState) :
    (f.mark p s).states.get? q = if q = p then some s else f.states.get? q :=
  Registry.get?_insert ..

@[simp] theorem get?_resetBelow (f : Flow) (p q : Place) :
    (f.resetBelow p).states.get? q = if p.covers q then none else f.states.get? q := by
  simp only [resetBelow, Registry.get?_keep]
  cases p.covers q <;> simp

@[simp] theorem get?_forget (f : Flow) (b : Binding) (q : Place) :
    (f.forget b).states.get? q = if q.base = b then none else f.states.get? q := by
  simp only [forget, Registry.get?_keep]
  by_cases h : q.base = b <;> simp [h]

theorem get?_moveOut (f : Flow) (p q : Place) (site : MoveSite) :
    (f.moveOut p site).states.get? q
      = if q = p then some .moved else if p.covers q then none else f.states.get? q := by
  show ((f.resetBelow p).mark p .moved).states.get? q = _
  rw [get?_mark, get?_resetBelow]

theorem get?_refill (f : Flow) (p q : Place) :
    (f.refill p).states.get? q
      = if q = p then some .owned else if p.covers q then none else f.states.get? q := by
  rw [refill, get?_mark, get?_resetBelow]

@[simp] theorem returned_forget (f : Flow) (b : Binding) : (f.forget b).returned = f.returned := rfl

theorem get?_merge {f g : Flow} (hf : f.returned = false) (hg : g.returned = false) (p : Place) :
    (f.merge g).states.get? p = mergeStates (f.states.get? p) (g.states.get? p) := by
  simp only [merge, hf, hg, Bool.false_eq_true, if_false]
  exact Registry.get?_combine _ rfl ..

end Flow

end Ownership
