import Ownership.Place

/-!
# Loans

A loan is a borrow of a place, taken at one position. It lasts as long as the bindings that hold it
are used; its window grows while holders are found.
-/

namespace Ownership

/-- Shared or exclusive access. -/
inductive LoanKind where
  | shared
  | exclusive
deriving DecidableEq, Inhabited

def LoanKind.sigil : LoanKind → String
  | shared => "&"
  | exclusive => "&mut"

def LoanKind.ofMutable (mutable : Bool) : LoanKind := if mutable then exclusive else shared

/-- A borrow as findings cite it; a request that was not granted ends where it starts. -/
structure BorrowInfo where
  place : String
  kind : LoanKind
  start : Int
  stop : Int
deriving DecidableEq, Inhabited

def BorrowInfo.describe (b : BorrowInfo) : String := b.kind.sigil ++ " " ++ b.place

/-- A binding that got a loan at a position. -/
structure Holder where
  binding : Binding
  since : Int
deriving DecidableEq, Inhabited

/-- A borrow of a place. A loan that is carried around a loop is live in the whole loop. -/
structure Loan where
  id : Nat
  place : Place
  kind : LoanKind
  start : Int
  span : Span
  stop : Int
  holders : List Holder := []
  loop : Option LoopRange := none
deriving DecidableEq, Inhabited

namespace Loan

def activeAt (l : Loan) (p : Int) : Bool :=
  (decide (l.start ≤ p) && decide (p ≤ l.stop)) || l.loop.any (·.contains p)

def info (l : Loan) : BorrowInfo :=
  { place := l.place.describe, kind := l.kind, start := l.start, stop := l.stop }

end Loan

/-! ### Windows of holders -/

namespace ScopeTree

def nextDef? (t : ScopeTree) (b : Binding) (since : Int) : Option Int :=
  (t.defsOf b).find? (since < ·)

/-- The last use of the value that a binding got at a position. Uses count up to the next
definition, which may itself read the old value. -/
def lastUse (t : ScopeTree) (b : Binding) (since : Int) : Int :=
  let reads := (t.usesOf b).filter fun u =>
    decide (since < u) && (t.nextDef? b since).all (u ≤ ·)
  reads.getLast?.getD since

/-- Whether the value that a binding got at a position is read again on a later iteration of a loop
that does not contain the binding's declaration. A value brought into the loop is read on every
iteration unless it is replaced; a value got inside is read on the next one by a use that no
definition in the loop precedes. -/
def crosses (t : ScopeTree) (b : Binding) (since : Int) (l : LoopRange) : Bool :=
  let uses := (t.usesOf b).filter l.contains
  let defs := (t.defsOf b).filter l.contains
  if l.contains b.declaredAt || uses.isEmpty then false
  else if since < l.start then
    defs.isEmpty && (t.nextDef? b since).all (l.stop < ·)
  else if l.contains since then
    uses.any fun u => decide (u ≤ since) && !defs.any (· < u)
  else false

/-- The loop that starts first; of two that start together, the one met first. -/
def outermost (found : Option LoopRange) (l : LoopRange) : Option LoopRange :=
  match found with
  | none => some l
  | some m => if l.start < m.start then some l else some m

/-- The last position at which a holder still reads the value it got at a position, and the loop
that carries it to a later iteration. -/
def holderWindow (t : ScopeTree) (b : Binding) (since : Int) : Int × Option LoopRange :=
  let stop := t.lastUse b since
  match (t.loops.filter (t.crosses b since)).foldl outermost none with
  | none => (stop, none)
  | some l => (max stop l.stop, some l)

/-- Whether a binding still has at a position the value it got before: a definition in between
replaces it, one at the position itself comes after the reads there. -/
def stillHolds (t : ScopeTree) (b : Binding) (since p : Int) : Bool :=
  !(t.defsOf b).any fun d => decide (since < d) && decide (d < p)

end ScopeTree

namespace Loan

/-- Makes a binding a holder of a loan and extends the window accordingly. -/
def attach (t : ScopeTree) (b : Binding) (since : Int) (l : Loan) : Loan :=
  if l.holders.any fun h => h.binding.index = b.index && h.since = since then l
  else
    let (stop, loop) := t.holderWindow b since
    { l with
      holders := l.holders ++ [⟨b, since⟩]
      stop := max l.stop stop
      loop := match loop with
        | none => l.loop
        | some m => ScopeTree.outermost l.loop m }

def heldBy (t : ScopeTree) (b : Binding) (p : Int) (l : Loan) : Bool :=
  l.holders.any fun h => h.binding.index = b.index && t.stillHolds h.binding h.since p

end Loan

end Ownership
