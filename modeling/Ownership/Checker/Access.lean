import Ownership.Checker.Request

/-!
# Accesses to places

The rules for reading, moving, writing and borrowing a place. An access to a place that cannot be
used is reported and changes nothing. Loans never influence the ownership state: they only add
findings of their own.
-/

namespace Ownership

/-- What is done to a place. -/
inductive Access where
  | read (place : Place)
  | move (place : Place)
  | write (place : Place)
  | lend (place : Place) (kind : LoanKind)
deriving DecidableEq, Inhabited

def Flow.useFinding (f : Flow) (p : Place) (pos : Int) (span : Span) : Refusal → Finding
  | .uninitialized => { pos, span, violation := .useOfUninitialized p.base.name }
  | .moved q =>
    let site := f.siteOf q
    { pos, span
      violation := .useAfterMove p.base.name p.describe q.describe site.pos site.span }

/-- The finding for a borrow of a place that cannot be used. -/
def Flow.borrowFinding (f : Flow) (p : Place) (pos : Int) (span : Span) : Refusal → Finding
  | .uninitialized => { pos, span, violation := .useOfUninitialized p.base.name }
  | .moved q =>
    { pos, span, violation := .borrowOfMoved p.base.name p.describe q.describe (f.siteOf q).pos }

def Loan.conflict (l : Loan) (p : Place) (kind : LoanKind) (pos : Int) (span : Span) : Finding :=
  { pos, span
    violation := .aliasConflict p.base.name l.info
      { place := p.describe, kind, start := pos, stop := pos } }

namespace Session

/-- The first live loan that excludes a request, apart from one that the request renews. A shared
request is excluded by exclusive loans, an exclusive one by all. -/
def conflict? (s : Session) (p : Place) (kind : LoanKind) (pos : Int) (renewed : Option Nat) :
    Option Loan :=
  (s.liveLoans p pos).find? fun l =>
    (kind = .exclusive || l.kind = .exclusive) && renewed ≠ some l.id

/-- The loan that an earlier walk of the same request was granted. -/
def sameLoan? (s : Session) (p : Place) (kind : LoanKind) (pos : Int) : Option Loan :=
  s.loans.find? fun l => l.place = p && l.kind = kind && l.start = pos

def grant (s : Session) (p : Place) (kind : LoanKind) (pos : Int) (span : Span) : Session :=
  { s with
    loans :=
      s.loans ++ [{ id := s.loans.length, place := p, kind, start := pos, span, stop := pos }] }

end Session

namespace Context

/-! ### What live loans say about an access -/

def noteRead (c : Context) (p : Place) (pos : Int) (span : Span) (s : Session) : Session :=
  if c.tracksLoans then
    match s.conflict? p .shared pos none with
    | some l => s.report (l.conflict p .shared pos span)
    | none => s
  else s

def noteMove (c : Context) (p : Place) (pos : Int) (span : Span) (s : Session) : Session :=
  if c.tracksLoans && c.options.reportMovesWhileBorrowed then
    match s.conflict? p .exclusive pos none with
    | some l =>
      s.report { pos, span, violation := .moveWhileBorrowed p.base.name p.describe l.info }
    | none => s
  else s

/-- Reports a write to an immutable binding that has a value. -/
def noteMutability (c : Context) (p : Place) (pos : Int) (span : Span) (s : Session) : Session :=
  if c.tracksLoans && c.options.checkMutability && !p.base.mutable && !s.flow.baseUninit p then
    s.report { pos, span, violation := .mutability p.base.name "assign" }
  else s

def noteWrite (c : Context) (p : Place) (pos : Int) (span : Span) (s : Session) : Session :=
  if c.tracksLoans && c.options.reportWritesWhileBorrowed then
    match s.conflict? p .exclusive pos none with
    | some l =>
      s.report { pos, span, violation := .writeWhileBorrowed p.base.name p.describe l.info }
    | none => s
  else s

/-! ### Accesses -/

def read (c : Context) (p : Place) (pos : Int) (span : Span) (s : Session) : Session :=
  match s.flow.refusal? p with
  | some r => s.report (s.flow.useFinding p pos span r)
  | none => c.noteRead p pos span s

def move (c : Context) (p : Place) (pos : Int) (span : Span) (s : Session) : Session :=
  match s.flow.refusal? p with
  | some r => s.report (s.flow.useFinding p pos span r)
  | none =>
    let s := c.noteMove p pos span s
    s.withFlow (s.flow.moveOut p ⟨pos, span⟩)

def write (c : Context) (p : Place) (pos : Int) (span : Span) (s : Session) : Session :=
  match s.flow.writeRefusal? p with
  | some r => s.report (s.flow.useFinding p pos span r)
  | none =>
    let s := c.noteWrite p pos span (c.noteMutability p pos span s)
    s.withFlow (s.flow.refill p)

/-- Grants a borrow that no rule excludes, and says which loans the reference carries: the new one
and, when the place lies behind a reference, those of that reference. -/
def grantLoan (c : Context) (p : Place) (kind : LoanKind) (pos : Int) (span : Span)
    (behind : Option Place) (s : Session) : List Nat × Session :=
  let (id, s) := match s.sameLoan? p kind pos with
    | some l => (l.id, s)
    | none => (s.loans.length, s.grant p kind pos span)
  let inherited := match behind with
    | some r => s.carriedBy c.tree r pos
    | none => []
  (id :: inherited, s)

/-- Borrows a place, and says which loans the reference carries; a refused borrow carries none. -/
def lend (c : Context) (p : Place) (kind : LoanKind) (pos : Int) (span : Span) (s : Session) :
    Except Fault (List Nat × Session) :=
  if !c.tracksLoans then .ok ([], s)
  else
    match s.flow.refusal? p with
    | some r => .ok ([], s.report (s.flow.borrowFinding p pos span r))
    | none => do
      let behind ← c.typing.refPrefix? p
      if kind = .exclusive && c.options.checkMutability && behind.isNone && !p.base.mutable then
        return ([], s.report { pos, span, violation := .mutability p.base.name "borrow" })
      match s.conflict? p kind pos ((s.sameLoan? p kind pos).map (·.id)) with
      | some l => return ([], s.report (l.conflict p kind pos span))
      | none => return c.grantLoan p kind pos span behind s

/-! ### Requests -/

def access (c : Context) (pos : Int) (span : Span) (s : Session) :
    Access → Except Fault (List Nat × Session)
  | .read p => .ok ([], c.read p pos span s)
  | .move p => .ok ([], c.move p pos span s)
  | .write p => .ok ([], c.write p pos span s)
  | .lend p kind => c.lend p kind pos span s

/-- How a value that is not copied is taken. What lies behind a reference is not there to be moved;
it is only read. -/
def consumption (c : Context) (p : Place) : Except Fault Access := do
  match ← c.typing.refPrefix? p with
  | some _ => return .read p
  | none => return .move p

def demanded (c : Context) (p : Place) : Demand → Except Fault Access
  | .take => do
    if ← c.typing.table.tyIsCopy (← c.typing.placeType p) then return .read p
    else c.consumption p
  | .inspect => .ok (.read p)
  | .lend kind => .ok (.lend p kind)
  | .pass kind => do
    if ← c.typing.table.tyIsRef (← c.typing.placeType p) then return .read p
    else return .lend p kind

def carried (c : Context) (p : Place) (pos : Int) (s : Session) : List Nat :=
  if c.tracksLoans then s.carriedBy c.tree p pos else []

/-- Fulfils a demand, and says which loans come with it: those of a borrow, or those that a taken
value carries. -/
def fulfil (c : Context) (p : Place) (pos : Int) (span : Span) (s : Session) (demand : Demand) :
    Except Fault (List Nat × Session) := do
  let a ← c.demanded p demand
  let (held, s) ← c.access pos span s a
  return (if demand = .take then c.carried p pos s else held, s)

/-- Performs one request, and says which loans the value of the expression carries because of it. -/
def perform (c : Context) (pos : Int) (s : Session) : Request → Except Fault (List Nat × Session)
  | .fail fault => .error fault
  | .place demand p span kept => do
    let (held, s) ← c.fulfil p pos span s demand
    return (if kept then held else [], s)

/-- Performs requests one after another, and says which loans the value carries. -/
def performAll (c : Context) (pos : Int) (s : Session) :
    List Request → Except Fault (List Nat × Session)
  | [] => .ok ([], s)
  | r :: rest => do
    let (held, s) ← c.perform pos s r
    let (more, s) ← c.performAll pos s rest
    return (held ++ more, s)

end Context

end Ownership
