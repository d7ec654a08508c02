import Ownership.Checker.Walk
import Ownership.Coverage

/-!
# Reports

Each function is analysed on its own: scopes, types, the walk for ownership and borrows, and the
coverage of its selections. A program is analysed function by function.
-/

namespace Ownership

/-- What the analysis of one function found. -/
structure Report where
  function : String
  findings : List Finding
  drops : List Drop
  tree : ScopeTree

/-- A fault, and the function whose analysis it stopped, if it names one. -/
structure Failure where
  fault : Fault
  function : Option String := none

/-- The failure of the analysis of a function. An inconsistency names the function. -/
def Failure.within (f : Function) (fault : Fault) : Failure :=
  { fault, function := if fault.isInconsistency then some f.name else none }

namespace Context

/-- The streams of findings of a function: ownership and borrows, then coverage. -/
def streams (c : Context) : Except Fault (Session × List (List Finding)) := do
  let s ← c.run
  if c.options.checkExhaustiveness then
    let coverage ← c.checkSelections c.tree.events
    return (s, [s.findings, coverage])
  else return (s, [s.findings])

def report (c : Context) : Except Fault Report := do
  let (s, streams) ← c.streams
  return {
    function := c.function.name
    findings := Finding.collect streams
    drops := s.drops
    tree := c.tree }

end Context

namespace Program

def warm (p : Program) : Program := { p with types := p.types.warm }

def analyzeFunction (p : Program) (f : Function) (options : Options) : Except Failure Report :=
  match (Context.build p.warm f options).bind Context.report with
  | .ok report => .ok report
  | .error fault => .error (.within f fault)

/-- The first name that is declared again after one of some names or after itself. -/
def repeatedName? (seen : List String) : List String → Option String
  | [] => none
  | name :: rest => if name ∈ seen then some name else repeatedName? (name :: seen) rest

def analyzeAll (p : Program) (options : Options) :
    List Function → Except Failure (List (String × List Finding))
  | [] => .ok []
  | f :: rest => do
    let report ← p.analyzeFunction f options
    let reports ← p.analyzeAll options rest
    return (report.function, report.findings) :: reports

/-- Analyses all functions of a program, which have to have different names; the findings come by
function, in the order of declaration. -/
def analyze (p : Program) (options : Options) : Except Failure (List (String × List Finding)) :=
  match repeatedName? [] (p.functions.map (·.name)) with
  | some name => .error { fault := .duplicateFunction name }
  | none => p.analyzeAll options p.functions

end Program

end Ownership
