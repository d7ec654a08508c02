import Ownership.Numeral
import Ownership.Registry

/-!
# Options of an analysis

Options are given as settings, pairs of a key and a value. Every key and the kind of every value are
checked in the order in which they are given; the number of workers is checked last. A key that is
given twice counts once, at its first place and with its last value.
-/

namespace Ownership

/-- The switches of one analysis. -/
structure Options where
  /-- How many bodies may be analysed at a time; the results do not depend on it. -/
  workers : Int := 1
  /-- Report exclusive borrows of, and second assignments to, immutable bindings. -/
  checkMutability : Bool := false
  /-- Report moving a place that has a live borrow. -/
  reportMovesWhileBorrowed : Bool := true
  /-- Report assigning a place that has a live borrow. -/
  reportWritesWhileBorrowed : Bool := true
  /-- Report a borrow that is stored beyond the scope of its source only if it is used there. -/
  danglingRequiresLaterUse : Bool := false
  /-- Check the arms of selections. -/
  checkExhaustiveness : Bool := true
deriving DecidableEq, Inhabited

/-- Values of settings. A table keeps its keys in the order in which they were given. -/
inductive Setting where
  | none
  | bool (value : Bool)
  | int (value : Int)
  | float
  | text (value : String)
  | list (items : List Setting)
  | table (entries : List (String × Setting))
deriving Inhabited

def Setting.kindName : Setting → String
  | none => "NoneType"
  | bool _ => "bool"
  | int _ => "int"
  | float => "float"
  | text _ => "str"
  | list _ => "list"
  | table _ => "dict"

/-- Why settings do not make options. -/
inductive OptionsError where
  | unknownKey (key : String)
  | wrongKind (key expected actual : String)
  | tooFewWorkers (count : Int)
  /-- The text of a settings file is not well formed. -/
  | badText
  /-- A number in a settings file has too many digits. -/
  | tooLong (numeral : Numeral.TooLong)
  /-- The table of all tools is a value of another kind. -/
  | toolsNotATable (kind : String)
  /-- The table of the options is a value of another kind. -/
  | optionsNotATable (kind : String)
deriving DecidableEq, Inhabited

/-- The wording of an error. -/
def OptionsError.message : OptionsError → String
  | unknownKey key => s!"unknown borrowck option '{key}'"
  | wrongKind key expected actual => s!"option '{key}' must be {expected}, got {actual}"
  | tooFewWorkers count => s!"workers must be >= 1 (got {count})"
  | badText => ""
  | tooLong numeral => numeral.message
  | toolsNotATable kind => s!"'{kind}' object has no attribute 'get'"
  | optionsNotATable kind => s!"'{kind}' object has no attribute 'items'"

namespace Options

def expectBool (key : String) : Setting → Except OptionsError Bool
  | .bool b => .ok b
  | v => .error (.wrongKind key "bool" v.kindName)

def expectInt (key : String) : Setting → Except OptionsError Int
  | .int n => .ok n
  | v => .error (.wrongKind key "int" v.kindName)

def set (o : Options) (key : String) (value : Setting) : Except OptionsError Options :=
  if key = "workers" then
    (expectInt key value).map fun n => { o with workers := n }
  else if key = "check_mutability" then
    (expectBool key value).map fun b => { o with checkMutability := b }
  else if key = "report_moves_while_borrowed" then
    (expectBool key value).map fun b => { o with reportMovesWhileBorrowed := b }
  else if key = "report_writes_while_borrowed" then
    (expectBool key value).map fun b => { o with reportWritesWhileBorrowed := b }
  else if key = "dangling_requires_later_use" then
    (expectBool key value).map fun b => { o with danglingRequiresLaterUse := b }
  else if key = "check_exhaustiveness" then
    (expectBool key value).map fun b => { o with checkExhaustiveness := b }
  else .error (.unknownKey key)

def setAll (o : Options) : List (String × Setting) → Except OptionsError Options
  | [] => .ok o
  | (key, value) :: rest => do
    let o ← o.set key value
    o.setAll rest

def ofSettings (settings : List (String × Setting)) : Except OptionsError Options := do
  let given := settings.foldl (fun r s => r.insert s.1 s.2) Registry.empty
  let o ← setAll {} given.entries
  if o.workers < 1 then throw (.tooFewWorkers o.workers)
  return o

end Options

end Ownership
