import Ownership.Syntax.Stmt
import Ownership.Types.Copy

/-!
# Programs

A program has a type table, functions, and signatures of the functions that are defined elsewhere.
The signature of a function of the program follows from its parameter types: a parameter of
reference type borrows its argument, all others take it by value.
-/

namespace Ownership

/-- How a call passes one argument. -/
inductive PassMode where
  | byValue
  | shared
  | exclusive
deriving DecidableEq, Inhabited

/-- How a function takes its arguments, and the type of its result. -/
structure Signature where
  name : String
  modes : List PassMode := []
  returnType : Option TypeId := none
deriving DecidableEq, Inhabited

/-- The mode of an argument; arguments beyond the last parameter are passed like the last one. -/
def Signature.modeFor (sig : Signature) (index : Nat) : PassMode :=
  (sig.modes[index]?).getD (sig.modes.getLast?.getD .byValue)

/-- The mode at an index that may also count from the last parameter, which is then `-1`. Whoever
has no parameters takes all arguments by value, however they are counted. -/
def Signature.modeAt (sig : Signature) : Int → Except Fault PassMode
  | .ofNat n => .ok (sig.modeFor n)
  | .negSucc n =>
    match sig.modes.reverse[n]? with
    | some mode => .ok mode
    | none => if sig.modes = [] then .ok .byValue else .error (.noParameter (.negSucc n))

/-- A parameter of a function. -/
structure Param where
  name : String
  type : Option TypeId := none
  mutable : Bool := false
  loc : Span := .unknown
deriving DecidableEq, Inhabited

/-- A function with its body. -/
structure Function where
  name : String
  params : List Param := []
  body : Block := .mk [] .unknown
  returnType : Option TypeId := none
  loc : Span := .unknown
deriving Inhabited

/-- A whole program. -/
structure Program where
  types : TypeTable := .empty
  functions : List Function := []
  externs : Registry String Signature := .empty

instance : Inhabited Program := ⟨{}⟩

def TypeTable.modeOf (t : TypeTable) : Option TypeId → Except Fault PassMode
  | none => .ok .byValue
  | some id => do
    let d ← t.get id
    return if d.isRef then (if d.isMutRef then .exclusive else .shared) else .byValue

namespace Program

def function? (p : Program) (name : String) : Option Function :=
  p.functions.find? (·.name = name)

def signatureOf (p : Program) (f : Function) : Except Fault Signature := do
  let modes ← f.params.mapM fun param => p.types.modeOf param.type
  return { name := f.name, modes, returnType := f.returnType }

/-- The signature of a callee: a declared one, else the one of the function of that name. -/
def signature? (p : Program) (callee : String) : Except Fault (Option Signature) :=
  match p.externs.get? callee with
  | some sig => .ok (some sig)
  | none =>
    match p.function? callee with
    | none => .ok none
    | some f => (p.signatureOf f).map some

end Program

end Ownership
