import Ownership.Sketch.Build
import Ownership.Sketch.Grammar
import Ownership.Report

/-!
# Analysing sketches

A sketch is read as a program, and one of its functions is analysed.
-/

namespace Ownership

namespace Sketch

/-- The program that a text describes. The file goes into all spans. -/
def parse (text : String) (file : Option String) : Except Error Program :=
  match items file text.toList with
  | .error spot => .error (.unexpected { file, line := some spot.line, column := some spot.column })
  | .ok items => build items

/-- Why a sketch has no report. -/
inductive Trouble where
  | unreadable (error : Error)
  | noFunctions
  | noFunction (name : String)
  | failed (failure : Failure)

def choose (p : Program) (name : Option String) : Except Trouble Function :=
  match p.functions.getLast? with
  | none => .error .noFunctions
  | some last =>
    match name with
    | none => .ok last
    | some name =>
      match p.function? name with
      | none => .error (.noFunction name)
      | some f => .ok f

/-- Reads a sketch and analyses the function of a name, by default the last one. -/
def analyze (text : String) (name : Option String) (options : Options) : Except Trouble Report := do
  let p ← (parse text none).mapError .unreadable
  let f ← choose p name
  (p.analyzeFunction f options).mapError .failed

def Trouble.message : Trouble → String
  | unreadable error => error.message
  | noFunctions => "sketch declares no functions"
  | noFunction name => "sketch has no function '" ++ name ++ "'"
  | failed failure => failure.fault.message

end Sketch

end Ownership
