import Ownership.Sketch.Lexer
import Ownership.Span

/-!
# Reading from tokens

A reader takes tokens from a cursor. It looks one token ahead and never goes back, so it fails at
the first token with which no sketch goes on.
-/

namespace Ownership.Sketch

/-- A place between two tokens: the tokens to come and the one before. -/
structure Cursor where
  file : Option String := none
  rest : List Token
  last : Option Token := none

/-- Readers of some part of a sketch. A failure is the cursor where no reading goes on. -/
abbrev Reader (α : Type) := StateT Cursor (Except Cursor) α

namespace Reader

def fail {α : Type} : Reader α := fun c => .error c

def peek? : Reader (Option TokenKind) := fun c => .ok (c.rest.head?.map (·.kind), c)

def skip : Reader Unit := fun c =>
  match c.rest with
  | [] => .error c
  | t :: rest => .ok ((), { c with rest, last := some t })

/-- Takes the next token if it is the given one, and says whether it was. -/
def accept (kind : TokenKind) : Reader Bool := do
  if (← peek?) = some kind then
    skip
    return true
  else return false

def expect (kind : TokenKind) : Reader Unit := do
  if (← accept kind) then return () else fail

def keyword (k : Keyword) : Reader Unit := expect (.keyword k)

def symbol (s : Symbol) : Reader Unit := expect (.symbol s)

/-- Takes a keyword if it comes next, and says whether it did. -/
def hasKeyword (k : Keyword) : Reader Bool := accept (.keyword k)

/-- Takes a symbol if it comes next, and says whether it did. -/
def hasSymbol (s : Symbol) : Reader Bool := accept (.symbol s)

def name : Reader String := do
  match ← peek? with
  | some (.name word) =>
    skip
    return word
  | _ => fail

/-! ### Spans -/

def here : Reader Spot := fun c => .ok ((c.rest.head?.map (·.start)).getD {}, c)

/-- The span from a position to the end of the token before the cursor. -/
def spanFrom (start : Spot) : Reader Span := fun c =>
  let stop := (c.last.map (·.stop)).getD start
  .ok ({ file := c.file, line := some start.line, column := some start.column
         endLine := some stop.line, endColumn := some stop.column }, c)

/-! ### Repetition -/

def remaining : Reader Nat := fun c => .ok (c.rest.length, c)

def manyUntilUpTo {α : Type} (close : Symbol) (part : Reader α) : Nat → Reader (List α)
  | 0 => fail
  | n + 1 => do
    if (← hasSymbol close) then return []
    else
      let a ← part
      return a :: (← manyUntilUpTo close part n)

def manyUntil {α : Type} (close : Symbol) (part : Reader α) : Reader (List α) := do
  manyUntilUpTo close part (← remaining)

/-- Reads parts with a separator between them, at least one and at most `n + 1`. -/
def separatedUpTo {α : Type} (separator : Symbol) (part : Reader α) : Nat → Reader (List α)
  | 0 => return [← part]
  | n + 1 => do
    let a ← part
    if (← hasSymbol separator) then return a :: (← separatedUpTo separator part n)
    else return [a]

/-- Reads parts with a separator between them, at least one. -/
def separated {α : Type} (separator : Symbol) (part : Reader α) : Reader (List α) := do
  separatedUpTo separator part (← remaining)

/-- Reads parts with commas between them up to a closing symbol, possibly none. -/
def listed {α : Type} (close : Symbol) (part : Reader α) : Reader (List α) := do
  if (← hasSymbol close) then return []
  else
    let parts ← separated .comma part
    symbol close
    return parts

/-- Reads parts with commas between them up to a closing symbol, which may follow a comma; at most
`n`. -/
def listedLooselyUpTo {α : Type} (close : Symbol) (part : Reader α) : Nat → Reader (List α)
  | 0 => fail
  | n + 1 => do
    if (← hasSymbol close) then return []
    else
      let a ← part
      if (← hasSymbol .comma) then return a :: (← listedLooselyUpTo close part n)
      else
        symbol close
        return [a]

/-- Reads parts with commas between them up to a closing symbol, which may follow a comma. -/
def listedLoosely {α : Type} (close : Symbol) (part : Reader α) : Reader (List α) := do
  listedLooselyUpTo close part (← remaining)

def allUpTo {α : Type} (part : Reader α) : Nat → Reader (List α)
  | 0 => return []
  | n + 1 => do
    match ← peek? with
    | none => return []
    | some _ =>
      let a ← part
      return a :: (← allUpTo part n)

def all {α : Type} (part : Reader α) : Reader (List α) := do
  allUpTo part (← remaining)

end Reader

end Ownership.Sketch
