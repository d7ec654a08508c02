import Ownership.Sketch.Token

/-!
# Reading tokens

`lexeme` says what stands at the head of a text and how many characters it takes; `scan` repeats
this to the end of the text or to the first character that begins nothing.
-/

namespace Ownership.Sketch

def isBlank (c : Char) : Bool :=
  c = ' ' || c = '\t' || c = '\x0c' || c = '\r' || c = '\n'

def isNameStart (c : Char) : Bool := c.isAlpha || c = '_'

def isNamePart (c : Char) : Bool := c.isAlphanum || c = '_'

/-- The number of characters up to the quote that closes a text. A quote closes a text when the
number of backslashes right before it is even (`escaped` says that it is odd so far), and a text
does not go beyond its line. -/
def textLength? (escaped : Bool) : List Char → Option Nat
  | [] => none
  | c :: rest =>
    if c = '\n' then none
    else if c = '"' && !escaped then some 0
    else (textLength? (c = '\\' && !escaped) rest).map (· + 1)

/-- What the text `c :: rest` starts with, and how many characters of `rest` belong to it. Blanks
and comments are no tokens. -/
def lexeme (c : Char) (rest : List Char) : Option (Option TokenKind × Nat) :=
  if isBlank c then some (none, 0)
  else if isNameStart c then
    let more := rest.takeWhile isNamePart
    some (some (.ofWord (String.ofList (c :: more))), more.length)
  else if c.isDigit then
    let more := rest.takeWhile Char.isDigit
    some (some (.numeral (c :: more)), more.length)
  else if c = '"' then
    (textLength? false rest).map fun n => (some (.text (String.ofList (rest.take n))), n + 1)
  else if c = '/' && rest.head? = some '/' then
    some (none, (rest.takeWhile (· ≠ '\n')).length)
  else (Symbol.starting? (c :: rest)).map fun s => (some (.symbol s), s.spelling.length - 1)

/-- The tokens of a text, and the character that begins no token, if there is one. -/
structure Scan where
  tokens : List Token := []
  stray : Option Spot := none
deriving DecidableEq, Inhabited

def Scan.push (s : Scan) (t : Token) : Scan := { s with tokens := t :: s.tokens }

def scanFrom (spot : Spot) : List Char → Scan
  | [] => {}
  | c :: rest =>
    match lexeme c rest with
    | none => { stray := some spot }
    | some (kind, n) =>
      let stop := spot.after (c :: rest.take n)
      let later := scanFrom stop (rest.drop n)
      match kind with
      | none => later
      | some kind => later.push { kind, start := spot, stop }
termination_by text => text.length
decreasing_by simp only [List.length_drop, List.length_cons]; omega

def scan (text : List Char) : Scan := scanFrom {} text

end Ownership.Sketch
