import Ownership.Toml.Table

/-!
# Keys and values of settings files

Keys are bare words or quoted texts, joined by dots. Values are truth values, numbers, texts on one
line, lists and tables in braces. Of a floating point number only its kind is kept.
-/

namespace Ownership.Toml

/-- What is wrong with a settings file. -/
inductive Flaw where
  /-- The text does not follow the format, or it says something twice. -/
  | malformed
  /-- A number has too many digits. -/
  | tooLong (numeral : Numeral.TooLong)
deriving DecidableEq, Inhabited

/-- Readers of some part of a settings file. -/
abbrev Reader (α : Type) := StateT (List Char) (Except Flaw) α

namespace Reader

def fail {α : Type} : Reader α := fun _ => .error .malformed

def ofOption {α : Type} : Option α → Reader α
  | some a => pure a
  | none => fail

def peek? : Reader (Option Char) := fun cs => .ok (cs.head?, cs)

/-- Takes the given character if it comes next, and says whether it did. -/
def has (c : Char) : Reader Bool := fun cs =>
  match cs with
  | [] => .ok (false, [])
  | d :: rest => if d = c then .ok (true, rest) else .ok (false, d :: rest)

def char (c : Char) : Reader Unit := do
  if (← has c) then return () else fail

def word (text : List Char) : Reader Unit := fun cs =>
  if text.isPrefixOf cs then .ok ((), cs.drop text.length) else .error .malformed

def many (p : Char → Bool) : Reader (List Char) := fun cs => .ok (cs.takeWhile p, cs.dropWhile p)

def remaining : Reader Nat := fun cs => .ok (cs.length, cs)

def blanks : Reader Unit := do
  let _ ← many fun c => c = ' ' || c = '\t'

end Reader

open Reader

def isControl (c : Char) : Bool := (c.toNat < 32 && c ≠ '\t') || c.toNat = 127

def comment : Reader Unit := do
  if (← has '#') then
    let text ← many (· ≠ '\n')
    if text.any isControl then fail

/-! ### Texts -/

def coded? (digits : List Char) : Option Char := do
  let _ ← digits.mapM Numeral.digit?
  let code := Numeral.value 16 digits
  if code.isValidChar then some (.ofNat code) else none

/-- The character that a letter after a backslash stands for. -/
def escape? (c : Char) : Option Char :=
  if c = 'b' then some '\x08'
  else if c = 't' then some '\t'
  else if c = 'n' then some '\n'
  else if c = 'f' then some '\x0c'
  else if c = 'r' then some '\r'
  else if c = '\x22' || c = '\\' then some c
  else none

/-- The rest of a text in double quotes, and what follows it. -/
def unquote? : List Char → Option (List Char × List Char)
  | [] => none
  | '\\' :: 'u' :: a :: b :: c :: d :: rest => do
    let code ← coded? [a, b, c, d]
    let (text, rest) ← unquote? rest
    return (code :: text, rest)
  | '\\' :: 'U' :: a :: b :: c :: d :: e :: f :: g :: h :: rest => do
    let code ← coded? [a, b, c, d, e, f, g, h]
    let (text, rest) ← unquote? rest
    return (code :: text, rest)
  | '\\' :: letter :: rest => do
    let c ← escape? letter
    let (text, rest) ← unquote? rest
    return (c :: text, rest)
  | c :: rest =>
    if c = '\x22' then some ([], rest)
    else if c = '\\' || isControl c then none
    else do
      let (text, rest) ← unquote? rest
      return (c :: text, rest)

def quoted : Reader (List Char) := fun cs =>
  match unquote? cs with
  | some (text, rest) => .ok (text, rest)
  | none => .error .malformed

/-- The rest of a text in single quotes, which has no escapes. -/
def verbatim : Reader (List Char) := do
  let text ← many (· ≠ '\x27')
  if text.any isControl then fail
  char '\x27'
  return text

/-! ### Keys -/

def isBare (c : Char) : Bool := c.isAlphanum || c = '-' || c = '_'

def keyPart : Reader String := do
  if (← has '\x22') then return .ofList (← quoted)
  else if (← has '\x27') then return .ofList (← verbatim)
  else
    let bare ← many isBare
    if bare.isEmpty then fail
    return .ofList bare

/-- The parts of a key with dots between them, at most `n + 1`. -/
def keyUpTo : Nat → Reader Path
  | 0 => return [← keyPart]
  | n + 1 => do
    let part ← keyPart
    blanks
    if (← has '.') then
      blanks
      return part :: (← keyUpTo n)
    else return [part]

def key : Reader Path := do
  keyUpTo (← remaining)

/-! ### Numbers -/

/-- Digits that follow a first one, each possibly after one underscore. -/
def moreDigits (p : Char → Bool) : List Char → List Char × List Char
  | [] => ([], [])
  | [c] => if p c then ([c], []) else ([], [c])
  | c :: d :: rest =>
    if p c then
      let (digits, rest) := moreDigits p (d :: rest)
      (c :: digits, rest)
    else if c = '_' && p d then
      let (digits, rest) := moreDigits p rest
      (d :: digits, rest)
    else ([], c :: d :: rest)

def digits (p : Char → Bool) : Reader (List Char) := fun cs =>
  match cs with
  | [] => .error .malformed
  | c :: rest =>
    if p c then
      let (digits, rest) := moreDigits p rest
      .ok (c :: digits, rest)
    else .error .malformed

/-- A value without parts, as it is written. -/
inductive Scalar where
  | settled (value : Setting)
  /-- A whole number in base ten. -/
  | decimal (negative : Bool) (digits : List Char)

/-- The value that is written. -/
def Scalar.setting : Scalar → Except Flaw Setting
  | settled value => .ok value
  | decimal negative digits => do
    let value ← (Numeral.decimal digits).mapError .tooLong
    return .int (if negative then -(value : Int) else value)

def basedNumber : Reader Scalar := do
  char '0'
  if (← has 'x') then
    return .settled (.int (Numeral.value 16 (← digits fun c => (Numeral.digit? c).isSome)))
  else if (← has 'o') then
    return .settled (.int (Numeral.value 8 (← digits fun c => '0' ≤ c && c ≤ '7')))
  else
    char 'b'
    return .settled (.int (Numeral.value 2 (← digits fun c => c = '0' || c = '1')))

def fraction : Reader Bool := do
  char '.'
  let _ ← digits Char.isDigit
  return true

def exponent : Reader Bool := do
  if (← has 'e') then pure () else char 'E'
  if (← has '+') then pure ()
  else
    let _ ← has '-'
  let _ ← digits Char.isDigit
  return true

def sign : Reader Bool := do
  if (← has '+') then return false else has '-'

/-- A number in base ten. A whole part other than zero does not start with zero. -/
def decimalNumber : Reader Scalar := do
  let negative ← sign
  let whole ← if (← has '0') then pure ['0'] else digits Char.isDigit
  let hasFraction ← fraction <|> pure false
  let hasExponent ← exponent <|> pure false
  if hasFraction || hasExponent then return .settled .float else return .decimal negative whole

def specialNumber : Reader Scalar := do
  let _ ← sign
  word ['i', 'n', 'f'] <|> word ['n', 'a', 'n']
  return .settled .float

def truth : Reader Scalar := do
  if (← peek?) = some 't' then
    word ['t', 'r', 'u', 'e']
    return .settled (.bool true)
  else
    word ['f', 'a', 'l', 's', 'e']
    return .settled (.bool false)

def scalar : Reader Scalar := truth <|> basedNumber <|> decimalNumber <|> specialNumber

/-! ### Values -/

/-- Skips blanks, line ends and comments, at most `n` lines. -/
def gapUpTo : Nat → Reader Unit
  | 0 => return ()
  | n + 1 => do
    let _ ← many fun c => c = ' ' || c = '\t' || c = '\n'
    if (← peek?) = some '#' then
      comment
      gapUpTo n

def gap : Reader Unit := do
  gapUpTo (← remaining)

def listUpTo (value : Reader Setting) : Nat → Reader (List Setting)
  | 0 => fail
  | n + 1 => do
    gap
    if (← has ']') then return []
    else
      let item ← value
      gap
      if (← has ',') then return item :: (← listUpTo value n)
      else
        char ']'
        return [item]

def pair (value : Reader Setting) : Reader (Path × Setting) := do
  let path ← key
  char '='
  blanks
  return (path, ← value)

def put? (path : Path) (value : Setting) (t : Entries) : Option Entries :=
  match path.getLast? with
  | none => none
  | some last => t.change? (·.add? last value) path.dropLast

/-- The rest of a table in braces, at most `n` keys; it stays on one line. -/
def tableUpTo (value : Reader Setting) : Nat → Marks → Entries → Reader Entries
  | 0, _, _ => fail
  | n + 1, marks, t => do
    blanks
    let (path, v) ← pair value
    if marks.isComplete path then fail
    let t ← ofOption (put? path v t)
    blanks
    if (← has ',') then tableUpTo value n (marks.settle path v) t
    else
      char '\x7d'
      return t

def braces (value : Reader Setting) : Reader Entries := do
  blanks
  if (← has '\x7d') then return []
  else tableUpTo value (← remaining) {} []

def value : Nat → Reader Setting
  | 0 => fail
  | n + 1 => do
    if (← has '\x22') then return .text (.ofList (← quoted))
    else if (← has '\x27') then return .text (.ofList (← verbatim))
    else if (← has '[') then return .list (← listUpTo (value n) (← remaining))
    else if (← has '\x7b') then return .table (← braces (value n))
    else
      let s ← scalar
      match s.setting with
      | .ok v => return v
      | .error flaw => throw flaw

end Ownership.Toml
