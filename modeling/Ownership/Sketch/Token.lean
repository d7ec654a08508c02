/-!
# Tokens of sketches

A sketch is the text of a small program. Its tokens are words, numbers, quoted texts and symbols. A
word that is exactly a keyword is never a name.
-/

namespace Ownership.Sketch

/-- A position in a text: lines and columns count from one, columns in characters. -/
structure Spot where
  line : Nat := 1
  column : Nat := 1
deriving DecidableEq, Inhabited

namespace Spot

def next (s : Spot) (c : Char) : Spot :=
  if c = '\n' then { line := s.line + 1 } else { s with column := s.column + 1 }

def after (s : Spot) (text : List Char) : Spot := text.foldl next s

@[simp] theorem after_nil (s : Spot) : s.after [] = s := rfl

@[simp] theorem after_cons (s : Spot) (c : Char) (text : List Char) :
    s.after (c :: text) = (s.next c).after text := rfl

end Spot

/-- Words that are no names. -/
inductive Keyword where
  | variant | struct | outside | function | declare | ret | branch | otherwise | loop | select
  | yes | no | box | mutable | byRef | wildcard
deriving DecidableEq, Inhabited

namespace Keyword

def spelling : Keyword → String
  | variant => "type"
  | struct => "struct"
  | outside => "extern"
  | function => "fn"
  | declare => "let"
  | ret => "return"
  | branch => "if"
  | otherwise => "else"
  | loop => "while"
  | select => "match"
  | yes => "true"
  | no => "false"
  | box => "Box"
  | mutable => "mut"
  | byRef => "ref"
  | wildcard => "_"

def all : List Keyword :=
  [variant, struct, outside, function, declare, ret, branch, otherwise, loop, select, yes, no, box,
    mutable, byRef, wildcard]

def ofWord? (word : String) : Option Keyword := all.find? (·.spelling = word)

theorem ofWord?_spelling (k : Keyword) : ofWord? k.spelling = some k := by cases k <;> decide

end Keyword

/-- Punctuation and operators. -/
inductive Symbol where
  | bothAnd | eitherOr | equal | differs | atMost | atLeast | arrow | yields | path
  | ampersand | bar | assign | less | greater | openParen | closeParen | openBrace | closeBrace
  | comma | colon | semicolon | dot | plus | minus | star
deriving DecidableEq, Inhabited

namespace Symbol

def spelling : Symbol → List Char
  | bothAnd => ['&', '&']
  | eitherOr => ['|', '|']
  | equal => ['=', '=']
  | differs => ['!', '=']
  | atMost => ['<', '=']
  | atLeast => ['>', '=']
  | arrow => ['-', '>']
  | yields => ['=', '>']
  | path => [':', ':']
  | ampersand => ['&']
  | bar => ['|']
  | assign => ['=']
  | less => ['<']
  | greater => ['>']
  | openParen => ['(']
  | closeParen => [')']
  | openBrace => ['\x7b']
  | closeBrace => ['\x7d']
  | comma => [',']
  | colon => [':']
  | semicolon => [';']
  | dot => ['.']
  | plus => ['+']
  | minus => ['-']
  | star => ['*']

def all : List Symbol :=
  [bothAnd, eitherOr, equal, differs, atMost, atLeast, arrow, yields, path, ampersand, bar, assign,
    less, greater, openParen, closeParen, openBrace, closeBrace, comma, colon, semicolon, dot, plus,
    minus, star]

def starting? (text : List Char) : Option Symbol := all.find? (·.spelling.isPrefixOf text)

end Symbol

/-- What a token is. -/
inductive TokenKind where
  | name (word : String)
  | keyword (k : Keyword)
  /-- The digits of a number. -/
  | numeral (digits : List Char)
  /-- A quoted text, as it stands between the quotes. -/
  | text (value : String)
  | symbol (s : Symbol)
deriving DecidableEq, Inhabited

/-- The token that a word is. -/
def TokenKind.ofWord (word : String) : TokenKind :=
  match Keyword.ofWord? word with
  | some k => .keyword k
  | none => .name word

/-- A token, where it starts and where it has ended. -/
structure Token where
  kind : TokenKind
  start : Spot
  stop : Spot
deriving DecidableEq, Inhabited

end Ownership.Sketch
