import Ownership.Toml.Value

/-!
# Settings files

A settings file is a list of lines: keys with their values, and headers that say which table the
following keys belong to. A header in double brackets starts another element of a list of tables.
-/

namespace Ownership.Toml

open Reader

/-- A settings file as far as it has been read. -/
structure Document where
  root : Entries := []
  header : Path := []
  marks : Marks := {}

namespace Document

def openTable? (d : Document) (path : Path) : Option Document :=
  let marks := d.marks.close
  if marks.isOpened path || marks.isComplete path then none
  else do
    let root ← d.root.change? some path
    return { root, header := path, marks := marks.addOpened path }

def openElement? (d : Document) (path : Path) : Option Document :=
  let marks := d.marks.close
  if marks.isComplete path then none
  else do
    let last ← path.getLast?
    let root ← d.root.change? (·.addTable? last) path.dropLast
    return { root, header := path, marks := (marks.forget path).addOpened path }

def way (header path : Path) : List Path :=
  (List.range path.length).tail.map fun i => header ++ path.take i

/-- A key below the current header. It does not lead into a table that was opened by name. -/
def put? (d : Document) (path : Path) (value : Setting) : Option Document :=
  let way := way d.header path
  if way.any d.marks.isOpened || d.marks.isComplete (d.header ++ path.dropLast) then none
  else do
    let root ← Toml.put? (d.header ++ path) value d.root
    let marks := { d.marks with passed := way ++ d.marks.passed }
    return { d with root, marks := marks.settle (d.header ++ path) value }

end Document

def header (d : Document) : Reader Document := do
  if (← has '[') then
    blanks
    let path ← key
    let d ← ofOption (d.openElement? path)
    word [']', ']']
    return d
  else
    blanks
    let path ← key
    let d ← ofOption (d.openTable? path)
    char ']'
    return d

def content (d : Document) : Reader Document := do
  match ← peek? with
  | none | some '\n' | some '#' => return d
  | some '[' =>
    char '['
    header d
  | some _ =>
    let (path, v) ← pair (value (← remaining))
    ofOption (d.put? path v)

def linesUpTo : Nat → Document → Reader Document
  | 0, d => return d
  | n + 1, d => do
    blanks
    let d ← content d
    blanks
    comment
    match ← peek? with
    | none => return d
    | some _ =>
      char '\n'
      linesUpTo n d

def unifyLineEnds : List Char → List Char
  | [] => []
  | '\r' :: '\n' :: rest => '\n' :: unifyLineEnds rest
  | c :: rest => c :: unifyLineEnds rest

def parse (text : String) : Except Flaw Entries :=
  let cs := unifyLineEnds text.toList
  (linesUpTo (cs.length + 1) {}).run cs |>.map fun (d, _) => d.root

end Ownership.Toml

namespace Ownership.Options

/-- The options of a settings file, in the table `tool.borrowck`. -/
def ofToml (text : String) : Except OptionsError Options :=
  match Toml.parse text with
  | .error .malformed => .error .badText
  | .error (.tooLong numeral) => .error (.tooLong numeral)
  | .ok root =>
    match root.find? "tool" with
    | none => .ok {}
    | some (.table tool) =>
      match Toml.Entries.find? tool "borrowck" with
      | none => .ok {}
      | some (.table settings) => ofSettings settings
      | some v => .error (.optionsNotATable v.kindName)
    | some v => .error (.toolsNotATable v.kindName)

end Ownership.Options
