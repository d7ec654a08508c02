import Ownership.Options

/-!
# Tables under construction

A settings file fills one table. A path leads through nested tables, and through a list to its last
element. What has been written once is not written again: `Marks` remembers which tables have been
opened by name and which values are complete.
-/

namespace Ownership.Toml

/-- The keys and values of a table, in the order of their first appearance. -/
abbrev Entries := List (String × Setting)

abbrev Path := List String

namespace Entries

def find? (t : Entries) (key : String) : Option Setting := (List.find? (·.1 = key) t).map (·.2)

def replace (t : Entries) (key : String) (value : Setting) : Entries :=
  t.map fun e => if e.1 = key then (key, value) else e

def add? (t : Entries) (key : String) (value : Setting) : Option Entries :=
  if (t.find? key).isSome then none else some (t ++ [(key, value)])

/-- Adds an empty table to the list of a key, which starts as an empty list. -/
def addTable? (t : Entries) (key : String) : Option Entries :=
  match t.find? key with
  | none => some (t ++ [(key, .list [.table []])])
  | some (.list items) => some (t.replace key (.list (items ++ [.table []])))
  | some _ => none

/-- Changes the table at the end of a path; the tables on the way are added where they are missing.
There is no such table if something else is in the way. -/
def change? (f : Entries → Option Entries) : Path → Entries → Option Entries
  | [], t => f t
  | key :: path, t =>
    match t.find? key with
    | none => (change? f path []).map fun u => t ++ [(key, .table u)]
    | some (.table u) => (change? f path u).map fun u => t.replace key (.table u)
    | some (.list items) =>
      match items.getLast? with
      | some (.table u) =>
        (change? f path u).map fun u => t.replace key (.list (items.dropLast ++ [.table u]))
      | _ => none
    | some _ => none

end Entries

/-- Which paths are settled. -/
structure Marks where
  /-- Tables that have been opened by name. -/
  opened : List Path := []
  /-- Values that are complete, with all that lies below them. -/
  complete : List Path := []
  /-- Tables on the way to a dotted key, which count as opened from the next header on. -/
  passed : List Path := []

namespace Marks

/-- Whether a table has been opened by name. -/
def isOpened (m : Marks) (path : Path) : Bool := path ∈ m.opened

def isComplete (m : Marks) (path : Path) : Bool := m.complete.any (·.isPrefixOf path)

def addOpened (m : Marks) (path : Path) : Marks := { m with opened := path :: m.opened }

/-- Takes note of a value; only tables and lists have anything below them. -/
def settle (m : Marks) (path : Path) : Setting → Marks
  | .table _ | .list _ => { m with complete := path :: m.complete }
  | _ => m

def forget (m : Marks) (path : Path) : Marks :=
  { m with
    opened := m.opened.filter (!path.isPrefixOf ·)
    complete := m.complete.filter (!path.isPrefixOf ·) }

def close (m : Marks) : Marks := { m with opened := m.passed ++ m.opened, passed := [] }

end Marks

end Ownership.Toml
