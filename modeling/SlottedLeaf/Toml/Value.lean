/-!
# TOML values and tables

A TOML document is a table. Tables come about in four ways, and that decides who may add to them: a
header opens a table once, a longer header implies tables that a header may still open, dotted keys
make tables that only dotted keys extend, and an inline table is closed.
-/

namespace SlottedLeaf.Toml

/-- How a table came about. -/
inductive Origin where
  /-- A header opened it. -/
  | header
  /-- A longer header implied it. -/
  | implied
  /-- A dotted key made it. -/
  | dotted
  /-- It was written between braces. -/
  | inline
deriving DecidableEq, Repr

/-- A TOML value. Numbers with a fraction or an exponent, and dates and times, are kept as
written. -/
inductive Value where
  | string (text : String)
  | integer (value : Int)
  | boolean (value : Bool)
  | float (text : String)
  | moment (text : String)
  | array (items : List Value)
  | table (origin : Origin) (entries : List (String × Value))
  /-- Tables that headers in double brackets opened, in order. -/
  | tables (items : List (List (String × Value)))

/-- A table: keys with their values, no key twice. -/
abbrev Table := List (String × Value)

/-- A dotted key: its first part and the parts after it. -/
structure Path where
  head : String
  tail : List String
deriving DecidableEq, Repr

namespace Table

/-- The table with a value under a key, in the place of any other. -/
def put (table : Table) (key : String) (value : Value) : Table :=
  if (table.lookup key).isSome then
    table.map fun entry => if entry.1 = key then (key, value) else entry
  else table ++ [(key, value)]

/-- The table with a value under a dotted key. Every part but the last names a table that dotted
keys made, and the last is new. -/
def assign (value : Value) : String → List String → Table → Option Table
  | key, [], table =>
    match table.lookup key with
    | none => some (table ++ [(key, value)])
    | some _ => none
  | key, next :: rest, table =>
    match table.lookup key with
    | none => do
      return table.put key (.table .dotted (← assign value next rest []))
    | some (.table .dotted inner) => do
      return table.put key (.table .dotted (← assign value next rest inner))
    | some _ => none

/-- The table with the entry that a header's key names changed by `change`. The parts before the
last name tables, implied where they are missing; of tables in double brackets, the latest. -/
def alter (change : Option Value → Option Value) : String → List String → Table → Option Table
  | key, [], table => do
    return table.put key (← change (table.lookup key))
  | key, next :: rest, table =>
    match table.lookup key with
    | none => do
      return table.put key (.table .implied (← alter change next rest []))
    | some (.table .inline _) => none
    | some (.table origin inner) => do
      return table.put key (.table origin (← alter change next rest inner))
    | some (.tables items) => do
      let latest ← items.getLast?
      return table.put key (.tables (items.dropLast ++ [← alter change next rest latest]))
    | some _ => none

def openTable (path : Path) (table : Table) : Option Table :=
  alter (fun
    | none => some (.table .header [])
    | some (.table .implied inner) => some (.table .header inner)
    | some _ => none) path.head path.tail table

/-- Opens a further table of those that a header in double brackets names. -/
def openItem (path : Path) (table : Table) : Option Table :=
  alter (fun
    | none => some (.tables [[]])
    | some (.tables items) => some (.tables (items ++ [[]]))
    | some _ => none) path.head path.tail table

/-- Assigns a value under a dotted key of the table that the latest header opened. -/
def assignWithin (header : Option Path) (path : Path) (value : Value) (table : Table) :
    Option Table :=
  match header with
  | none => assign value path.head path.tail table
  | some header =>
    alter (fun
      | some (.table origin inner) => do
        return .table origin (← assign value path.head path.tail inner)
      | some (.tables items) => do
        let latest ← items.getLast?
        return .tables (items.dropLast ++ [← assign value path.head path.tail latest])
      | _ => none) header.head header.tail table

end Table

end SlottedLeaf.Toml
