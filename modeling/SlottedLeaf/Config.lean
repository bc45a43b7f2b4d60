import SlottedLeaf.Directory
import SlottedLeaf.Index
import SlottedLeaf.Text.Utf8
import SlottedLeaf.Toml.Document

/-!
# Configuration

A configuration is a TOML document of three sections: `store` with `page_size`, `index` with
`unique` and `check_invariants`, and `log` with `filter`. Every key may be left out, and no other is
allowed.
-/

namespace SlottedLeaf

/-- A configuration. What may stay unset has its default at the place of use. -/
structure Config where
  pageSize : Nat
  unique : Option Bool
  checkInvariants : Option Bool
  logFilter : Option String
deriving DecidableEq, Repr

namespace Config

def default : Config := ⟨defaultPageSize, none, none, none⟩

def defaultLogFilter : String := "sombra_btree_leaf=info"

def options (config : Config) : Options where
  unique := config.unique.getD Options.default.unique
  checkInvariants := config.checkInvariants.getD Options.default.checkInvariants

def effectiveLogFilter (config : Config) : String := config.logFilter.getD defaultLogFilter

def natOf? : Toml.Value → Option Nat
  | .integer value => if 0 ≤ value then some value.toNat else none
  | _ => none

def boolOf? : Toml.Value → Option Bool
  | .boolean value => some value
  | _ => none

def textOf? : Toml.Value → Option String
  | .string text => some text
  | _ => none

/-- The entries of a section. An array gives the values of all keys in order; what is left over in
it does not count. -/
def entriesOf? (keys : List String) : Toml.Value → Option Toml.Table
  | .table _ entries =>
    if entries.all fun entry => keys.contains entry.1 then some entries else none
  | .array items => if items.length < keys.length then none else some (keys.zip items)
  | _ => none

def withStore (config : Config) : Toml.Value → Option Config
  | .array [] => some config
  | body => do
    match (← entriesOf? ["page_size"] body).lookup "page_size" with
    | none => return config
    | some value => return { config with pageSize := ← natOf? value }

def withIndex (config : Config) (body : Toml.Value) : Option Config := do
  let entries ← entriesOf? ["unique", "check_invariants"] body
  return { config with
    unique := ← (entries.lookup "unique").mapM boolOf?
    checkInvariants := ← (entries.lookup "check_invariants").mapM boolOf? }

def withLog (config : Config) (body : Toml.Value) : Option Config := do
  let entries ← entriesOf? ["filter"] body
  return { config with logFilter := ← (entries.lookup "filter").mapM textOf? }

def withSection (config : Config) : String × Toml.Value → Option Config
  | ("store", value) => config.withStore value
  | ("index", value) => config.withIndex value
  | ("log", value) => config.withLog value
  | _ => none

def ofTable? (table : Toml.Table) : Option Config := table.foldlM withSection default

def check (config : Config) : Except Fault Unit := checkPageSize config.pageSize

/-- Reads a configuration; `file` is where it comes from. -/
def parse (file : Option String) (text : String) : Except Fault Config := do
  match (Toml.read? text).bind ofTable? with
  | none => throw (.config file)
  | some config =>
    config.check
    return config

/-- The configuration in what a path leads to; nothing there means the default. -/
def load (path : String) : Entry → Except Fault Config
  | .missing => .ok default
  | .folder => .error (.unreadable .isDirectory)
  | .pastFile => .error (.unreadable .notADirectory)
  | .overlong => .error (.unreadable .nameTooLong)
  | .file content =>
    match Utf8.decode? content with
    | none => .error (.unreadable .notUtf8)
    | some text => parse (some path) text

def line (key value : String) : String := key ++ " = " ++ value ++ "\n"

def boolText (value : Bool) : String := if value then "true" else "false"

/-- Writes a configuration, unset keys left out. A whole number of a document is below 2 ^ 63. -/
def toToml (config : Config) : Except Fault String :=
  if UInt64.size / 2 ≤ config.pageSize then .error (.config none)
  else
    let quote (text : String) : String := String.ofList (Toml.Quoted.write text.toList)
    .ok ("[store]\n" ++ line "page_size" (toString config.pageSize) ++
      "\n[index]\n" ++ (config.unique.elim "" fun value => line "unique" (boolText value)) ++
      (config.checkInvariants.elim "" fun value => line "check_invariants" (boolText value)) ++
      "\n[log]\n" ++ (config.logFilter.elim "" fun text => line "filter" (quote text)))

end Config

end SlottedLeaf
