import SlottedLeaf.Command.Argument
import SlottedLeaf.Ident

/-!
# Requests

The command line names an optional configuration and one command, `inspect`, with the page to show.
What the arguments leave open, the environment may give.
-/

namespace SlottedLeaf.Command

/-- How a report is printed. -/
inductive Format where
  | lines
  | json
deriving DecidableEq, Repr

/-- A request to show one page of a file. -/
structure Request where
  config : Option String
  file : String
  page : PageId
  pageSize : Option Nat
  format : Format
deriving DecidableEq, Repr

/-- The number that decimal digits spell, if there are only digits and at least one. -/
def ofDigits? (digits : List Char) : Option Nat :=
  if digits.isEmpty ∨ !digits.all Char.isDigit then none
  else some (digits.foldl (fun value digit => 10 * value + (digit.toNat - 48)) 0)

/-- A page id of 32 bits. A plus may come first, and a minus before zero. -/
def pageOf? (text : String) : Option PageId := do
  let value ← match text.toList with
    | '+' :: digits => ofDigits? digits
    | '-' :: digits => (ofDigits? digits).filter (· = 0)
    | digits => ofDigits? digits
  if value < UInt32.size then return ⟨UInt32.ofNat value⟩ else none

def sizeOf? (text : String) : Option Nat := do
  let value ← match text.toList with
    | '+' :: digits => ofDigits? digits
    | digits => ofDigits? digits
  if value < UInt64.size then return value else none

def Format.ofName? : String → Option Format
  | "text" => some .lines
  | "json" => some .json
  | _ => none

/-- A path, which is never empty. -/
def pathOf? (text : String) : Option String := if text = "" then none else some text

/-- A field set for the first time. -/
def once {α : Type} : Option α → Option α → Option (Option α)
  | none, some value => some (some value)
  | _, _ => none

/-- Options that every level takes. -/
structure Common where
  config : Option String
  log : Option String
deriving DecidableEq, Repr

def Common.none : Common := ⟨.none, .none⟩

/-- What the level of a command was given. -/
structure Draft where
  common : Common
  file : Option String
  page : Option PageId
  pageSize : Option Nat
  format : Option Format
deriving DecidableEq, Repr

def Draft.none : Draft := ⟨.none, .none, .none, .none, .none⟩

/-- Takes in an option of every level. The log filter may be any text. -/
def Common.set (name value : String) (common : Common) : Option Common := do
  match name with
  | "config" => return { common with config := ← once common.config (pathOf? value) }
  | "log" => return { common with log := ← once common.log (some value) }
  | _ => failure

def Draft.set (name value : String) (draft : Draft) : Option Draft := do
  match name with
  | "page" => return { draft with page := ← once draft.page (pageOf? value) }
  | "page-size" => return { draft with pageSize := ← once draft.pageSize (sizeOf? value) }
  | "format" => return { draft with format := ← once draft.format (Format.ofName? value) }
  | _ => return { draft with common := ← draft.common.set name value }

def outer : Level Common where
  options := ["config", "log"]
  setOption := Common.set
  setWord _ _ := none
  tellsVersion := true
  next := some "inspect"

def inner : Level Draft where
  options := ["page", "page-size", "format", "config", "log"]
  setOption := Draft.set
  setWord word draft := do return { draft with file := ← once draft.file (pathOf? word) }
  tellsVersion := false
  next := none

/-- The variable that names the configuration where the arguments do not. -/
def configVariable : String := "SOMBRA_CONFIG"

/-- The configuration in force: that of the command, else that before it, else that of the
environment. A level without one looks at the environment, and an empty variable does not fit. -/
def configOf (outer inner : Common) (fallback : Option String) : Except Stop (Option String) :=
  if fallback = some "" ∧ (outer.config.isNone ∨ inner.config.isNone) then .error .misuse
  else .ok ((inner.config <|> outer.config) <|> fallback)

def Request.ofArguments (environment : String → Option String) (arguments : List String) :
    Except Stop Request := do
  match ← outer.read .none arguments with
  | (_, none) => throw .misuse
  | (common, some rest) =>
    let (draft, _) ← inner.read .none rest
    let config ← configOf common draft.common (environment configVariable)
    match draft.file, draft.page with
    | some file, some page =>
      return ⟨config, file, page, draft.pageSize, draft.format.getD .lines⟩
    | _, _ => throw .misuse

def Request.paths (request : Request) : List String := request.config.toList ++ [request.file]

end SlottedLeaf.Command
