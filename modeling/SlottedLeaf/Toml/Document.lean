import SlottedLeaf.Toml.Number
import SlottedLeaf.Toml.Quoted

/-!
# TOML documents

A document is a sequence of lines: table headers, assignments, and lines with neither. Each reader
takes text and gives what it read with the text after it. A repetition has a budget of one round for
each character of its text. Every round takes a character, so the budget never runs out; and values
nest less than `nestingLimit` deep, so reading ends.
-/

namespace SlottedLeaf.Toml

open Quoted (isBlank isPlain)

/-- A way to read something from the start of a text, with the text after it. -/
abbrev Reader (α : Type) := List Char → Option (α × List Char)

namespace Reader

/-- Reads one item or more with a separator between them. -/
def separatedBy {α : Type} (separator : Char) (reader : Reader α) :
    (budget : List Char) → Reader (List α)
  | [], _ => none
  | _ :: budget, text => do
    match ← reader text with
    | (item, []) => return ([item], [])
    | (item, c :: rest) =>
      if c = separator then
        let (items, rest) ← separatedBy separator reader budget rest
        return (item :: items, rest)
      else return ([item], c :: rest)

def untilEnd {α : Type} (reader : Reader α) : (budget text : List Char) → Option (List α)
  | _, [] => some []
  | [], _ => none
  | _ :: budget, text => do
    let (item, rest) ← reader text
    return item :: (← untilEnd reader budget rest)

end Reader

/-- Values nest less deep than this, and keys have fewer parts. -/
def nestingLimit : Nat := 80

def isBare (c : Char) : Bool := c.isAlphanum || c = '_' || c = '-'

def isWord (c : Char) : Bool := isBare c || c = '+' || c = '.' || c = ':'

theorem length_dropWhile_lt_of_dropSpace {text comment : List Char}
    (dropped : Quoted.dropSpace text = '#' :: comment) :
    (comment.dropWhile isPlain).length < text.length := by
  have kept := Quoted.length_dropSpace_le text
  have := (comment.dropWhile_sublist isPlain).length_le
  rw [dropped, List.length_cons] at kept
  omega

def dropFiller (text : List Char) : List Char :=
  match dropped : Quoted.dropSpace text with
  | '#' :: comment =>
    have := length_dropWhile_lt_of_dropSpace dropped
    dropFiller (comment.dropWhile isPlain)
  | rest => rest
termination_by text.length

/-- The text after the end of a line: blanks, a comment and a line break, or nothing more. -/
def lineEnd? (text : List Char) : Option (List Char) :=
  let rest := match text.dropWhile isBlank with
    | '#' :: comment => comment.dropWhile isPlain
    | rest => rest
  match rest with
  | [] => some []
  | '\n' :: rest | '\r' :: '\n' :: rest => some rest
  | _ => none

def readPart : Reader String := fun text =>
  let text := text.dropWhile isBlank
  let part :=
    if text.head? = some '"' ∨ text.head? = some '\'' then Quoted.readLine text
    else if (text.takeWhile isBare).isEmpty then none
    else some (text.takeWhile isBare, text.dropWhile isBare)
  part.map fun (part, rest) => (String.ofList part, rest.dropWhile isBlank)

def readPath : Reader Path := fun text => do
  match ← Reader.separatedBy '.' readPart text text with
  | (head :: tail, rest) =>
    if tail.length + 1 < nestingLimit then some (⟨head, tail⟩, rest) else none
  | ([], _) => none

/-- Reads a value without quotes. One blank may part a date from a time of day. -/
def readWord : Reader Value := fun text => do
  let word := text.takeWhile isWord
  let rest := text.dropWhile isWord
  let later := rest.drop 1
  let (word, rest) :=
    if Number.isDate word ∧ rest.head? = some ' ' ∧ later.head?.any Char.isDigit then
      (word ++ ' ' :: later.takeWhile isWord, later.dropWhile isWord)
    else (word, rest)
  return (← Number.valueOf? word, rest)

def readScalar : Reader Value := fun text =>
  if text.head? = some '"' ∨ text.head? = some '\'' then
    (Quoted.read text).map fun (text, rest) => (.string (String.ofList text), rest)
  else readWord text

/-- Reads a key, an equals sign and what a reader takes for the value, with blanks around each. -/
def readEntry (reader : Reader Value) : Reader (Path × Value) := fun text => do
  match ← readPath text with
  | (path, '=' :: rest) =>
    let (value, rest) ← reader (rest.dropWhile isBlank)
    return ((path, value), rest.dropWhile isBlank)
  | _ => none

/-- Reads the entries of an inline table and the brace that closes it. -/
def readInline (reader : Reader Value) : Reader Value := fun text =>
  match text.dropWhile isBlank with
  | '\x7d' :: rest => some (.table .inline [], rest)
  | text => do
    match ← Reader.separatedBy ',' (readEntry reader) text text with
    | (entries, '\x7d' :: rest) =>
      let table ← entries.foldlM (fun table (path, value) =>
        Table.assign value path.head path.tail table) []
      return (.table .inline table, rest)
    | _ => none

/-- Reads the items of an array and the bracket that closes it. Blanks, line breaks and comments may
stand around each item, and a comma after the last. -/
def readItems (reader : Reader Value) : (budget : List Char) → Reader (List Value)
  | [], _ => none
  | _ :: budget, text => do
    match dropFiller text with
    | ']' :: rest => return ([], rest)
    | text =>
      let (value, rest) ← reader text
      match dropFiller rest with
      | ',' :: rest =>
        let (values, rest) ← readItems reader budget rest
        return (value :: values, rest)
      | ']' :: rest => return ([value], rest)
      | _ => none

/-- Reads a value in which others nest at most `depth` deep. -/
def readValue : (depth : Nat) → Reader Value
  | 0 => readScalar
  | depth + 1 => fun
    | '[' :: rest =>
      (readItems (readValue depth) rest rest).map fun (items, rest) => (.array items, rest)
    | '\x7b' :: rest => readInline (readValue depth) rest
    | text => readScalar text

/-- One line of a document; a value may go on over further lines. -/
inductive Line where
  | blank
  | header (path : Path)
  | item (path : Path)
  | entry (path : Path) (value : Value)

def readLine : Reader Line := fun text => do
  let text := text.dropWhile isBlank
  let (line, rest) ← match text with
    | '[' :: '[' :: rest =>
      match ← readPath rest with
      | (path, ']' :: ']' :: rest) => some (Line.item path, rest)
      | _ => none
    | '[' :: rest =>
      match ← readPath rest with
      | (path, ']' :: rest) => some (Line.header path, rest)
      | _ => none
    | [] | '\n' :: _ | '\r' :: _ | '#' :: _ => some (Line.blank, text)
    | text => do
      let ((path, value), rest) ← readEntry (readValue (nestingLimit - 1)) text
      some (Line.entry path value, rest)
  return (line, ← lineEnd? rest)

/-- A document read so far: its table, and the header that assignments belong to. -/
structure Draft where
  table : Table
  header : Option Path

def Draft.add (draft : Draft) : Line → Option Draft
  | .blank => some draft
  | .header path => do return ⟨← draft.table.openTable path, some path⟩
  | .item path => do return ⟨← draft.table.openItem path, some path⟩
  | .entry path value => do
    return { draft with table := ← draft.table.assignWithin draft.header path value }

/-- The table that a document spells. A byte order mark may come first. -/
def read? (text : String) : Option Table := do
  let text := match text.toList with
    | '\ufeff' :: rest => rest
    | text => text
  let lines ← Reader.untilEnd readLine text text
  let draft ← lines.foldlM Draft.add ⟨[], none⟩
  return draft.table

end SlottedLeaf.Toml
