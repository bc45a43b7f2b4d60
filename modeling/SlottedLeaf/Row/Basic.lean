import SlottedLeaf.Ident
import SlottedLeaf.Text.Utf8

/-!
# Index rows

An index row is a key, which may be NULL, and the position of a table row. Rows are ordered by key
first: NULL is below every key, and keys are ordered byte by byte, a key below its extensions.
Rows of one key are ordered by position.
-/

namespace SlottedLeaf

/-- An index row; the key `none` is NULL, which differs from the empty key. -/
structure Row where
  key : Option Bytes
  pos : RowPos
deriving DecidableEq, Repr

namespace Row

def compareKeys (a b : Row) : Ordering := compare a.key b.key

def comparePositions (a b : Row) : Ordering := compare a.pos.value b.pos.value

/-- The order of rows in an index: by key, then by position. -/
def compareRows (a b : Row) : Ordering := (a.compareKeys b).then (a.comparePositions b)

/-- A row as reports print it: its key as text, ill-formed bytes replaced, and its position. -/
def text (row : Row) : String :=
  let key := match row.key with
    | none => "NULL"
    | some key => Utf8.decodeLossy key
  "(" ++ key ++ ", pos " ++ toString row.pos.value.toNat ++ ")"

end Row

end SlottedLeaf
