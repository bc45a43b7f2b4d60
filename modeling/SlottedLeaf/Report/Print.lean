import SlottedLeaf.Report.Basic

/-!
# Printed page reports

A report is printed in lines for people or as a JSON object for programs. Both list the slots in
order.
-/

namespace SlottedLeaf.Report

def column (width value : Nat) : String :=
  String.ofList ((Nat.toDigits 10 value).leftpad width ' ')

def slotLine (report : SlotReport) (slot : Nat) : String :=
  "  [" ++ column 3 slot ++ "] offset " ++ column 5 report.offset ++ " len " ++
    column 4 report.bytes.length ++ "  " ++ report.bytes.toHex ++ "\n"

def parentText (report : Report) (root : String) : String :=
  report.header.parent.elim root fun page => toString page.number.toNat

def toLines (report : Report) : String :=
  let header := report.header
  let form := if header.form.isPositionOnly then "position-only" else "full"
  "page " ++ toString report.page.number.toNat ++ " (page size " ++ toString report.pageSize ++
    ")\n" ++
  "  parent:     " ++ report.parentText "root" ++ "\n" ++
  "  table:      " ++ toString header.table.number.toNat ++ "\n" ++
  "  rows:       " ++ form ++ "\n" ++
  "  entries:    " ++ toString header.count.toNat ++ "\n" ++
  "  free space: " ++ toString report.freeSpace ++ "\n" ++
  String.join (report.slots.mapIdx fun slot report => slotLine report slot)

/-- A JSON object over lines; its members stand two blanks deeper than `indent`. -/
def jsonObject (indent : String) (members : List (String × String)) : String :=
  let member := fun (name, value) => indent ++ "  \"" ++ name ++ "\": " ++ value
  "\x7b\n" ++ ",\n".intercalate (members.map member) ++ "\n" ++ indent ++ "\x7d"

def slotJson (report : SlotReport) (slot : Nat) : String :=
  "    " ++ jsonObject "    " [("slot", toString slot), ("offset", toString report.offset),
    ("len", toString report.bytes.length), ("bytes", "\"" ++ report.bytes.toHex ++ "\"")]

def slotsJson (slots : List SlotReport) : String :=
  if slots.isEmpty then "[]"
  else "[\n" ++ ",\n".intercalate (slots.mapIdx fun slot report => slotJson report slot) ++ "\n  ]"

def toJson (report : Report) : String :=
  let header := report.header
  jsonObject "" [
    ("page", toString report.page.number.toNat),
    ("page_size", toString report.pageSize),
    ("parent", report.parentText "null"),
    ("table", toString header.table.number.toNat),
    ("position_only", if header.form.isPositionOnly then "true" else "false"),
    ("entry_count", toString header.count.toNat),
    ("free_space", toString report.freeSpace),
    ("slots", slotsJson report.slots)] ++ "\n"

end SlottedLeaf.Report
