import SlottedLeaf.Text.Digit

/-!
# TOML strings

A string is written in one of four ways: between double quotes with escapes, between single quotes
as it is, and in both ways over several lines between tripled quotes. Reading takes all four;
writing chooses the first that needs no escape, and escapes only where none does.
-/

namespace SlottedLeaf.Toml.Quoted

def isBlank (c : Char) : Bool := c = ' ' || c = '\t'

/-- Characters that may stand for themselves in a comment or in any string: the tab, and all that
are no control characters. -/
def isPlain (c : Char) : Bool := c = '\t' || (' ' ≤ c && c ≠ '\x7f')

def charOfHex? (digits : List Char) : Option Char := do
  let values ← digits.mapM hexValue?
  let number := values.foldl (fun number digit => 16 * number + digit) 0
  if number < 0xD800 ∨ (0xDFFF < number ∧ number < 0x110000) then
    return Char.ofNat number
  else none

/-- The character that an escape stands for, and the text after it. The backslash is taken
already. -/
def unescape : List Char → Option (Char × List Char)
  | 'b' :: rest => some ('\x08', rest)
  | 't' :: rest => some ('\t', rest)
  | 'n' :: rest => some ('\n', rest)
  | 'f' :: rest => some ('\x0c', rest)
  | 'r' :: rest => some ('\r', rest)
  | '"' :: rest => some ('"', rest)
  | '\\' :: rest => some ('\\', rest)
  | 'u' :: a :: b :: c :: d :: rest => (charOfHex? [a, b, c, d]).map (·, rest)
  | 'U' :: a :: b :: c :: d :: e :: f :: g :: h :: rest =>
    (charOfHex? [a, b, c, d, e, f, g, h]).map (·, rest)
  | _ => none

theorem length_of_unescape {text rest : List Char} {c : Char}
    (escaped : unescape text = some (c, rest)) : rest.length < text.length := by
  unfold unescape at escaped
  split at escaped <;> simp_all
  all_goals
    obtain ⟨_, _, _, rfl⟩ := escaped
    omega

def dropBreak : List Char → List Char
  | '\n' :: rest => rest
  | '\r' :: '\n' :: rest => rest
  | rest => rest

def dropSpace : List Char → List Char
  | ' ' :: rest | '\t' :: rest | '\n' :: rest | '\r' :: '\n' :: rest => dropSpace rest
  | rest => rest

theorem length_dropSpace_le (text : List Char) : (dropSpace text).length ≤ text.length := by
  fun_induction dropSpace text
  all_goals simp_all
  all_goals omega

/-- The text after an escaped line break: a backslash, taken already, then blanks up to the end of
the line, and all blanks and line breaks after it. -/
def continuation? (text : List Char) : Option (List Char) :=
  match text.dropWhile isBlank with
  | '\n' :: rest | '\r' :: '\n' :: rest => some (dropSpace rest)
  | _ => none

theorem length_of_continuation? {text rest : List Char}
    (continued : continuation? text = some rest) : rest.length < text.length := by
  have shorter := (text.dropWhile_sublist isBlank).length_le
  unfold continuation? at continued
  split at continued
  · next after same =>
    have := length_dropSpace_le after
    simp_all
    omega
  · next after same =>
    have := length_dropSpace_le after
    simp_all
    omega
  · cases continued

private def cons (c : Char) : Option (List Char × List Char) → Option (List Char × List Char) :=
  Option.map fun (text, rest) => (c :: text, rest)

/-- Reads a string on one line, up to its closing double quote. -/
def readBasic : List Char → Option (List Char × List Char)
  | [] => none
  | '"' :: rest => some ([], rest)
  | '\\' :: rest =>
    match escape : unescape rest with
    | some (c, rest') =>
      have := length_of_unescape escape
      cons c (readBasic rest')
    | none => none
  | c :: rest => if isPlain c then cons c (readBasic rest) else none
termination_by text => text.length

/-- Reads a string over lines, up to its closing double quotes. One or two quotes in front of the
closing three belong to the text. -/
def readBasicLines : List Char → Option (List Char × List Char)
  | [] => none
  | '"' :: '"' :: '"' :: '"' :: '"' :: rest => some (['"', '"'], rest)
  | '"' :: '"' :: '"' :: '"' :: rest => some (['"'], rest)
  | '"' :: '"' :: '"' :: rest => some ([], rest)
  | '\\' :: rest =>
    match continued : continuation? rest with
    | some rest' =>
      have := length_of_continuation? continued
      readBasicLines rest'
    | none =>
      match escape : unescape rest with
      | some (c, rest') =>
        have := length_of_unescape escape
        cons c (readBasicLines rest')
      | none => none
  | '\n' :: rest => cons '\n' (readBasicLines rest)
  | '\r' :: '\n' :: rest => cons '\n' (readBasicLines rest)
  | c :: rest => if isPlain c then cons c (readBasicLines rest) else none
termination_by text => text.length

/-- Reads a literal string on one line, up to its closing single quote. -/
def readLiteral : List Char → Option (List Char × List Char)
  | [] => none
  | '\'' :: rest => some ([], rest)
  | c :: rest => if isPlain c then cons c (readLiteral rest) else none

/-- Reads a literal string over lines, up to its closing single quotes. One or two quotes in front
of the closing three belong to the text. -/
def readLiteralLines : List Char → Option (List Char × List Char)
  | [] => none
  | '\'' :: '\'' :: '\'' :: '\'' :: '\'' :: rest => some (['\'', '\''], rest)
  | '\'' :: '\'' :: '\'' :: '\'' :: rest => some (['\''], rest)
  | '\'' :: '\'' :: '\'' :: rest => some ([], rest)
  | '\n' :: rest => cons '\n' (readLiteralLines rest)
  | '\r' :: '\n' :: rest => cons '\n' (readLiteralLines rest)
  | c :: rest => if isPlain c then cons c (readLiteralLines rest) else none

def readLine : List Char → Option (List Char × List Char)
  | '"' :: rest => readBasic rest
  | '\'' :: rest => readLiteral rest
  | _ => none

/-- Reads a string of any kind, with its quotes. A line break right after tripled quotes is not
part of the text. -/
def read : List Char → Option (List Char × List Char)
  | '"' :: '"' :: '"' :: rest => readBasicLines (dropBreak rest)
  | '\'' :: '\'' :: '\'' :: rest => readLiteralLines (dropBreak rest)
  | rest => readLine rest

def longestRun (c : Char) (text : List Char) : Nat :=
  (text.foldl (fun (longest, run) other =>
    if other = c then (max longest (run + 1), run + 1) else (longest, 0)) (0, 0)).1

/-- The four hexadecimal digits, in capitals, of a character below U+10000. -/
private def hexQuad (c : Char) : List Char :=
  [4096, 256, 16, 1].map fun place => (Nat.digitChar (c.toNat / place % 16)).toUpper

/-- A character between double quotes; `overLines` tells whether a line break may stand for
itself. -/
def escapeChar (overLines : Bool) (c : Char) : List Char :=
  if c = '\x08' then ['\\', 'b']
  else if c = '\t' then ['\\', 't']
  else if c = '\n' then (if overLines then ['\n'] else ['\\', 'n'])
  else if c = '\x0c' then ['\\', 'f']
  else if c = '\r' then ['\\', 'r']
  else if c = '\\' then ['\\', '\\']
  else if c < ' ' ∨ c = '\x7f' then '\\' :: 'u' :: hexQuad c
  else [c]

/-- The text between double quotes. A double quote is escaped when it is one more in a row than
`allowed`. -/
def escapeText (overLines : Bool) (allowed : Nat) : Nat → List Char → List Char
  | _, [] => []
  | run, '"' :: rest =>
    if run < allowed then '"' :: escapeText overLines allowed (run + 1) rest
    else '\\' :: '"' :: escapeText overLines allowed 0 rest
  | _, c :: rest => escapeChar overLines c ++ escapeText overLines allowed 0 rest

/-- Writes a string. The first of these that applies is taken: double quotes if nothing needs an
escape, single quotes, tripled double quotes, tripled single quotes, and double quotes with
escapes, tripled if there is a line break. -/
def write (text : List Char) : List Char :=
  let control := text.any fun c => (c < ' ' && c ≠ '\t' && c ≠ '\n') || c = '\x7f'
  let backslash := text.contains '\\'
  let lines := text.contains '\n'
  let single := longestRun '\'' text
  let double := longestRun '"' text
  let opening := if lines then ['\n'] else []
  let basic := '"' :: escapeText false 0 0 text ++ ['"']
  let basicLines := ['"', '"', '"'] ++ opening ++ escapeText true 2 0 text ++ ['"', '"', '"']
  if !control && !backslash && double = 0 && !lines then basic
  else if !control && single = 0 && !lines then '\'' :: text ++ ['\'']
  else if !control && !backslash && double ≤ 2 then basicLines
  else if !control && single ≤ 2 then
    ['\'', '\'', '\''] ++ opening ++ text ++ ['\'', '\'', '\'']
  else if lines then basicLines
  else basic

end SlottedLeaf.Toml.Quoted
