import SlottedLeaf.Text.Digit
import SlottedLeaf.Toml.Value

/-!
# TOML numbers, truth values and dates

A value that is no string, array or table is one word. Whole numbers may be decimal, with a sign,
or hexadecimal, octal or binary; single underscores may stand between digits; the value fits 64
bits with a sign. A number with a fraction or an exponent stands for the nearest floating-point
number of 64 bits, and is refused when it is too large for one. One too far below zero counts as
negative infinity.
-/

namespace SlottedLeaf.Toml.Number

/-- The number that digits of a base spell, with single underscores allowed between digits.
`separable` tells whether an underscore may come next, and whether the text may end. -/
def ofDigits? (base : Nat) : (separable : Bool) → (value : Nat) → List Char → Option Nat
  | true, value, [] => some value
  | false, _, [] => none
  | true, value, '_' :: rest => ofDigits? base false value rest
  | false, _, '_' :: _ => none
  | _, value, c :: rest => do
    let digit ← hexValue? c
    if digit < base then ofDigits? base true (base * value + digit) rest else none

/-- A decimal number without a sign. A leading zero stands alone. -/
def ofDecimal? : List Char → Option Nat
  | ['0'] => some 0
  | '0' :: _ => none
  | digits => ofDigits? 10 false 0 digits

def signed : List Char → Int × List Char
  | '-' :: rest => (-1, rest)
  | '+' :: rest => (1, rest)
  | rest => (1, rest)

def ofWord? (word : List Char) : Option Int :=
  let value : Option Int :=
    match word with
    | '0' :: 'x' :: digits => (ofDigits? 16 false 0 digits).map Int.ofNat
    | '0' :: 'o' :: digits => (ofDigits? 8 false 0 digits).map Int.ofNat
    | '0' :: 'b' :: digits => (ofDigits? 2 false 0 digits).map Int.ofNat
    | word =>
      let (sign, digits) := signed word
      (ofDecimal? digits).map fun value => sign * Int.ofNat value
  value.filter fun value => Int64.minValue.toInt ≤ value && value ≤ Int64.maxValue.toInt

/-- A number from zero up in decimal notation: `coefficient * 10 ^ exponent`. -/
structure Decimal where
  coefficient : Nat
  exponent : Int
deriving DecidableEq, Repr

/-- The least number that rounds to infinity: it is halfway between the greatest floating-point
number of 64 bits, `2 ^ 1024 - 2 ^ 971`, and `2 ^ 1024`. -/
def overflowBound : Nat := Nat.pow 2 1024 - Nat.pow 2 970

/-- Whether a number is at least `overflowBound`. The test before each power of ten leaves large
powers out: `10 ^ 309` is past the bound, and `10 ^ n` is past every coefficient of `n` bits. -/
def Decimal.overflows (number : Decimal) : Bool :=
  match number.exponent with
  | .ofNat up =>
    number.coefficient ≠ 0 && (309 ≤ up || overflowBound ≤ number.coefficient * Nat.pow 10 up)
  | .negSucc down =>
    down < number.coefficient.log2 && overflowBound * Nat.pow 10 (down + 1) ≤ number.coefficient

private theorem overflowBound_pos : 0 < overflowBound := by decide +kernel

private theorem overflowBound_le_pow {up : Nat} (large : 309 ≤ up) :
    overflowBound ≤ Nat.pow 10 up := by
  have least : overflowBound ≤ 10 ^ 155 * 10 ^ 154 := by decide +kernel
  obtain ⟨more, rfl⟩ : ∃ more, up = 155 + (154 + more) := ⟨up - 309, by omega⟩
  show overflowBound ≤ 10 ^ (155 + (154 + more))
  rw [Nat.pow_add, Nat.pow_add, ← Nat.mul_assoc]
  exact Nat.le_trans least (Nat.le_mul_of_pos_right _ (Nat.pow_pos (by decide)))

/-- A number with no negative exponent overflows from the bound on. -/
theorem overflows_ofNat (coefficient up : Nat) :
    Decimal.overflows ⟨coefficient, .ofNat up⟩ = true ↔
      overflowBound ≤ coefficient * Nat.pow 10 up := by
  have pos := overflowBound_pos
  have past : 309 ≤ up → overflowBound ≤ Nat.pow 10 up := overflowBound_le_pow
  generalize bound_eq : overflowBound = bound at pos past ⊢
  simp only [Decimal.overflows, bound_eq, Bool.and_eq_true, Bool.or_eq_true, decide_eq_true_eq]
  constructor
  · rintro ⟨nonzero, large | reached⟩
    · exact Nat.le_trans (past large) (Nat.le_mul_of_pos_left _ (Nat.pos_of_ne_zero nonzero))
    · exact reached
  · intro reached
    refine ⟨?_, .inr reached⟩
    rintro rfl
    omega

/-- A number with a negative exponent overflows from the bound on. -/
theorem overflows_negSucc (coefficient down : Nat) :
    Decimal.overflows ⟨coefficient, .negSucc down⟩ = true ↔
      overflowBound * Nat.pow 10 (down + 1) ≤ coefficient := by
  have pos := overflowBound_pos
  generalize bound_eq : overflowBound = bound at pos ⊢
  simp only [Decimal.overflows, bound_eq, Bool.and_eq_true, decide_eq_true_eq,
    and_iff_right_iff_imp]
  intro reached
  have power : 2 ^ (down + 1) ≤ coefficient :=
    calc 2 ^ (down + 1) ≤ 10 ^ (down + 1) := Nat.pow_le_pow_left (by decide) _
      _ ≤ bound * 10 ^ (down + 1) := Nat.le_mul_of_pos_left _ pos
      _ ≤ coefficient := reached
  have nonzero : coefficient ≠ 0 := by
    rintro rfl
    exact absurd power (Nat.not_le.mpr (Nat.two_pow_pos _))
  exact (Nat.le_log2 nonzero).mpr power

/-- The number of an exponent: digits, with or without a sign. -/
def ofExponent? (word : List Char) : Option Int :=
  let (sign, digits) := signed word
  (ofDigits? 10 false 0 digits).map fun value => sign * Int.ofNat value

/-- The number of a word with a fraction, an exponent or both, and without a sign. -/
def ofFloat? (word : List Char) : Option Decimal := do
  let isE : Char → Bool := fun c => c = 'e' || c = 'E'
  let mantissa := word.takeWhile fun c => !isE c
  let whole ← ofDecimal? (mantissa.takeWhile (· ≠ '.'))
  match mantissa.dropWhile (· ≠ '.'), word.dropWhile fun c => !isE c with
  | [], [] => none
  | [], _ :: exponent => return ⟨whole, ← ofExponent? exponent⟩
  | _ :: fraction, exponent =>
    let part ← ofDigits? 10 false 0 fraction
    let places := fraction.countP Char.isDigit
    let power ← if exponent.isEmpty then some 0 else ofExponent? (exponent.drop 1)
    return ⟨whole * Nat.pow 10 places + part, power - Int.ofNat places⟩

/-- Whether a word is a number with a fraction, an exponent or both, or is no finite number. Only a
number below zero may be too large for 64 bits. -/
def isFloat (word : List Char) : Bool :=
  let (sign, digits) := signed word
  digits = ['i', 'n', 'f'] || digits = ['n', 'a', 'n'] ||
    (ofFloat? digits).any fun number => sign < 0 || !number.overflows

def ofPlainDigits? (digits : List Char) : Option Nat :=
  if digits.all Char.isDigit then ofDigits? 10 false 0 digits else none

def isWithin (low high : Nat) (digits : List Char) : Bool :=
  (ofPlainDigits? digits).any fun value => low ≤ value && value ≤ high

def daysOf (year month : Nat) : Nat :=
  if month = 2 then
    if year % 4 = 0 ∧ (year % 100 ≠ 0 ∨ year % 400 = 0) then 29 else 28
  else if month = 4 ∨ month = 6 ∨ month = 9 ∨ month = 11 then 30
  else 31

/-- Whether a word is a date: year, month and day, in four, two and two digits. -/
def isDate : List Char → Bool
  | [y₁, y₂, y₃, y₄, '-', m₁, m₂, '-', d₁, d₂] =>
    match ofPlainDigits? [y₁, y₂, y₃, y₄], ofPlainDigits? [m₁, m₂] with
    | some year, some month =>
      1 ≤ month && month ≤ 12 && isWithin 1 (daysOf year month) [d₁, d₂]
    | _, _ => false
  | _ => false

/-- Whether a word is a time of day, with or without a fraction of a second. -/
def isTime : List Char → Bool
  | h₁ :: h₂ :: ':' :: m₁ :: m₂ :: ':' :: s₁ :: s₂ :: rest =>
    isWithin 0 23 [h₁, h₂] && isWithin 0 59 [m₁, m₂] && isWithin 0 60 [s₁, s₂] &&
      match rest with
      | [] => true
      | '.' :: digits => (ofPlainDigits? digits).isSome
      | _ => false
  | _ => false

/-- Whether a word is an offset from universal time. -/
def isOffset : List Char → Bool
  | ['Z'] | ['z'] => true
  | [sign, h₁, h₂, ':', m₁, m₂] =>
    (sign = '+' || sign = '-') && isWithin 0 23 [h₁, h₂] && isWithin 0 59 [m₁, m₂]
  | _ => false

/-- Whether a word is a date, a time, or both with or without an offset. -/
def isMoment (word : List Char) : Bool :=
  let time := word.drop 11
  let clock := time.takeWhile fun c => c.isDigit || c = ':' || c = '.'
  let offset := time.dropWhile fun c => c.isDigit || c = ':' || c = '.'
  isDate word || isTime word ||
    (isDate (word.take 10) && (word.drop 10).head?.any (fun c => c = 'T' || c = 't' || c = ' ') &&
      isTime clock && (offset.isEmpty || isOffset offset))

def valueOf? (word : List Char) : Option Value :=
  if word = ['t', 'r', 'u', 'e'] then some (.boolean true)
  else if word = ['f', 'a', 'l', 's', 'e'] then some (.boolean false)
  else match ofWord? word with
    | some value => some (.integer value)
    | none =>
      if isFloat word then some (.float (String.ofList word))
      else if isMoment word then some (.moment (String.ofList word))
      else none

end SlottedLeaf.Toml.Number
