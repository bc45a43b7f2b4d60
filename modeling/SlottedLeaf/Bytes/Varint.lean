import SlottedLeaf.Bytes.Basic

/-!
# Variable-length numbers

A number is written in groups of seven bits, the lowest first, one group to a byte; every byte but
the last has its high bit set. A reader takes at most ten bytes and keeps the low 64 bits of the
value they spell.
-/

namespace SlottedLeaf.Varint

def encode (value : Nat) : Bytes :=
  if value < 128 then [UInt8.ofNat value]
  else UInt8.ofNat (value % 128 + 128) :: encode (value / 128)
termination_by value

def encodedLength (value : Nat) : Nat :=
  if value < 128 then 1 else encodedLength (value / 128) + 1
termination_by value

/-- The longest encoding that a reader takes. -/
def maxLength : Nat := 10

/-- Why no number could be read. -/
inductive Failure where
  /-- The bytes end inside the number. -/
  | cut
  /-- The number goes on for too many bytes. -/
  | tooLong
deriving DecidableEq, Repr

/-- The exact value spelled by the leading bytes, of which at most `limit` are taken, and the bytes
after them. -/
def scan : Nat → Bytes → Except Failure (Nat × Bytes)
  | 0, _ => .error .tooLong
  | _ + 1, [] => .error .cut
  | limit + 1, byte :: rest =>
    if byte.toNat < 128 then .ok (byte.toNat, rest)
    else (scan limit rest).map fun (value, rest) => (byte.toNat - 128 + 128 * value, rest)

/-- Reads a number: the low 64 bits of the value spelled, and the bytes after it. -/
def read (bytes : Bytes) : Except Failure (Nat × Bytes) :=
  (scan maxLength bytes).map fun (value, rest) => (value % UInt64.size, rest)

theorem length_encode (value : Nat) : (encode value).length = encodedLength value := by
  fun_induction encode value with
  | case1 value small => rw [encodedLength, if_pos small]; rfl
  | case2 value large ih => rw [encodedLength, if_neg large, List.length_cons, ih]

theorem length_of_scan {limit : Nat} {bytes rest : Bytes} {value : Nat}
    (scanned : scan limit bytes = .ok (value, rest)) : rest.length < bytes.length := by
  induction limit generalizing bytes rest value with
  | zero => simp [scan] at scanned
  | succ limit ih =>
    cases bytes with
    | nil => simp [scan] at scanned
    | cons byte tail =>
      rw [scan] at scanned
      split at scanned
      · cases scanned; simp
      · cases inner : scan limit tail with
        | error failure => simp [inner, Except.map] at scanned
        | ok found =>
          obtain ⟨low, after⟩ := found
          have shorter := ih inner
          simp only [inner, Except.map, Except.ok.injEq, Prod.mk.injEq] at scanned
          rw [← scanned.2, List.length_cons]
          omega

end SlottedLeaf.Varint
