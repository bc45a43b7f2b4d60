import SlottedLeaf.Bytes.Varint
import Mathlib.Data.Nat.Digits.Defs

/-!
# What variable-length numbers spell

A number ends with its first byte below 128, so no number is the start of another. It need not be
the shortest one with its value, and its value need not fit 64 bits: a reader takes every number of
at most ten bytes, and what it finds is the value unless the tenth byte is above 1.
-/

namespace SlottedLeaf

/-- The low seven bits of a byte. -/
theorem toNat_low (byte : UInt8) : (byte &&& 0x7F).toNat = byte.toNat % 128 := by
  rw [UInt8.toNat_and]
  exact Nat.and_two_pow_sub_one_eq_mod byte.toNat 7

namespace Varint

/-! ## Encoding -/

theorem encodedLength_pos (value : Nat) : 0 < encodedLength value := by
  rw [encodedLength]
  split
  · exact Nat.zero_lt_one
  · exact Nat.succ_pos _

theorem encodedLength_le {value n : Nat} (small : value < 128 ^ (n + 1)) :
    encodedLength value ≤ n + 1 := by
  induction n generalizing value with
  | zero =>
    have last : value < 128 := by simpa using small
    exact Nat.le_of_eq (by rw [encodedLength, if_pos last])
  | succ n ih =>
    rw [encodedLength]
    split
    · omega
    · have rest : value / 128 < 128 ^ (n + 1) := by
        rw [Nat.div_lt_iff_lt_mul (by decide), ← Nat.pow_succ]
        exact small
      exact Nat.succ_le_succ (ih rest)

/-! ## Spelling -/

/-- A number, in the shortest form or a longer one: its last byte is the first below 128. -/
inductive Terminated : Bytes → Prop where
  | last {byte : UInt8} : byte.toNat < 128 → Terminated [byte]
  | more {byte : UInt8} {rest : Bytes} :
      128 ≤ byte.toNat → Terminated rest → Terminated (byte :: rest)

/-- The value that bytes spell, with no bound: seven bits of each, the lowest first. -/
def value (field : Bytes) : Nat := Nat.ofDigits 128 (field.map fun byte => (byte &&& 0x7F).toNat)

theorem value_cons (byte : UInt8) (rest : Bytes) :
    value (byte :: rest) = byte.toNat % 128 + 128 * value rest := by
  rw [value, List.map_cons, Nat.ofDigits_cons, toNat_low]
  rfl

theorem value_append (first second : Bytes) :
    value (first ++ second) = value first + 128 ^ first.length * value second := by
  rw [value, List.map_append, Nat.ofDigits_append, List.length_map]
  rfl

theorem value_singleton (byte : UInt8) : value [byte] = byte.toNat % 128 := by
  rw [value_cons]
  rfl

theorem value_lt (field : Bytes) : value field < 128 ^ field.length := by
  rw [← List.length_map (f := fun byte : UInt8 => (byte &&& 0x7F).toNat)]
  refine Nat.ofDigits_lt_base_pow_length (by decide) (List.forall_mem_map.mpr ?_)
  intro byte _
  rw [toNat_low]
  exact Nat.mod_lt _ (by decide)

/-- An encoding is no longer than bytes that spell as much, or more. -/
theorem encodedLength_le_length {field : Bytes} {number : Nat} (filled : 0 < field.length)
    (most : number ≤ value field) : encodedLength number ≤ field.length := by
  obtain ⟨n, length⟩ := Nat.exists_eq_add_of_lt filled
  rw [Nat.zero_add] at length
  rw [length]
  refine encodedLength_le ?_
  rw [← length]
  exact Nat.lt_of_le_of_lt most (value_lt field)

theorem terminated_encode (number : Nat) : Terminated (encode number) := by
  fun_induction encode number with
  | case1 number small =>
    refine .last ?_
    rw [UInt8.toNat_ofNat']
    omega
  | case2 number large ih =>
    refine .more ?_ ih
    rw [UInt8.toNat_ofNat']
    omega

theorem value_encode (number : Nat) : value (encode number) = number := by
  fun_induction encode number with
  | case1 number small =>
    rw [value_singleton, UInt8.toNat_ofNat']
    omega
  | case2 number large ih =>
    rw [value_cons, ih, UInt8.toNat_ofNat']
    omega

/-- A reader takes a number from the front, and finds its value. -/
theorem of_scan {limit number : Nat} {bytes rest : Bytes}
    (scanned : scan limit bytes = .ok (number, rest)) :
    ∃ field, Terminated field ∧ field.length ≤ limit ∧ bytes = field ++ rest ∧
      number = value field := by
  induction limit generalizing bytes number rest with
  | zero => cases scanned
  | succ limit ih =>
    cases bytes with
    | nil => cases scanned
    | cons byte tail =>
      rw [scan] at scanned
      by_cases low : byte.toNat < 128
      · rw [if_pos low] at scanned
        cases scanned
        refine ⟨[byte], .last low, Nat.succ_le_succ (Nat.zero_le _), rfl, ?_⟩
        rw [value_singleton, Nat.mod_eq_of_lt low]
      · rw [if_neg low] at scanned
        cases inner : scan limit tail with
        | error failure =>
          rw [inner] at scanned
          cases scanned
        | ok found =>
          obtain ⟨higher, after⟩ := found
          rw [inner] at scanned
          cases scanned
          obtain ⟨field, terminated, short, rfl, rfl⟩ := ih inner
          refine ⟨byte :: field, .more (by omega) terminated, Nat.succ_le_succ short, rfl, ?_⟩
          have below := byte.toNat_lt
          rw [value_cons]
          omega

/-- Every byte of a number but the last has its high bit set. -/
theorem terminated_iff {field : Bytes} :
    Terminated field ↔ ∃ before last, field = before ++ [last] ∧
      (∀ byte ∈ before, 128 ≤ byte.toNat) ∧ last.toNat < 128 := by
  constructor
  · intro terminated
    induction terminated with
    | @last byte low => exact ⟨[], byte, rfl, nofun, low⟩
    | @more byte rest high _ ih =>
      obtain ⟨before, last, rfl, highs, low⟩ := ih
      exact ⟨byte :: before, last, rfl, List.forall_mem_cons.mpr ⟨high, highs⟩, low⟩
  · rintro ⟨before, last, rfl, highs, low⟩
    induction before with
    | nil => exact .last low
    | cons byte rest ih =>
      obtain ⟨high, highs⟩ := List.forall_mem_cons.mp highs
      exact .more high (ih highs)

/-- An encoding is a number whose last byte is not zero, but for the number zero. -/
theorem encode_ends (number : Nat) :
    ∃ before last, encode number = before ++ [last] ∧ (∀ byte ∈ before, 128 ≤ byte.toNat) ∧
      last.toNat < 128 ∧ (last = 0 → number = 0) := by
  obtain ⟨before, last, whole, high, low⟩ := terminated_iff.mp (terminated_encode number)
  refine ⟨before, last, whole, high, low, ?_⟩
  rintro rfl
  have spelled : number = value before := by
    rw [← value_encode number, whole, value_append, value_singleton]
    exact Nat.add_zero _
  cases before with
  | nil => exact spelled
  | cons first rest =>
    have filled : 0 < (first :: rest).length := Nat.succ_pos rest.length
    have shorter := encodedLength_le_length filled (Nat.le_of_eq spelled)
    rw [← length_encode, whole, List.length_append] at shorter
    exact absurd shorter (Nat.not_succ_le_self _)

namespace Terminated

variable {field : Bytes}

theorem length_pos (terminated : Terminated field) : 0 < field.length := by
  cases terminated <;> exact Nat.succ_pos _

/-- No number is the start of another. -/
theorem append_inj (terminated : Terminated field) {other after later : Bytes}
    (likewise : Terminated other) (same : field ++ after = other ++ later) :
    field = other ∧ after = later := by
  induction terminated generalizing other with
  | last low =>
    cases likewise with
    | last => simpa using same
    | more high =>
      obtain ⟨rfl, _⟩ := List.cons.inj same
      omega
  | more high _ ih =>
    cases likewise with
    | last low =>
      obtain ⟨rfl, _⟩ := List.cons.inj same
      omega
    | more _ likewise =>
      obtain ⟨rfl, tails⟩ := List.cons.inj same
      obtain ⟨rfl, rfl⟩ := ih likewise tails
      exact ⟨rfl, rfl⟩

/-- Within the limit, a number is read as its value, and what follows it is left. -/
theorem scan_append (terminated : Terminated field) {limit : Nat} (short : field.length ≤ limit)
    (rest : Bytes) : scan limit (field ++ rest) = .ok (value field, rest) := by
  induction terminated generalizing limit with
  | last low =>
    obtain ⟨limit, rfl⟩ : ∃ rounds, limit = rounds + 1 := Nat.exists_eq_add_of_le' short
    rw [List.singleton_append, scan, if_pos low, value_singleton, Nat.mod_eq_of_lt low]
  | @more byte tail high _ ih =>
    rw [List.length_cons] at short
    obtain ⟨limit, rfl⟩ := Nat.exists_eq_add_of_le' (Nat.le_trans (Nat.le_add_left 1 _) short)
    have below := byte.toNat_lt
    rw [List.cons_append, scan, if_neg (by omega), ih (Nat.le_of_succ_le_succ short), value_cons,
      show byte.toNat % 128 = byte.toNat - 128 by omega]
    rfl

/-- Over the limit, a number is refused, however its bytes go on. -/
theorem scan_take (terminated : Terminated field) {limit : Nat} (long : limit < field.length) :
    scan limit (field.take limit) = .error .tooLong := by
  induction terminated generalizing limit with
  | last low =>
    obtain rfl : limit = 0 := by simpa using long
    rfl
  | more high _ ih =>
    cases limit with
    | zero => rfl
    | succ limit =>
      rw [List.take_succ_cons, scan, if_neg (by omega), ih (Nat.lt_of_succ_lt_succ long)]
      rfl

/-- Of bytes that end inside a number, no number is made. -/
theorem scan_cut (terminated : Terminated field) {short : Bytes} (starts : short <+: field)
    (ends : short ≠ field) {limit : Nat} (within : short.length < limit) :
    scan limit short = .error .cut := by
  induction terminated generalizing short limit with
  | last low =>
    obtain ⟨limit, rfl⟩ := Nat.exists_eq_add_of_le' (Nat.zero_lt_of_lt within)
    cases short with
    | nil => rfl
    | cons first tail =>
      obtain ⟨rfl, none⟩ := List.cons_prefix_cons.mp starts
      exact absurd (congrArg _ (List.prefix_nil.mp none)) ends
  | more high _ ih =>
    obtain ⟨limit, rfl⟩ := Nat.exists_eq_add_of_le' (Nat.zero_lt_of_lt within)
    cases short with
    | nil => rfl
    | cons first tail =>
      obtain ⟨rfl, others⟩ := List.cons_prefix_cons.mp starts
      have later := ih others (fun same => ends (congrArg _ same)) (Nat.lt_of_succ_lt_succ within)
      rw [scan, if_neg (by omega), later]
      rfl

/-- Of the numbers that a reader takes, those fit 64 bits whose tenth byte is at most 1. -/
theorem value_lt_iff (terminated : Terminated field) (short : field.length ≤ maxLength) :
    value field < UInt64.size ↔ ∀ tenth ∈ field[9]?, tenth.toNat ≤ 1 := by
  obtain ⟨before, last, rfl, -, low⟩ := terminated_iff.mp terminated
  have few : before.length ≤ 9 := by
    rw [List.length_append, List.length_singleton] at short
    exact Nat.le_of_succ_le_succ short
  rcases Nat.lt_or_eq_of_le few with fewer | nine
  · have fits : value (before ++ [last]) < 128 ^ 9 := by
      refine Nat.lt_of_lt_of_le (value_lt _) (Nat.pow_le_pow_right (by decide) ?_)
      rw [List.length_append, List.length_singleton]
      exact fewer
    refine iff_of_true (Nat.lt_trans fits (by decide)) ?_
    rw [List.getElem?_eq_none (by rw [List.length_append, List.length_singleton]; exact fewer)]
    nofun
  · have tenth : (before ++ [last])[9]? = some last := by
      rw [← nine, List.getElem?_concat_length]
    have lower : value before < 128 ^ 9 := nine ▸ value_lt before
    have limit : UInt64.size = 2 * 128 ^ 9 := by decide
    rw [tenth, value_append, nine, value_singleton, Nat.mod_eq_of_lt low, limit]
    simp only [Option.mem_some_iff, forall_eq']
    omega

end Terminated

end Varint

end SlottedLeaf
