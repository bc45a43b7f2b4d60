import SlottedLeaf.Proofs.Contents
import SlottedLeaf.Proofs.Numbers
import SlottedLeaf.Row.Format
import Mathlib.Data.Nat.Bitwise

/-!
# Variable-length numbers in words

A machine has three loops for the variable-length form of a 64-bit word: one sends its groups, one
counts them, and one gathers them again, each by masks and shifts of its own. They come to what
`encode`, `encodedLength` and `scan` say in numbers, and so they agree with each other. Where they
could part is the tenth group: a word has one bit left for it, and it is gathered with a shift of
63.
-/

namespace SlottedLeaf.Varint

/-! ## Masks and shifts -/

theorem toNat_shiftRight_seven (word : UInt64) : (word >>> 7).toNat = word.toNat / 128 := by
  rw [UInt64.toNat_shiftRight]
  exact Nat.shiftRight_eq_div_pow word.toNat 7

theorem shiftRight_seven_eq_zero_iff (word : UInt64) : word >>> 7 = 0 ↔ word.toNat < 128 := by
  rw [← UInt64.toNat_inj, toNat_shiftRight_seven]
  show word.toNat / 128 = 0 ↔ _
  omega

/-- The lowest group of a word. -/
theorem toNat_group (word : UInt64) : (word &&& 0x7F).toUInt8.toNat = word.toNat % 128 := by
  have group : (word &&& 0x7F).toNat = word.toNat % 128 := by
    rw [UInt64.toNat_and]
    exact Nat.and_two_pow_sub_one_eq_mod word.toNat 7
  rw [UInt64.toNat_toUInt8, group]
  omega

/-- Setting the high bit of a group adds it. -/
theorem toNat_marked {group : UInt8} (low : group.toNat < 128) :
    (group ||| 0x80).toNat = group.toNat + 128 := by
  have clear : 128 * 1 + group.toNat = 128 * 1 ||| group.toNat :=
    Nat.two_pow_add_eq_or_of_lt (i := 7) low 1
  rw [UInt8.toNat_or, Nat.or_comm]
  show 128 * 1 ||| group.toNat = _
  omega

/-- A byte ends a number if its high bit is clear. -/
theorem unmarked_iff (byte : UInt8) : byte &&& 0x80 = 0 ↔ byte.toNat < 128 := by
  have below := byte.toNat_lt
  have high : (byte &&& 0x80).toNat = (byte.toNat.testBit 7).toNat * 128 := by
    rw [UInt8.toNat_and]
    exact Nat.and_two_pow byte.toNat 7
  rw [← UInt8.toNat_inj, high, Nat.testBit_eq_decide_div_mod_eq]
  show _ = 0 ↔ _
  by_cases set : byte.toNat / 2 ^ 7 % 2 = 1
  · rw [decide_eq_true set]
    exact iff_of_false (by decide) (by omega)
  · rw [decide_eq_false set]
    exact iff_of_true (by decide) (by omega)

/-- Joining a group that is shifted clear of a word adds what the word has room for. -/
theorem toNat_joined {word : UInt64} {shift : Nat} (clear : word.toNat < 2 ^ shift)
    (room : shift < 64) (byte : UInt8) :
    (word ||| ((byte &&& 0x7F).toUInt64 <<< UInt64.ofNat shift)).toNat =
      (word.toNat + 2 ^ shift * (byte.toNat % 128)) % 2 ^ 64 := by
  have split : 2 ^ 64 = 2 ^ shift * 2 ^ (64 - shift) := by
    rw [← Nat.pow_add, Nat.add_sub_cancel' (Nat.le_of_lt room)]
  have bits : (UInt64.ofNat shift).toNat % 64 = shift := by
    rw [UInt64.toNat_ofNat_of_lt' (Nat.lt_trans room (by decide)), Nat.mod_eq_of_lt room]
  have kept := Nat.two_pow_add_eq_or_of_lt clear (byte.toNat % 128 % 2 ^ (64 - shift))
  rw [UInt64.toNat_or, UInt64.toNat_shiftLeft, bits, UInt8.toNat_toUInt64, toNat_low,
    Nat.shiftLeft_eq, Nat.mul_comm _ (2 ^ shift), Nat.or_comm, split, Nat.mul_mod_mul_left, ← kept,
    Nat.mod_mul, Nat.add_mul_mod_self_left, Nat.mod_eq_of_lt clear,
    Nat.add_mul_div_left _ _ (Nat.two_pow_pos shift), Nat.div_eq_of_lt clear, Nat.zero_add,
    Nat.add_comm]

/-! ## Loops -/

/-- Sends the groups of a word, the lowest first, after the bytes that were sent before. -/
def sendWord (word : UInt64) (sent : Bytes) : Bytes :=
  let group := (word &&& 0x7F).toUInt8
  let rest := word >>> 7
  if rest = 0 then sent ++ [group] else sendWord rest (sent ++ [group ||| 0x80])
termination_by word.toNat
decreasing_by
  rename_i more
  rw [shiftRight_seven_eq_zero_iff] at more
  rw [toNat_shiftRight_seven]
  omega

/-- Counts the groups of a word but the last, on from what was counted before. -/
def countGroups (word : UInt64) (counted : Nat) : Nat :=
  if 0x80 ≤ word then countGroups (word >>> 7) (counted + 1) else counted
termination_by word.toNat
decreasing_by
  rename_i large
  have large : 128 ≤ word.toNat := UInt64.le_iff_toNat_le.mp large
  rw [toNat_shiftRight_seven]
  omega

/-- Gathers a word, byte by byte: `word` is what the groups so far come to, and `shift` how many
bits they have. A machine stops at a shift by all the bits of a word, or more. Gives the cursor
after the number. -/
def gatherWord (page : Buffer) :
    (rounds : Nat) → (word : UInt64) → (shift cursor : Nat) →
      Option (Except Failure (UInt64 × Nat))
  | 0, _, _, _ => some (.error .tooLong)
  | rounds + 1, word, shift, cursor =>
    match page[cursor]? with
    | none => some (.error .cut)
    | some byte =>
      if 64 ≤ shift then none
      else
        let word := word ||| ((byte &&& 0x7F).toUInt64 <<< UInt64.ofNat shift)
        if byte &&& 0x80 = 0 then some (.ok (word, cursor + 1))
        else gatherWord page rounds word (shift + 7) (cursor + 1)

/-- Reads a word from a cursor on. -/
def readWord (page : Buffer) (cursor : Nat) : Option (Except Failure (UInt64 × Nat)) :=
  gatherWord page maxLength 0 0 cursor

theorem sendWord_eq (word : UInt64) (sent : Bytes) :
    sendWord word sent = sent ++ encode word.toNat := by
  fun_induction sendWord word sent with
  | case1 word sent group rest last =>
    have small : word.toNat < 128 := (shiftRight_seven_eq_zero_iff word).mp last
    have alone : group = UInt8.ofNat word.toNat := by
      rw [← UInt8.toNat_inj, toNat_group, UInt8.toNat_ofNat']
      omega
    rw [encode, if_pos small, alone]
  | case2 word sent group rest more ih =>
    have large : ¬ word.toNat < 128 := mt (shiftRight_seven_eq_zero_iff word).mpr more
    have marked : group ||| 0x80 = UInt8.ofNat (word.toNat % 128 + 128) := by
      rw [← UInt8.toNat_inj, toNat_marked (by rw [toNat_group]; omega), toNat_group,
        UInt8.toNat_ofNat']
      omega
    rw [ih, encode.eq_def word.toNat, if_neg large, marked, toNat_shiftRight_seven,
      List.append_assoc, List.singleton_append]

theorem countGroups_eq (word : UInt64) (counted : Nat) :
    countGroups word counted + 1 = counted + encodedLength word.toNat := by
  fun_induction countGroups word counted with
  | case1 word counted large ih =>
    have large : 128 ≤ word.toNat := UInt64.le_iff_toNat_le.mp large
    rw [ih, encodedLength.eq_def word.toNat, if_neg (by omega), toNat_shiftRight_seven]
    omega
  | case2 word counted small =>
    have small : word.toNat < 128 :=
      Nat.lt_of_not_le fun large => small (UInt64.le_iff_toNat_le.mpr large)
    rw [encodedLength, if_pos small]

/-- What is gathered is what `scan` finds, as far as a word has room for it. -/
theorem gatherWord_eq {page : Buffer} {rounds shift : Nat} {word : UInt64} (cursor : Nat)
    (bits : shift + 7 * rounds = 70) (clear : word.toNat < 2 ^ shift) :
    gatherWord page rounds word shift cursor =
      match scan rounds (page.slice cursor rounds) with
      | .error failure => some (.error failure)
      | .ok (value, rest) => some (.ok (UInt64.ofNat (word.toNat + 2 ^ shift * value),
          cursor + ((page.slice cursor rounds).length - rest.length))) := by
  -- By `bits` every round left has a shift of its own, and the last of them is 63.
  induction rounds generalizing word shift cursor with
  | zero => rfl
  | succ rounds ih =>
    rw [gatherWord]
    cases here : page[cursor]? with
    | none =>
      rw [Buffer.slice_of_none here]
      rfl
    | some byte =>
      have joined := toNat_joined clear (by omega) byte
      have below := byte.toNat_lt
      simp only [if_neg (show ¬ 64 ≤ shift by omega), Buffer.slice_succ here, scan, unmarked_iff]
      by_cases last : byte.toNat < 128
      · rw [Nat.mod_eq_of_lt last] at joined
        simp only [if_pos last, List.length_cons, Nat.add_sub_cancel_left]
        rw [(UInt64.ofNat_eq_iff_mod_eq_toNat _ _).mpr joined.symm]
      · have high : byte.toNat % 128 = byte.toNat - 128 := by omega
        have wider : 2 ^ (shift + 7) = 2 ^ shift * 128 := Nat.pow_add 2 shift 7
        have fits : word.toNat + 2 ^ shift * (byte.toNat % 128) < 2 ^ (shift + 7) := by
          have most : 2 ^ shift * (byte.toNat % 128) ≤ 2 ^ shift * 127 :=
            Nat.mul_le_mul_left _ (by omega)
          omega
        simp only [if_neg last]
        rw [ih (cursor + 1) (by omega) (by rw [joined]; exact (Nat.mod_le _ _).trans_lt fits)]
        cases scanned : scan rounds (page.slice (cursor + 1) rounds) with
        | error failure => rfl
        | ok found =>
          obtain ⟨value, after⟩ := found
          have shorter := length_of_scan scanned
          have spelled : UInt64.ofNat ((word.toNat + 2 ^ shift * (byte.toNat % 128)) % 2 ^ 64 +
              2 ^ (shift + 7) * value) =
                UInt64.ofNat (word.toNat + 2 ^ shift * (byte.toNat - 128 + 128 * value)) := by
            rw [← UInt64.toNat_inj, UInt64.toNat_ofNat', UInt64.toNat_ofNat', Nat.mod_add_mod, high,
              wider, Nat.mul_assoc, Nat.add_assoc, ← Nat.mul_add]
          have consumed : cursor + 1 + ((page.slice (cursor + 1) rounds).length - after.length) =
              cursor + ((byte :: page.slice (cursor + 1) rounds).length - after.length) := by
            rw [List.length_cons]
            omega
          simp only [Except.map]
          rw [joined, spelled, consumed]

/-! ## Agreement -/

theorem length_encode_word_le (word : UInt64) : (encode word.toNat).length ≤ maxLength := by
  rw [length_encode]
  exact encodedLength_le (Nat.lt_trans word.toNat_lt (by decide))

/-- Where the groups of a word stand, the word is read, and the cursor is moved past them. -/
theorem readWord_encode (word : UInt64) (before after : Bytes) :
    readWord (before ++ encode word.toNat ++ after).toArray before.length =
      some (.ok (word, before.length + encodedLength word.toNat)) := by
  have short := length_encode_word_le word
  have slice : Buffer.slice (before ++ encode word.toNat ++ after).toArray before.length maxLength =
      encode word.toNat ++ after.take (maxLength - (encode word.toNat).length) := by
    rw [Buffer.slice_eq, Bytes.slice, List.append_assoc, List.drop_left, List.take_append,
      List.take_of_length_le short]
  have scanned := (terminated_encode word.toNat).scan_append short
    (after.take (maxLength - (encode word.toNat).length))
  have whole : (0 : UInt64).toNat + 2 ^ 0 * word.toNat = word.toNat := by
    rw [Nat.pow_zero, Nat.one_mul]
    exact Nat.zero_add _
  rw [readWord, gatherWord_eq before.length rfl (by decide), slice, scanned]
  simp only [value_encode, List.length_append, Nat.add_sub_cancel, length_encode, whole,
    UInt64.ofNat_toNat]

section

variable {word : UInt64} {short : Bytes} (starts : short <+: encode word.toNat)
  (ends : short ≠ encode word.toNat)

include starts ends

/-- A word that is cut off leaves room for more bytes. -/
theorem length_lt_of_cut : short.length < maxLength := by
  have fewer : short.length < (encode word.toNat).length :=
    Nat.lt_of_le_of_ne starts.length_le fun same => ends (starts.eq_of_length same)
  exact Nat.lt_of_lt_of_le fewer (length_encode_word_le word)

/-- Where a word is cut off by the end of the page, the bytes that are looked at are those left. -/
theorem scan_slice_cut (before : Bytes) :
    scan maxLength (Buffer.slice (before ++ short).toArray before.length maxLength) =
      .error .cut := by
  have within := length_lt_of_cut starts ends
  rw [Buffer.slice_eq, Bytes.slice, List.drop_left, List.take_of_length_le (Nat.le_of_lt within),
    (terminated_encode word.toNat).scan_cut starts ends within]

theorem readWord_cut (before : Bytes) :
    readWord (before ++ short).toArray before.length = some (.error .cut) := by
  rw [readWord, gatherWord_eq before.length rfl (by decide), scan_slice_cut starts ends]

end

/-- The three loops agree on every word. The bytes sent are as many as are counted, ten at most, and
in shortest form: each but the last is marked to go on, and the last is not zero unless the word is.
Whatever stands before and after them, the word is read from them with the cursor moved past them,
and where the page ends inside them, they are refused as cut short. -/
theorem loops_agree (word : UInt64) :
    let field := encode word.toNat
    let length := encodedLength word.toNat
    ((∀ sent, sendWord word sent = sent ++ field) ∧ countGroups word 1 = length ∧
        field.length = length ∧ 1 ≤ length ∧ length ≤ 10) ∧
      (∃ before last, field = before ++ [last] ∧ (∀ byte ∈ before, byte &&& 0x80 ≠ 0) ∧
        last &&& 0x80 = 0 ∧ (last = 0 → word = 0)) ∧
      (∀ before after,
        readWord (before ++ field ++ after).toArray before.length =
            some (.ok (word, before.length + length)) ∧
          read (field ++ after) = .ok (word.toNat, after)) ∧
      ∀ before short, short <+: field → short ≠ field →
        readWord (before ++ short).toArray before.length = some (.error .cut) ∧
          read short = .error .cut ∧
          RowFormat.readKey (before ++ short).toArray before.length =
            .error (.corruption .rowKeyLengthCut) := by
  intro field length
  have measured : field.length = length := length_encode word.toNat
  have short : field.length ≤ maxLength := length_encode_word_le word
  refine ⟨⟨sendWord_eq word, ?_, measured, encodedLength_pos _, measured ▸ short⟩, ?_, ?_, ?_⟩
  · have counted := countGroups_eq word 1
    omega
  · obtain ⟨before, last, whole, high, low, nonzero⟩ := encode_ends word.toNat
    refine ⟨before, last, whole, ?_, (unmarked_iff last).mpr low, ?_⟩
    · intro byte member clear
      have marked := high byte member
      have unmarked := (unmarked_iff byte).mp clear
      omega
    · intro zero
      exact UInt64.toNat_inj.mp (nonzero zero)
  · intro before after
    refine ⟨readWord_encode word before after, ?_⟩
    rw [read, (terminated_encode word.toNat).scan_append short, value_encode]
    simp only [Except.map, Nat.mod_eq_of_lt word.toNat_lt]
  · intro before others starts ends
    refine ⟨readWord_cut starts ends before, ?_, ?_⟩
    · rw [read, (terminated_encode word.toNat).scan_cut starts ends (length_lt_of_cut starts ends)]
      rfl
    · simp only [RowFormat.readKey, read, scan_slice_cut starts ends before]
      rfl

/-- The largest word has ten groups, and one bit in the last. -/
theorem loops_agree_largest :
    let word : UInt64 := 0xFFFFFFFFFFFFFFFF
    let field : Bytes := .replicate 9 0xFF ++ [1]
    sendWord word [7] = 7 :: field ∧ countGroups word 1 = 10 ∧
      readWord ([7] ++ field ++ [0x80]).toArray 1 = some (.ok (word, 11)) ∧
      readWord ([7] ++ field.take 9).toArray 1 = some (.error .cut) := by
  intro word field
  have encoded : encode word.toNat = field := by decide +kernel
  have length : encodedLength word.toNat = 10 := by decide +kernel
  obtain ⟨⟨sends, counts, -⟩, -, reads, cuts⟩ := loops_agree word
  rw [encoded, length] at reads
  rw [encoded] at sends cuts
  refine ⟨sends [7], counts.trans length, (reads [7] [0x80]).1, ?_⟩
  exact (cuts [7] (field.take 9) (List.take_prefix 9 field) (by decide)).1

end SlottedLeaf.Varint
