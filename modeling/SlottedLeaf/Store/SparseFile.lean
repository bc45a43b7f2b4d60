import SlottedLeaf.Bytes.Buffer

/-!
# Sparse files

A file may be much longer than what was ever written to it: the rest is zeros. So a file is its
length and the pieces that were written. `byteAt` says which byte stands where; `byteAt_write` and
`getElem?_window` say what writing and reading do to that.
-/

namespace SlottedLeaf

/-- A file. -/
structure SparseFile where
  length : Nat
  /-- What was written, each piece at an offset, the latest first. The rest is zeros. -/
  pieces : List (Nat × Buffer)
deriving DecidableEq, Repr

namespace SparseFile

def holds (address : Nat) (piece : Nat × Buffer) : Bool :=
  piece.1 ≤ address && address < piece.1 + piece.2.size

def byteAt (file : SparseFile) (address : Nat) : UInt8 :=
  match file.pieces.find? (holds address) with
  | some (offset, bytes) => bytes.getD (address - offset) 0
  | none => 0

def ofBytes (bytes : Bytes) : SparseFile := ⟨bytes.length, [(0, bytes.toArray)]⟩

/-- A window at `start` of a file, with what a piece has in it laid over. -/
def lay (start : Nat) (piece : Nat × Buffer) (window : Buffer) : Buffer :=
  if start ≤ piece.1 then
    window.overwrite (piece.1 - start) (piece.2.slice 0 (window.size - (piece.1 - start)))
  else window.overwrite 0 (piece.2.slice (start - piece.1) window.size)

/-- The bytes `[start, start + length)`; past the end of the file there are zeros. -/
def window (file : SparseFile) (start length : Nat) : Buffer :=
  file.pieces.foldr (lay start) (.zeros length)

def toBytes (file : SparseFile) : Bytes := (file.window 0 file.length).toList

def isWithin (start stop : Nat) (piece : Nat × Buffer) : Bool :=
  start ≤ piece.1 && piece.1 + piece.2.size ≤ stop

/-- The file with bytes written at an offset; it grows if they go past its end. Pieces that can no
longer be seen go. -/
def write (file : SparseFile) (offset : Nat) (bytes : Buffer) : SparseFile where
  length := max file.length (offset + bytes.size)
  pieces := (offset, bytes) ::
    file.pieces.filter fun piece => !isWithin offset (offset + bytes.size) piece

/-- What a piece has below an address. -/
def cut (stop : Nat) (piece : Nat × Buffer) : Nat × Buffer :=
  (piece.1, piece.2.extract 0 (stop - piece.1))

/-- The file cut to a length, or grown to it with zeros. -/
def resize (file : SparseFile) (length : Nat) : SparseFile :=
  ⟨length, (file.pieces.map (cut length)).filter fun piece => !piece.2.isEmpty⟩

def extend (file : SparseFile) (length : Nat) : SparseFile := { file with length }

def append (file : SparseFile) (bytes : Bytes) : SparseFile :=
  ⟨file.length + bytes.length, (file.length, bytes.toArray) :: file.pieces⟩

/-- A write shows in its own range and nowhere else. -/
theorem byteAt_write (file : SparseFile) (offset : Nat) (bytes : Buffer) (address : Nat) :
    (file.write offset bytes).byteAt address =
      if holds address (offset, bytes) then bytes.getD (address - offset) 0
      else file.byteAt address := by
  by_cases here : holds address (offset, bytes)
  · simp [byteAt, write, here]
  · have unseen : ∀ piece : Nat × Buffer, holds address piece = true →
        isWithin offset (offset + bytes.size) piece = false := by
      intro piece at_piece
      simp only [holds, isWithin, Bool.and_eq_true, decide_eq_true_eq, Bool.and_eq_false_iff,
        decide_eq_false_iff_not] at here at_piece ⊢
      omega
    have same : (fun piece => decide ((!isWithin offset (offset + bytes.size) piece) = true ∧
        holds address piece = true)) = holds address := by
      funext piece
      by_cases at_piece : holds address piece = true
      · simp [unseen piece at_piece, at_piece]
      · simp [at_piece]
    rw [if_neg here]
    simp only [byteAt, write, List.find?_cons, here, List.find?_filter, same]

private theorem size_lay (start : Nat) (piece : Nat × Buffer) (window : Buffer) :
    (lay start piece window).size = window.size := by
  unfold lay
  split <;> simp

private theorem getElem?_lay (start : Nat) (piece : Nat × Buffer) (window : Buffer) {i : Nat}
    (inside : i < window.size) :
    (lay start piece window)[i]? =
      if holds (start + i) piece then some (piece.2.getD (start + i - piece.1) 0)
      else window[i]? := by
  obtain ⟨offset, bytes⟩ := piece
  have read (a b : Nat) (j : Nat) (low : j < b) (high : a + j < bytes.size) :
      (bytes.slice a b)[j]? = some (bytes.getD (a + j) 0) := by
    rw [Buffer.slice_eq, Bytes.slice, List.getElem?_take_of_lt low, List.getElem?_drop,
      show bytes.toList[a + j]? = bytes[a + j]? from Array.getElem?_toList,
      Array.getElem?_eq_getElem high, Array.getD, dif_pos high]
    rfl
  have count (a b : Nat) : (bytes.slice a b).length = min b (bytes.size - a) := by
    rw [Buffer.slice_eq, Bytes.slice, List.length_take, List.length_drop, Array.length_toList]
  simp only [lay, holds, Bool.and_eq_true, decide_eq_true_eq]
  split
  · rw [Buffer.getElem?_overwrite, count]
    by_cases here : offset ≤ start + i ∧ start + i < offset + bytes.size
    · rw [if_pos (by omega), if_pos here, read _ _ _ (by omega) (by omega)]
      congr 2
      omega
    · rw [if_neg (by omega), if_neg here]
  · rw [Buffer.getElem?_overwrite, count]
    by_cases here : offset ≤ start + i ∧ start + i < offset + bytes.size
    · rw [if_pos (by omega), if_pos here, read _ _ _ (by omega) (by omega)]
      congr 2
      omega
    · rw [if_neg (by omega), if_neg here]

private theorem size_foldr_lay (start length : Nat) (pieces : List (Nat × Buffer)) :
    (pieces.foldr (lay start) (.zeros length)).size = length := by
  induction pieces with
  | nil => simp [Buffer.zeros]
  | cons piece rest ih => rw [List.foldr_cons, size_lay, ih]

@[simp]
theorem size_window (file : SparseFile) (start length : Nat) :
    (file.window start length).size = length :=
  size_foldr_lay start length file.pieces

/-- A window shows the bytes of the file from its start on. -/
theorem getElem?_window (file : SparseFile) (start length : Nat) {i : Nat} (inside : i < length) :
    (file.window start length)[i]? = some (file.byteAt (start + i)) := by
  obtain ⟨total, pieces⟩ := file
  simp only [window, byteAt]
  induction pieces with
  | nil => simp [Buffer.zeros, inside]
  | cons piece rest ih =>
    rw [List.foldr_cons, getElem?_lay _ _ _ (by rw [size_foldr_lay]; exact inside), List.find?_cons]
    split
    · next here => rw [here]
    · next elsewhere => rw [ih, Bool.of_not_eq_true elsewhere]

/-- What was just written shows in its own range. -/
theorem window_write (file : SparseFile) (offset : Nat) (bytes : Buffer) :
    (file.write offset bytes).window offset bytes.size = bytes := by
  apply Array.ext (size_window ..)
  intro i _ inside
  have shown := getElem?_window (file.write offset bytes) offset bytes.size inside
  have here : holds (offset + i) (offset, bytes) = true := by
    simp only [holds, Bool.and_eq_true, decide_eq_true_eq]
    omega
  rw [byteAt_write, if_pos here, Nat.add_sub_cancel_left] at shown
  rw [Array.getElem_eq_iff, shown, Array.getD, dif_pos inside]
  rfl

@[simp]
theorem window_extend (file : SparseFile) (longer start length : Nat) :
    (file.extend longer).window start length = file.window start length := rfl

theorem byteAt_ofBytes (bytes : Bytes) (address : Nat) :
    (ofBytes bytes).byteAt address = bytes[address]?.getD 0 := by
  rw [byteAt, ofBytes, List.find?_cons]
  by_cases present : address < bytes.length
  · have here : holds address (0, bytes.toArray) = true := by
      simpa [holds] using present
    rw [here]
    simp [Array.getD, present]
  · have absent : holds address (0, bytes.toArray) = false := by
      simpa [holds] using present
    rw [absent, List.getElem?_eq_none (Nat.le_of_not_lt present)]
    rfl

/-- Of bytes that are put in a file a window shows those in its range, and zeros past their end. -/
theorem window_ofBytes (bytes : Bytes) (start length : Nat) :
    (ofBytes bytes).window start length = ((bytes.slice start length).resize length).toArray := by
  apply Array.ext_getElem?
  intro i
  have view : ((bytes.slice start length).resize length).toArray[i]? =
      ((bytes.slice start length).resize length)[i]? := List.getElem?_toArray
  rw [view, Bytes.getElem?_resize]
  by_cases inside : i < length
  · rw [getElem?_window _ _ _ inside, if_pos inside, byteAt_ofBytes, Bytes.slice,
      List.getElem?_take_of_lt inside, List.getElem?_drop]
  · rw [if_neg inside, Array.getElem?_eq_none (by simpa using inside)]

/-- A window does not show what is written outside. -/
theorem window_write_of_apart (file : SparseFile) {offset start length : Nat} {bytes : Buffer}
    (apart : offset + bytes.size ≤ start ∨ start + length ≤ offset) :
    (file.write offset bytes).window start length = file.window start length := by
  apply Array.ext_getElem?
  intro i
  by_cases inside : i < length
  · have elsewhere : ¬ holds (start + i) (offset, bytes) = true := by
      simp only [holds, Bool.and_eq_true, decide_eq_true_eq]
      omega
    rw [getElem?_window _ _ _ inside, getElem?_window _ _ _ inside, byteAt_write,
      if_neg elsewhere]
  · rw [Array.getElem?_eq_none (by simpa using inside),
      Array.getElem?_eq_none (by simpa using inside)]

end SparseFile

end SlottedLeaf
