import SlottedLeaf.Fault

/-!
# Page sizes

A page must hold a header and a row, and the offset of a row on it must fit two bytes.
-/

namespace SlottedLeaf

def minPageSize : Nat := 64

def maxPageSize : Nat := 65536

def defaultPageSize : Nat := 4096

def checkPageSize (pageSize : Nat) : Except Fault Unit :=
  if pageSize < minPageSize then .error (.invalid .pageSizeTooSmall)
  else if maxPageSize < pageSize then .error (.invalid .pageSizeTooLarge)
  else .ok ()

theorem checkPageSize_eq_ok_iff (pageSize : Nat) :
    checkPageSize pageSize = .ok () ↔ minPageSize ≤ pageSize ∧ pageSize ≤ maxPageSize := by
  unfold checkPageSize
  split
  · simp; omega
  · split
    · simp; omega
    · simp; omega

end SlottedLeaf
