import SlottedLeaf.Bytes.Buffer
import SlottedLeaf.Fault

/-!
# Sets of pages, and what every store checks

A store lists the pages that changed in ascending order. Every store refuses the reserved page and
an image that is not one page long.
-/

namespace SlottedLeaf

/-- A store hands out no page with this number or a higher one. -/
def pageIdLimit : Nat := UInt32.size - 1

/-- A set of pages, in ascending order. -/
structure PageSet where
  pages : List PageId
deriving DecidableEq, Repr

namespace PageSet

def empty : PageSet := ⟨[]⟩

def insert (set : PageSet) (page : PageId) : PageSet :=
  ⟨set.pages.filter (fun other => other.number < page.number) ++
    page :: set.pages.filter (fun other => page.number < other.number)⟩

def erase (set : PageSet) (page : PageId) : PageSet :=
  ⟨set.pages.filter fun other => other ≠ page⟩

instance : Membership PageId PageSet where
  mem set page := page ∈ set.pages

theorem mem_insert (set : PageSet) (page other : PageId) :
    other ∈ set.insert page ↔ other = page ∨ other ∈ set := by
  have trichotomy : other ≠ page → other.number < page.number ∨ page.number < other.number := by
    intro different
    have : other.number.toNat ≠ page.number.toNat := fun same =>
      different (by cases other; cases page; simp_all [UInt32.toNat_inj])
    simp only [UInt32.lt_iff_toNat_lt]
    omega
  simp only [Membership.mem, insert]
  constructor
  · intro present
    have := List.mem_append.mp present
    simp only [List.mem_cons, List.mem_filter, decide_eq_true_eq] at this
    rcases this with ⟨here, _⟩ | same | ⟨here, _⟩
    · exact .inr here
    · exact .inl same
    · exact .inr here
  · intro present
    apply List.mem_append.mpr
    simp only [List.mem_cons, List.mem_filter, decide_eq_true_eq]
    by_cases same : other = page
    · exact .inr (.inl same)
    · have here := present.resolve_left same
      rcases trichotomy same with below | above
      · exact .inl ⟨here, below⟩
      · exact .inr (.inr ⟨here, above⟩)

theorem mem_erase (set : PageSet) (page other : PageId) :
    other ∈ set.erase page ↔ other ≠ page ∧ other ∈ set := by
  show other ∈ set.pages.filter _ ↔ _
  rw [List.mem_filter, decide_eq_true_eq, and_comm]
  rfl

end PageSet

def checkPageId (page : PageId) : Except Fault Unit :=
  if page = .reserved then .error (.invalid .reservedPage) else .ok ()

def checkImageLength (pageSize : Nat) (image : Buffer) : Except Fault Unit :=
  if image.size ≠ pageSize then .error (.invalid .pageLength) else .ok ()

end SlottedLeaf
