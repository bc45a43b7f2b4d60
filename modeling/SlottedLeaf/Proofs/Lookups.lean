import SlottedLeaf.Proofs.Canonical

/-!
# Rows looked up elsewhere

The table that resolves rows may change while leaves are open. A row that a leaf has decoded stays
what it is, and one that is still a position on the page is what the table gives when it is decoded.
So a leaf keeps its rows if each of them is found where it was found before, and then it is as
canonical as it was: nothing else about a leaf depends on the table.
-/

namespace SlottedLeaf

variable {index other : Index} {leaf : Leaf} {entries : List RowEntry} {rows : List Row} {row : Row}
  {resolve : RowPos → Except Fault Row}

/-- A row is read as before if it is found where it was. -/
theorem RowFormat.read_of_finds {format : RowFormat} {form : RowForm} {page : Buffer} {offset : Nat}
    (reads : format.read form page offset = .ok row)
    (finds : ∀ pos, format.resolve pos = .ok row → resolve pos = .ok row) :
    RowFormat.read { format with resolve } form page offset = .ok row := by
  cases form with
  | full => exact reads
  | positionOnly =>
    rw [RowFormat.read] at reads ⊢
    by_cases past : page.size < offset
    · rw [if_pos past] at reads
      cases reads
    by_cases short : page.size < offset + positionLength
    · rw [if_neg past, if_pos short] at reads
      cases reads
    · rw [if_neg past, if_neg short] at reads ⊢
      exact finds _ reads

/-- Slots show the same entries if each of these decodes to the same as before. -/
theorem Slot.Shows.mono {decode again : Nat → Except Fault Row} {slots : List Slot}
    (shows : List.Forall₂ (Slot.Shows decode) slots entries)
    (decodes : ∀ entry ∈ entries, decode entry.offset = .ok entry.row →
      again entry.offset = .ok entry.row) : List.Forall₂ (Slot.Shows again) slots entries := by
  induction shows with
  | nil => exact .nil
  | cons here _ ih =>
    rw [List.forall_mem_cons] at decodes
    refine .cons ⟨here.offset, ?_⟩ (ih decodes.2)
    rcases here.row with known | ⟨unknown, decoded⟩
    · exact .inl known
    · exact .inr ⟨unknown, decodes.1 decoded⟩

namespace Leaf

theorem Shows.lookingUp (shows : leaf.Shows index entries)
    (finds : ∀ pos, ∀ row ∈ entries.map RowEntry.row,
      index.format.resolve pos = .ok row → resolve pos = .ok row) :
    leaf.Shows (index.lookingUp resolve) entries := by
  refine Slot.Shows.mono shows ?_
  intro entry member decoded
  rw [decodeAt] at decoded ⊢
  by_cases outside : entry.offset < leaf.start ∨ leaf.image.size ≤ entry.offset
  · rw [if_pos outside] at decoded
    cases decoded
  · rw [if_neg outside] at decoded ⊢
    exact RowFormat.read_of_finds decoded fun pos => finds pos _ (List.mem_map_of_mem member)

/-- The rows of a leaf are collected as before if each of them is found where it was. -/
theorem Collects.lookingUp (collects : leaf.Collects index rows)
    (finds : ∀ pos, ∀ row ∈ rows, index.format.resolve pos = .ok row → resolve pos = .ok row) :
    leaf.Collects (index.lookingUp resolve) rows := by
  obtain ⟨entries, shows, rfl⟩ := collects.shows
  exact (shows.lookingUp finds).collects

/-- A leaf of which the same rows are collected shows the same entries. -/
theorem Shows.of_collects (shows : leaf.Shows index entries)
    (collects : leaf.Collects other (entries.map RowEntry.row)) : leaf.Shows other entries := by
  obtain ⟨others, seen, rows⟩ := collects.shows
  have offsets : others.map RowEntry.offset = entries.map RowEntry.offset :=
    seen.offsets.symm.trans shows.offsets
  have injective : Function.Injective fun entry : RowEntry => (entry.offset, entry.row) := by
    rintro ⟨_, _⟩ ⟨_, _⟩ ⟨⟩
    rfl
  have same : others = entries := by
    apply injective.list_map
    rw [← List.zip_map', ← List.zip_map', offsets, rows]
  exact same ▸ seen

/-- A canonical leaf stays canonical where its rows are collected as before. -/
theorem Canonical.lookingUp (canonical : leaf.Canonical index entries)
    (collects : leaf.Collects (index.lookingUp resolve) (entries.map RowEntry.row)) :
    leaf.Canonical (index.lookingUp resolve) entries where
  image := canonical.image
  shows := canonical.shows.of_collects collects
  stacked := canonical.stacked
  clear := canonical.clear
  ascending := canonical.ascending
  distinct := canonical.distinct
  packed := canonical.packed
  drawn := canonical.drawn

end Leaf

end SlottedLeaf
