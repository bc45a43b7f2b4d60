import SlottedLeaf.Proofs.Altering

/-!
# A machine writes steady leaves

The page of a leaf is rendered field by field and row by row into an image of zeros, and handed to
the store. A machine makes the same edits one after the other, so that an edit that fails leaves
both images alike.
-/

namespace SlottedLeaf

open Machine RawCall RowEntry

variable {α β : Type} {index : Index} {leaf : Leaf} {entries : List RowEntry}

/-! ## Editing images -/

/-- Whatever the image, the machine edits it as the edit says, and the image keeps its size. -/
def RawCall.Edits (raw : RawCall α) (change : Edit α) (leaf : RawLeaf) : Prop :=
  ∀ (image : Buffer) engine, (change.apply image).2.size = image.size ∧
    raw.on { leaf with image } engine =
      some (((change.apply image).1, { leaf with image := (change.apply image).2 }), engine)

namespace RawCall.Edits

variable {raw : RawCall α} {change : Edit α} {rawNext : α → RawCall β} {next : α → Edit β}
  {held : RawLeaf} {γ : Type} {value : γ} {answer : Option γ} {rest : γ → RawCall α}

theorem of_pure (value : α) : (pure value : RawCall α).Edits (pure value) held :=
  fun _ _ => ⟨rfl, rfl⟩

theorem of_throw (fault : Fault) : (throw fault : RawCall α).Edits (throw fault) held :=
  fun _ _ => ⟨rfl, rfl⟩

theorem of_bytes (offset : Nat) (source : Bytes) :
    (RawCall.edit (Edit.bytes offset source)).Edits (Edit.bytes offset source) held := by
  refine fun image engine => ⟨?_, rfl⟩
  show (if addressLimit ≤ offset + source.length then _
    else if image.size < offset + source.length then _
    else (.ok (), image.overwrite offset source) : Except Fault Unit × Buffer).2.size = image.size
  split
  · rfl
  · split
    · rfl
    · exact Buffer.size_overwrite ..

theorem bind (first : raw.Edits change held)
    (second : ∀ value, (rawNext value).Edits (next value) held) :
    (raw >>= rawNext).Edits (change >>= next) held := by
  intro image engine
  obtain ⟨size, run⟩ := first image engine
  rw [Edit.apply_bind, on_bind, run]
  rcases applied : change.apply image with ⟨fault | value, middle⟩
  · rw [applied] at size
    exact ⟨size, rfl⟩
  · rw [applied] at size
    obtain ⟨same, more⟩ := second value middle engine
    exact ⟨same.trans size, more⟩

theorem of_sure (known : answer = some value) (edits : (rest value).Edits change held) :
    (sure answer >>= rest).Edits change held := by
  intro image engine
  rw [on_sure_bind _ _ known]
  exact edits image engine

theorem of_look {rest : RawLeaf → RawCall α} {next : Buffer → Edit α}
    (edits : ∀ image, (rest { held with image }).Edits (next image) held) :
    (get >>= rest).Edits (get >>= next) held := by
  intro image engine
  rw [on_get_bind, Edit.apply_bind, Edit.apply_get]
  exact edits image image engine

end RawCall.Edits

namespace Machine

theorem putHeader_edits (header : Header) (leaf : RawLeaf) :
    (RawLeaf.putHeader header).Edits header.put leaf := by
  refine .bind (.of_bytes _ _) fun _ => .of_look fun image => ?_
  by_cases cut : image.size ≤ Header.typeOffset
  · rw [if_pos cut, if_pos cut]
    exact .of_throw _
  · rw [if_neg cut, if_neg cut]
    exact .bind (.of_bytes _ _) fun _ => .bind (.of_bytes _ _) fun _ => .of_bytes _ _

theorem putOffsets_edits {slot : Nat} {offsets : List Nat}
    (few : headerLength + entryLength * (slot + offsets.length) ≤ maxPageSize) (leaf : RawLeaf) :
    (RawLeaf.putOffsets slot offsets).Edits (OffsetTable.putFrom slot offsets) leaf := by
  have limit : addressLimit = 2 ^ 64 := rfl
  induction offsets generalizing slot with
  | nil => exact .of_pure _
  | cons offset rest ih =>
    simp only [List.length_cons, headerLength, entryLength, maxPageSize] at few ih
    rw [RawLeaf.putOffsets, OffsetTable.putFrom]
    by_cases large : 65535 < offset
    · rw [if_pos large, if_pos large]
      exact .of_throw _
    rw [if_neg large, if_neg large]
    refine .of_sure (mul_eq (by simp only [entryLength]; omega))
      (.of_sure (add_eq (by simp only [entryLength, headerLength]; omega)) ?_)
    exact .bind (.of_bytes _ _) fun _ => ih (by omega)

theorem putRow_edits (standard : index.Standard) {row : Row} (storable : row.Storable)
    (form : RowForm) {offset : Nat} (small : offset ≤ maxPageSize) (leaf : RawLeaf) :
    (RawLeaf.putRow index form offset row).Edits (RowFormat.put form offset row) leaf := by
  have limit : addressLimit = 2 ^ 64 := rfl
  obtain ⟨measured, _⟩ := rowSize_eq standard storable form
  refine .bind (.of_bytes _ _) fun _ => ?_
  by_cases full : form = .full
  · rw [if_pos full, if_pos full]
    refine .of_sure measured (.of_sure (sub_eq (standard.le_size form row))
      (.of_sure (keyTag_eq storable) (.of_sure (add_eq ?_) (.of_bytes _ _))))
    simp only [maxPageSize] at small
    simp only [positionLength]
    omega
  · rw [if_neg full, if_neg full]
    exact .of_pure _

theorem putRows_edits (hosted : index.Hosted) (steady : (leaf.holding entries).Steady index)
    {done rest : List RowEntry} (split : entries = done ++ rest) (held : RawLeaf) :
    (RawLeaf.putRows index leaf.form (entries.map fun entry => some entry.row) done.length
      (rest.map RowEntry.offset)).Edits (Leaf.putRows leaf.form (rest.map RowEntry.slot)) held := by
  induction rest generalizing done with
  | nil => exact .of_pure _
  | cons entry rest ih =>
    have here : (entries.map fun entry => some entry.row)[done.length]? =
        some (some entry.row) := by
      simp [split]
    have member : entry ∈ entries := by simp [split]
    have low : entry.offset ≤ index.pageSize := steady.stacked.offset_le member
    have more := ih (split.trans (List.append_cons ..))
    rw [List.length_append] at more
    exact .of_sure here (.bind (putRow_edits hosted.toStandard
      (steady.rows_storable entry.row (List.mem_map_of_mem member)) leaf.form
      (Nat.le_trans low hosted.pageSize_le) _) fun _ => more)

/-- Rendering is followed. Where it fails, both images show what was put before. -/
theorem render_follows (hosted : index.Hosted) (steady : leaf.Steady index) :
    Follows index id (RawLeaf.render index) (Leaf.render index) leaf fun _ _ => True := by
  refine .bind (load_follows hosted steady) ?_
  rintro _ _ steady ⟨entries, rfl, length⟩
  refine .get ?_
  rw [Leaf.length_raw]
  refine .ite Iff.rfl (fun _ => .of_throw steady _) fun _ => ?_
  have few := steady.count_le hosted.toStandard
  rw [Leaf.count_holding, ← List.length_map RowEntry.offset] at few
  have offsets : (leaf.holding entries).raw.offsets = entries.map RowEntry.offset := by
    rw [raw_holding]
  have rows : (leaf.holding entries).raw.rows = entries.map fun entry => some entry.row := by
    rw [raw_holding]
  have edits : (do
      RawLeaf.putHeader ⟨leaf.parent, leaf.form, index.table,
        UInt16.ofNat (leaf.holding entries).count⟩
      RawLeaf.putOffsets 0 (leaf.holding entries).raw.offsets
      RawLeaf.putRows index leaf.form (leaf.holding entries).raw.rows 0
        (leaf.holding entries).raw.offsets).Edits
      ((leaf.holding entries).put index) (leaf.holding entries).raw := by
    refine .bind (putHeader_edits _ _) fun _ => .bind ?_ fun _ => ?_
    · rw [offsets, Leaf.offsets_holding]
      exact putOffsets_edits (by rwa [Nat.zero_add]) _
    · rw [offsets, rows]
      exact putRows_edits hosted steady (List.nil_append entries).symm _
  intro engine
  obtain ⟨size, run⟩ := edits (.zeros leaf.image.size) engine
  rw [LeafCall.on_set_bind, LeafCall.on_ofExcept, on_modify_bind]
  refine ⟨_, _, _, rfl, run.trans ?_, ?_, fun _ _ => trivial⟩
  · have same : (((leaf.holding entries).put index).apply (.zeros leaf.image.size)).1.map id =
        (((leaf.holding entries).put index).apply (.zeros leaf.image.size)).1 := by
      cases (((leaf.holding entries).put index).apply (.zeros leaf.image.size)).1 <;> rfl
    exact congrArg (fun outcome => some ((outcome, _), engine)) same.symm
  · refine ⟨?_, steady.falls, steady.clear, steady.storable⟩
    exact size.trans (Array.size_replicate.trans steady.image)

theorem write_follows (hosted : index.Hosted) (steady : leaf.Steady index) :
    Follows index id (RawLeaf.write index) (Leaf.write index) leaf fun _ _ => True := by
  refine .get ?_
  cases written : leaf.written with
  | true =>
    rw [show leaf.raw.written = true from written, Leaf.isDirty, written]
    exact .of_pure steady trivial
  | false =>
    rw [show leaf.raw.written = false from written, Leaf.isDirty, written]
    refine .bind (render_follows hosted steady) ?_
    rintro _ rendered steady -
    refine .get (.engine steady _ fun _ => ?_)
    rw [Leaf.length_raw]
    have clean : ({ rendered with written := true } : Leaf).Steady index :=
      ⟨steady.image, steady.falls, steady.clear, steady.storable⟩
    refine .becomes (on_modify _ · _) (LeafCall.on_set _ · _) (.engine clean _ fun _ => ?_)
    exact (Follows.of_engine clean _).imp fun _ _ _ => trivial

end Machine

end SlottedLeaf
