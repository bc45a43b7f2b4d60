import SlottedLeaf.Proofs.Endings
import SlottedLeaf.Proofs.Unstopped

/-!
# What is written is read again

On a tidy leaf the offsets fall, and none of them is in the header or in the offset table. Rows may
overlap each other then, repeat or stand in any order: whichever of them covers another in the
image, the header and the table stay in sight, and the image is read as a leaf of the same form.
Every leaf that was created or read is tidy, and stays so whatever is done with it.
-/

namespace SlottedLeaf

open RowEntry

variable {α β : Type} {index : Index} {leaf later : Leaf} {engine after : Engine}
  {entries before behind : List RowEntry} {row : Row}

/-! ## Edits of the end of an image -/

namespace Edit

/-- The edit keeps the length of an image, and what stands before an offset of it. -/
def Spares (limit : Nat) (edit : Edit α) : Prop :=
  ∀ page : Buffer, (edit.apply page).2.size = page.size ∧
    ∀ bytes : Bytes, bytes.length ≤ limit → page.Contains 0 bytes →
      (edit.apply page).2.Contains 0 bytes

variable {limit : Nat} {edit : Edit α} {next : α → Edit β}

theorem spares_pure (value : α) : (pure value : Edit α).Spares limit :=
  fun _ => ⟨rfl, fun _ _ contains => contains⟩

theorem Spares.bind (first : edit.Spares limit) (second : ∀ value, (next value).Spares limit) :
    (edit >>= next).Spares limit := by
  intro page
  obtain ⟨size, keeps⟩ := first page
  rw [apply_bind]
  rcases applied : edit.apply page with ⟨fault | value, middle⟩ <;> rw [applied] at size keeps
  · exact ⟨size, keeps⟩
  · obtain ⟨same, holds⟩ := second value middle
    exact ⟨same.trans size, fun bytes short contains =>
      holds bytes short (keeps bytes short contains)⟩

/-- What is written goes on the page at once, or not at all. -/
theorem bytes_cases (offset : Nat) (source : Bytes) (page : Buffer) :
    offset + source.length ≤ page.size ∧
        (bytes offset source).apply page = (.ok (), page.overwrite offset source) ∨
      ∃ fault, (bytes offset source).apply page = (.error fault, page) := by
  rw [apply_bytes_eq]
  by_cases far : addressLimit ≤ offset + source.length
  · rw [if_pos far]
    exact .inr ⟨_, rfl⟩
  rw [if_neg far]
  by_cases past : page.size < offset + source.length
  · rw [if_pos past]
    exact .inr ⟨_, rfl⟩
  · rw [if_neg past]
    exact .inl ⟨Nat.le_of_not_lt past, rfl⟩

theorem spares_bytes {offset : Nat} (above : limit ≤ offset) (source : Bytes) :
    (bytes offset source).Spares limit := by
  intro page
  rcases bytes_cases offset source page with ⟨_, written⟩ | ⟨fault, refused⟩
  · rw [written]
    exact ⟨Buffer.size_overwrite .., fun bytes short contains => contains.overwrite (by omega)⟩
  · rw [refused]
    exact ⟨rfl, fun _ _ contains => contains⟩

theorem Fills.spares {offset length : Nat} (fills : edit.Fills offset length)
    (above : limit ≤ offset) : edit.Spares limit := by
  intro page
  obtain ⟨_, source, _, _, written⟩ := fills page.size
  rw [written page rfl]
  exact ⟨Buffer.size_overwrite .., fun bytes short contains => contains.overwrite (by omega)⟩

/-- An edit in two steps that succeeds has succeeded in both. -/
theorem apply_bind_ok {page : Buffer} {answer : β}
    (succeeds : ((edit >>= next).apply page).1 = .ok answer) :
    ∃ value middle, edit.apply page = (.ok value, middle) ∧
      ((next value).apply middle).1 = .ok answer := by
  rw [apply_bind] at succeeds
  rcases applied : edit.apply page with ⟨fault | value, middle⟩ <;> rw [applied] at succeeds
  · cases succeeds
  · exact ⟨value, middle, rfl, succeeds⟩

end Edit

namespace Leaf

variable {limit : Nat} {page : Buffer}

theorem putRow_spares (form : RowForm) {offset : Nat} (above : limit ≤ offset) (row : Row) :
    (RowFormat.put form offset row).Spares limit := by
  refine .bind (Edit.spares_bytes above _) fun _ => ?_
  by_cases full : form = .full
  · rw [if_pos full]
    exact Edit.spares_bytes (Nat.le_trans above (Nat.le_add_right ..)) _
  · rw [if_neg full]
    exact Edit.spares_pure _

theorem putRows_spares (form : RowForm) (above : ∀ entry ∈ entries, limit ≤ entry.offset) :
    (putRows form (entries.map RowEntry.slot)).Spares limit := by
  induction entries with
  | nil => exact Edit.spares_pure ()
  | cons entry rest ih =>
    rw [List.forall_mem_cons] at above
    exact .bind (putRow_spares form above.1 entry.row) fun _ => ih above.2

theorem put_spares (index : Index) (leaf : Leaf) (entries : List RowEntry) :
    ((leaf.holding entries).put index).Spares 0 :=
  .bind ((Header.put_fills _).spares (Nat.zero_le _)) fun _ =>
    .bind ((OffsetTable.putFrom_fills 0 _).spares (Nat.zero_le _)) fun _ =>
      putRows_spares leaf.form fun _ _ => Nat.zero_le _

/-- A row that is put on a page starts on it. -/
theorem inside_of_putRow {form : RowForm} {offset : Nat}
    (puts : ((RowFormat.put form offset row).apply page).1 = .ok ()) : offset < page.size := by
  obtain ⟨_, middle, written, _⟩ := Edit.apply_bind_ok puts
  rcases Edit.bytes_cases offset (bigEndian positionLength row.pos.value.toNat) page with
    ⟨inside, _⟩ | ⟨fault, refused⟩
  · rw [length_bigEndian, positionLength] at inside
    omega
  · rw [Edit.field, refused] at written
    cases written

theorem inside_of_putRows {form : RowForm}
    (puts : ((putRows form (entries.map RowEntry.slot)).apply page).1 = .ok ()) :
    ∀ entry ∈ entries, entry.offset < page.size := by
  induction entries generalizing page with
  | nil => exact nofun
  | cons entry rest ih =>
    obtain ⟨_, middle, written, puts⟩ := Edit.apply_bind_ok puts
    have size := (putRow_spares form (Nat.zero_le entry.offset) entry.row page).1
    rw [written] at size
    refine List.forall_mem_cons.mpr ⟨inside_of_putRow (congrArg (·.1) written), ?_⟩
    rw [← size]
    exact ih puts

/-! ## Images that are read again -/

/-- The reserved page is written as a parent that a root has. -/
theorem header_bytes_eq (header : Header) : ∃ parent, parent ≠ some .reserved ∧
    header.bytes = { header with parent }.bytes := by
  refine ⟨PageId.ofParentField (PageId.toParentField header.parent),
    PageId.ofParentField_ne_reserved _, ?_⟩
  rw [Header.bytes, Header.bytes, PageId.toParentField_ofParentField]

/-- An image with a header and a table of falling offsets that are clear of both is read, whatever
its rows are. -/
theorem ofImage_of_contains (standard : index.Standard) (id : PageId) {image : Buffer}
    {header : Header} {offsets : List Nat} (sized : image.size = index.pageSize)
    (own : header.table = index.table) (count : header.count.toNat = offsets.length)
    (contains : image.Contains 0 (header.bytes ++ OffsetTable.bytes offsets))
    (room : header.offsetsEnd ≤ index.pageSize)
    (falls : (index.pageSize :: offsets).Pairwise (· ≥ ·))
    (clear : ∀ offset ∈ offsets, header.offsetsEnd ≤ offset)
    (inside : ∀ offset ∈ offsets, offset < index.pageSize) :
    ∃ loaded, ofImage index id image = .ok loaded ∧ loaded.form = header.form := by
  have small : image.size < addressLimit := sized ▸ standard.pageSize_lt
  have page := standard.pageSize_le
  have low : ∀ offset ∈ offsets, offset ≤ 65535 := by
    intro offset member
    have below := inside offset member
    omega
  obtain ⟨first, second⟩ := Buffer.contains_append.mp contains
  rw [Nat.zero_add, Header.length_bytes] at second
  obtain ⟨parent, unreserved, same⟩ := header_bytes_eq header
  rw [same] at first
  have decoded := Header.decode_of_contains _ first unreserved (sized ▸ room) small
  have table := OffsetTable.decode_of_contains low second
  have checked : checkOffsets header.offsetsEnd image.size image.size offsets = .ok () := by
    rw [sized]
    exact checkOffsets_ok_iff.mpr
      ⟨fun offset member => ⟨clear offset member, inside offset member⟩, falls⟩
  refine ⟨⟨id, parent, header.form, offsets.map (⟨·, none⟩), true, image⟩, ?_, rfl⟩
  rw [ofImage, if_neg (not_not_intro sized), decoded]
  simp only [bind, Except.bind, own, ne_eq, not_true, if_false, count, table]
  exact congrArg (fun outcome => Except.bind outcome fun _ => _) checked

/-- Where putting a leaf on a page succeeds, the header and the table stand there, and every row
starts on the page. -/
theorem put_contains (standard : index.Standard) {page : Buffer}
    (sized : page.size = index.pageSize)
    (stacked : Stacked (fun _ => 0) index.pageSize entries)
    (clear : headerLength + entryLength * entries.length ≤ lowest index.pageSize entries)
    (puts : (((leaf.holding entries).put index).apply page).1 = .ok ()) :
    (∀ entry ∈ entries, entry.offset < index.pageSize) ∧
      (((leaf.holding entries).put index).apply page).2.Contains 0
        ((leaf.header index entries).bytes ++ OffsetTable.bytes (entries.map RowEntry.offset)) := by
  have small : page.size < addressLimit := sized ▸ standard.pageSize_lt
  have limit := standard.pageSize_le
  have top := stacked.lowest_le
  have room : headerLength + entryLength * entries.length ≤ page.size := by omega
  have steps : (leaf.holding entries).put index = (do
      (leaf.header index entries).put
      OffsetTable.putFrom 0 (entries.map RowEntry.offset)
      putRows leaf.form (entries.map RowEntry.slot)) := by
    rw [put, count_holding, offsets_holding]
    rfl
  rw [steps, Edit.apply_bind, Header.put_apply _ (by omega) small] at puts ⊢
  simp only [Edit.apply_bind] at puts ⊢
  have length := Header.length_bytes (leaf.header index entries)
  have size := ((OffsetTable.putFrom_fills 0 (entries.map RowEntry.offset)).spares
    (Nat.zero_le _) (page.overwrite 0 (leaf.header index entries).bytes)).1
  rw [Buffer.size_overwrite] at size
  rcases tabled : (OffsetTable.putFrom 0 (entries.map RowEntry.offset)).apply
      (page.overwrite 0 (leaf.header index entries).bytes) with ⟨fault | _, middle⟩ <;>
    rw [tabled] at puts size
  · cases puts
  simp only at puts size ⊢
  have inside := inside_of_putRows puts
  rw [size, sized] at inside
  have low : ∀ offset ∈ entries.map RowEntry.offset, offset ≤ 65535 := by
    refine List.forall_mem_map.mpr ?_
    intro entry member
    have below := inside entry member
    omega
  rw [OffsetTable.putFrom_apply low (by
      rw [Buffer.size_overwrite, List.length_map, OffsetTable.entryOffset]; omega)
    (by rwa [Buffer.size_overwrite])] at tabled
  obtain rfl := (Prod.mk.inj tabled).2
  rw [Buffer.overwrite_overwrite _ (by rw [length, Nat.zero_add]; rfl)]
  -- The rows go on the page last, and all of them past the table.
  have ends : ((leaf.header index entries).bytes ++
      OffsetTable.bytes (entries.map RowEntry.offset)).length =
        headerLength + entryLength * entries.length := by
    rw [List.length_append, length, OffsetTable.length_bytes, List.length_map]
  have spares : (putRows leaf.form (entries.map RowEntry.slot)).Spares
      (headerLength + entryLength * entries.length) :=
    putRows_spares leaf.form fun _ member => Nat.le_trans clear (stacked.lowest_le_offset member)
  exact ⟨inside, (spares _).2 _ (Nat.le_of_eq ends)
    (Buffer.contains_overwrite _ (by rw [ends, Nat.zero_add]; exact room))⟩

/-! ## Tidy leaves -/

/-- The offsets of the leaf fall, and leave header and table alone; and if the leaf has not changed
since, its image is read as a leaf of the same form. -/
structure Tidy (index : Index) (leaf : Leaf) : Prop where
  image : leaf.image.size = index.pageSize
  falls : (index.pageSize :: leaf.offsets).Pairwise (· ≥ ·)
  clear : leaf.start ≤ leaf.lastOffset index
  shown : leaf.isDirty = false →
    ∃ loaded, ofImage index leaf.id leaf.image = .ok loaded ∧ loaded.form = leaf.form

/-- No row of a leaf is looked up to tell whether it is tidy. -/
theorem tidy_lookingUp {resolve : RowPos → Except Fault Row} :
    leaf.Tidy (index.lookingUp resolve) ↔ leaf.Tidy index :=
  ⟨fun tidy => ⟨tidy.image, tidy.falls, tidy.clear, tidy.shown⟩,
    fun tidy => ⟨tidy.image, tidy.falls, tidy.clear, tidy.shown⟩⟩

namespace Decodes

variable {n : Nat} (decodes : leaf.Decodes index n later)

include decodes

theorem lastOffset : later.lastOffset index = leaf.lastOffset index := by
  rw [Leaf.lastOffset, decodes.offsets, decodes.count, Leaf.lastOffset]

theorem fits (length : Nat) : later.fits index length = leaf.fits index length := by
  rw [Leaf.fits, decodes.start, decodes.lastOffset, Leaf.fits]

theorem tidy (tidy : leaf.Tidy index) : later.Tidy index := by
  refine ⟨?_, ?_, ?_, ?_⟩
  · rw [decodes.samePage.image]
    exact tidy.image
  · rw [decodes.offsets]
    exact tidy.falls
  · rw [decodes.start, decodes.lastOffset]
    exact tidy.clear
  · rw [decodes.isDirty, decodes.id, decodes.form, decodes.samePage.image]
    exact tidy.shown

end Decodes

namespace Tidy

theorem stacked (tidy : (leaf.holding entries).Tidy index) :
    Stacked (fun _ => 0) index.pageSize entries := by
  rw [stacked_zero_iff, ← offsets_holding]
  exact tidy.falls

theorem clear_lowest (tidy : (leaf.holding entries).Tidy index) :
    headerLength + entryLength * entries.length ≤ lowest index.pageSize entries := by
  have clear := tidy.clear
  rwa [start_holding, (Shows.of_holding leaf entries).lastOffset] at clear

theorem of_changed (image : leaf.image.size = index.pageSize)
    (stacked : Stacked (fun _ => 0) index.pageSize entries)
    (clear : headerLength + entryLength * entries.length ≤ lowest index.pageSize entries) :
    (leaf.changed entries).Tidy index := by
  refine ⟨image, ?_, ?_, nofun⟩
  · rw [show (leaf.changed entries).offsets = entries.map RowEntry.offset from
      offsets_holding leaf entries]
    exact stacked_zero_iff.mp stacked
  · rw [start_changed, (Shows.of_changed leaf entries).lastOffset]
    exact clear

theorem create (standard : index.Standard) (id : PageId) (parent : Option PageId) (form : RowForm) :
    (create index id parent form).Tidy index := by
  have changed : ((Leaf.create index id parent form).changed []).Tidy index :=
    of_changed Array.size_replicate trivial (Nat.le_trans (by decide) standard.le_pageSize)
  exact changed

end Tidy

/-- A leaf is tidy when it was read, whatever the image. -/
theorem tidy_of_ofImage (standard : index.Standard) {id : PageId} {image : Buffer}
    (shown : ofImage index id image = .ok leaf) : leaf.Tidy index := by
  have steady := steady_of_ofImage shown
  refine ⟨steady.image, steady.falls, ?_, ?_⟩
  · rw [lastOffset]
    cases listed : leaf.count with
    | zero => exact steady.start_le standard
    | succ last =>
      have inside : last < leaf.offsets.length := by
        rw [offsets, List.length_map, ← count, listed]
        exact Nat.lt_succ_self last
      rw [OffsetTable.ceiling, List.getElem?_eq_getElem inside]
      exact steady.clear _ (List.getElem_mem inside)
  · obtain ⟨_, _, _, _, _, _, _, same⟩ := ofImage_ok shown
    intro _
    refine ⟨leaf, ?_, rfl⟩
    rw [same] at shown ⊢
    exact shown

/-! ## Tidy leaves stay tidy -/

theorem Placing.tidy {outcome : Except Fault Unit}
    (places : Placing index leaf before behind row engine outcome later after)
    (tidy : (leaf.holding (before ++ behind)).Tidy index)
    (fits : (leaf.holding (before ++ behind)).fits index (index.format.size leaf.form row)) :
    later.Tidy index := by
  rw [(Shows.of_holding leaf (before ++ behind)).fits_iff, start_holding] at fits
  have placed : (leaf.changed (insertBetween index.pageSize (index.format.size leaf.form row) row
      before behind)).Tidy index := by
    refine .of_changed tidy.image (tidy.stacked.insertBetween_of_le (Nat.zero_le _) (by omega)) ?_
    rw [length_insertBetween, lowest_insertBetween, Nat.mul_succ]
    omega
  cases places with
  | unmoved => exact tidy
  | unsound cause => exact placed
  | unnoted store => exact placed
  | placed store => exact placed

/-- A row at most takes little room once it is position-only. -/
theorem tidy_compacted (standard : index.Standard) (image : leaf.image.size = index.pageSize)
    {rows : List Row} (few : rows.length ≤ 1) :
    (leaf.compacted.holding (pack (index.format.size .positionOnly) index.pageSize rows)).Tidy
      index := by
  have packed := packed_of_few standard few
  have used := packed.room_eq
  have room := room_of_few standard few
  rw [rows_pack] at used
  have changed : (({ leaf with form := .positionOnly } : Leaf).changed
      (pack (index.format.size .positionOnly) index.pageSize rows)).Tidy index := by
    refine .of_changed image packed.stacked.zero ?_
    rw [length_pack]
    simp only [headerLength, entryLength]
    omega
  exact changed

theorem Tries.tidy {outcome : Except Fault Insertion}
    (tries : leaf.Tries index row engine outcome later after) (standard : index.Standard)
    (tidy : leaf.Tidy index) : later.Tidy index := by
  have few_rows {entries : List RowEntry} (few : entries.length ≤ 1) :
      (entries.map RowEntry.row).length ≤ 1 := by rwa [List.length_map]
  cases tries with
  | undecoded decodes _ => exact decodes.tidy tidy
  | refused decodes => exact decodes.tidy tidy
  | signalled decodes _ _ => exact decodes.tidy tidy
  | fitted decodes fits places =>
    exact places.tidy (decodes.tidy tidy) ((decodes.fits _).trans fits)
  | stuck _ _ few large =>
    have room := room_of_few standard (few_rows few)
    rw [packSlots_eq (by omega)] at large
    cases large
  | crowded _ _ few => exact tidy_compacted standard tidy.image (few_rows few)
  | compacted _ _ few packed fits places =>
    refine places.tidy ?_ fits
    rw [packed]
    exact tidy_compacted standard tidy.image (few_rows few)

theorem Takes.tidy {slot : Nat} {outcome : Except Fault Unit}
    (takes : leaf.Takes index slot engine outcome later after) (tidy : leaf.Tidy index) :
    later.Tidy index := by
  have taken {n : Nat} {before behind : List RowEntry} {entry : RowEntry}
      (decodes : leaf.Decodes index n (leaf.holding (before ++ entry :: behind))) :
      (leaf.changed (removeBetween index.pageSize before entry behind)).Tidy index := by
    have held := decodes.tidy tidy
    have clear := held.clear_lowest
    rw [List.length_append, List.length_cons] at clear
    refine .of_changed tidy.image held.stacked.removeBetween ?_
    rw [length_removeBetween, lowest_removeBetween held.stacked]
    simp only [headerLength, entryLength] at clear ⊢
    omega
  cases takes with
  | undecoded decodes _ => exact decodes.tidy tidy
  | kept decodes _ => exact decodes.tidy tidy
  | unsound _ decodes _ _ _ => exact taken decodes
  | taken decodes _ _ _ => exact taken decodes

/-- A leaf that was written to an image is tidy: the image is read again. -/
theorem Saves.tidy {outcome : Except Fault Unit}
    (saves : leaf.Saves index engine outcome later after) (standard : index.Standard)
    (tidy : leaf.Tidy index) : later.Tidy index := by
  have sized {entries : List RowEntry} : (leaf.drawn index entries).image.size = index.pageSize :=
    ((put_spares index leaf entries _).1.trans Array.size_replicate).trans tidy.image
  cases saves with
  | clean _ => exact tidy
  | undrawn _ decodes => exact decodes.tidy tidy
  | refused dirty decodes =>
    have held := decodes.tidy tidy
    refine ⟨sized, held.falls, held.clear, ?_⟩
    intro clean
    rw [show (leaf.drawn index _).isDirty = leaf.isDirty from rfl, dirty] at clean
    cases clean
  | @taken n entries store dirty decodes few puts takes =>
    have held := decodes.tidy tidy
    refine ⟨sized, held.falls, held.clear, fun _ => ?_⟩
    have blank : (Buffer.zeros leaf.image.size).size = index.pageSize :=
      Array.size_replicate.trans tidy.image
    obtain ⟨inside, contains⟩ := put_contains standard blank held.stacked held.clear_lowest puts
    have count : (leaf.header index entries).count.toNat =
        (entries.map RowEntry.offset).length := by
      rw [header, UInt16.toNat_ofNat', List.length_map]
      omega
    have ends : (leaf.header index entries).offsetsEnd =
        headerLength + entryLength * entries.length := by
      rw [Header.offsetsEnd, count, List.length_map]
    refine ofImage_of_contains standard leaf.id sized rfl count contains ?_ ?_ ?_ ?_
    · rw [ends]
      exact Nat.le_trans held.clear_lowest held.stacked.lowest_le
    · exact stacked_zero_iff.mp held.stacked
    · rw [ends]
      exact List.forall_mem_map.mpr fun entry member =>
        Nat.le_trans held.clear_lowest (held.stacked.lowest_le_offset member)
    · exact List.forall_mem_map.mpr inside

end Leaf

end SlottedLeaf
