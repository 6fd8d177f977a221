import DedupImage.Proofs.Image.Acceptance
import DedupImage.Proofs.Image.RoundTrip

/-!
# The writer and the reader agree

A writer works out positions as it goes along, and decides on the format of the block table once it has
tried to pack all locations. A reader has only what the superblock says. They agree on all of it: an
image that was written to an empty medium opens, and what the reader shows is what was written
(`ImageReader.Presents`, `written_image_is_presented`), in either layout and either format, and also
where the sizes allow packing but some location does not pack.

No two writes touch each other (`ImageScript.writes_apart`), and the medium ends where the last record
does (`ImageScript.size_of_run`).
-/

namespace DedupImage

open Medium ImageReader

variable {layout : ImageLayout} {codec : Codec} {containers : List ByteArray}
  {locations : List Location} {m m' : Medium} {written : WrittenImage}

/-! ## All writes of an image -/

namespace ImageScript

/-- The writes of the records, and of the superblock behind them. -/
def writes (s : ImageScript) : List PositionedWrite :=
  match s.closing with
  | .error _ => s.records
  | .ok (superblock, _) => s.records ++ [⟨0, superblock.bytes⟩]

/-- These are the writes that a run makes. -/
theorem writeEach_writes {s : ImageScript} (h : s.run m = (.ok written, m')) :
    m.writeEach s.writes = (.ok (), m') := by
  obtain ⟨superblock, before, hclosing, heach, hlast⟩ := run_eq_ok h
  unfold writes
  rw [hclosing]
  exact writeEach_append_singleton heach hlast

/-- **No two writes touch each other**, neither those of records nor that of the superblock. -/
theorem writes_apart {superblock : Superblock}
    (h : (of layout codec containers locations).closing = .ok (superblock, written)) :
    (of layout codec containers locations).writes.Pairwise Apart := by
  obtain ⟨format, table, packed, hmade, -, -, hrecords, -, -, -⟩ := of_eq_ok h
  have hascending := imageRecords_ascending hmade packed
  unfold writes
  rw [h]
  dsimp only
  rw [hrecords]
  refine List.pairwise_append.mpr ⟨hascending.apart, List.pairwise_singleton _ _, ?_⟩
  intro w hw last hlast
  obtain rfl := List.mem_singleton.mp hlast
  right
  rw [PositionedWrite.stop, Superblock.size_bytes, Nat.zero_add]
  exact (hascending.mem hw).1

/-- **A medium that was empty ends where the image does.** -/
theorem size_of_run (hempty : m.bytes = ByteArray.empty)
    (h : (of layout codec containers locations).run m = (.ok written, m')) :
    m'.bytes.size = written.bytesUsed := by
  obtain ⟨superblock, before, hclosing, heach, hlast⟩ := run_eq_ok h
  obtain ⟨format, table, packed, hmade, -, -, hrecords, -, hused, -⟩ := of_eq_ok hclosing
  have hascending := imageRecords_ascending hmade packed
  rw [hrecords] at heach
  rw [← Nat.add_assoc] at hused
  rw [hused]
  apply Nat.le_antisymm
  · have hbefore := writeEach_size_le heach (by rw [hempty]; exact Nat.zero_le _)
      fun w hw => (hascending.mem hw).2
    apply writeAll_size_le hlast hbefore
    rw [PositionedWrite.stop, Superblock.size_bytes, Nat.zero_add]
    exact hascending.low_le
  · obtain ⟨hstored, -⟩ := writeEach_stored hascending heach
    obtain ⟨-, hkept⟩ := writeAll_stored hlast
    have hall : ∀ w ∈ recordWrites (tableStart layout codec containers) packed,
        0 < w.data.size → w.stop ≤ m'.bytes.size := by
      intro w hw
      have hw := List.mem_append_right
        (containerRecords layout codec 0 containerTableStart containers).writes hw
      refine (hkept w (.inr ?_) (hstored w hw)).stop_le
      rw [PositionedWrite.stop, Superblock.size_bytes, Nat.zero_add]
      exact (hascending.mem hw).1
    have hheader := hall _ List.mem_cons_self
    have hdata := hall _ (List.mem_cons_of_mem _ List.mem_cons_self)
    simp only [PositionedWrite.stop, size_numberBytes] at hheader hdata
    have hheader := hheader (by decide)
    -- a record of no bytes is only its length
    by_cases hnone : packed.size = 0
    · omega
    · exact hdata (Nat.pos_of_ne_zero hnone)

end ImageScript

/-! ## What a reader shows -/

/-- A reader shows what was written as an image. -/
structure ImageReader.Presents (r : ImageReader) (layout : ImageLayout) (codec : Codec)
    (containers : List ByteArray) (locations : List Location) (written : WrittenImage) : Prop where
  blockCount : r.table.size = locations.length
  containerCount : r.containerCount = containers.length
  location : ∀ b, r.location? b = locations[b.number.toNat]?
  /-- At any time every container is given, whatever was read before and whatever the cache keeps. -/
  container : ∀ calls i data, containers[i]? = some data →
    ((r.afterCalls calls).container i).1 = .ok data
  /-- Every record has the compressed bytes of its container. -/
  records : List.Forall₂ (RecordOf codec r.bytes) r.records.toList containers
  sparse : r.flags.sparse = layout.sparse
  packed : r.flags.packed = written.packedLocators
  /-- The table is packed if its size allows it and every location packs. -/
  packed_iff : written.packedLocators = true ↔
    LocatorFormat.choose layout.packLocators layout.containerSize.toUInt32
        containers.length.toUInt32 = .packed layout.containerSize.toUInt32 ∧
      ∀ l ∈ locations,
        ((LocatorFormat.packed layout.containerSize.toUInt32).encode l).isSome = true
  /-- The record of the block table has the locations in the format of the flags. -/
  table : ∃ table packed,
    (if r.flags.packed then .packed layout.containerSize.toUInt32
      else LocatorFormat.unpacked).pushAll ByteArray.empty locations = some table ∧
    codec.compressInto table = .ok packed ∧
    exactly r.bytes (r.superblock.blockTableStart.toNat + recordHeaderSize) packed.size = .ok packed
  bytesUsed : written.bytesUsed = r.bytes.size
  announced : r.superblock.bytesUsed.toNat = r.bytes.size

/-- **The reader shows what the writer wrote.** Let the codec give back what it compressed, the medium be
empty, and the containers and locations fit the layout. If all writes succeed, and the sizes of records
are words of 32 bits, the image opens, is sound, and has the blocks, containers, flags and size that
were written. The writes are apart from each other, and it makes no difference in which batches the containers
were compressed. -/
theorem written_image_is_presented (codecs : Scheme → Codec) (hcodecs : codecs codec.scheme = codec)
    (hcodec : codec.Restores) (hfits : ImageFits layout codec containers locations)
    (hmedium : m.Bounded) (hempty : m.bytes = ByteArray.empty)
    (hrun : (ImageScript.of layout codec containers locations).run m = (.ok written, m'))
    (hsizes : ∀ w ∈ (ImageScript.of layout codec containers locations).records,
      w.data.size < 2 ^ 32) :
    (∃ r, openImage codecs m'.bytes = .ok r ∧ r.bytes = m'.bytes ∧ r.Sound ∧
      r.Presents layout codec containers locations written) ∧
    m.writeEach (ImageScript.of layout codec containers locations).writes = (.ok (), m') ∧
    (ImageScript.of layout codec containers locations).writes.Pairwise Apart ∧
    ∀ batches, batches.flatten = containers →
      batchRecords layout codec 0 containerTableStart batches =
        containerRecords layout codec 0 containerTableStart containers := by
  obtain ⟨superblock, before, hclosing, -, -⟩ := ImageScript.run_eq_ok hrun
  obtain ⟨format, table, packed, hholds⟩ := holdsImage_of_run hmedium hrun hsizes
  have hwhole := ImageScript.size_of_run hempty hrun
  -- the script and the medium have the same table
  have hwritten : written.bytesUsed =
        tableStart layout codec containers + (recordHeaderSize + packed.size) ∧
      written.packedLocators = decide (format ≠ .unpacked) := by
    obtain ⟨format', table', packed', -, htable, hpacked, -, -, hused, hflag⟩ :=
      ImageScript.of_eq_ok hclosing
    rw [hholds.encoded] at htable
    obtain ⟨rfl, rfl⟩ := Prod.mk.inj (Option.some.inj htable)
    rw [hholds.compressed] at hpacked
    obtain rfl := Except.ok.inj hpacked
    exact ⟨hused, hflag⟩
  obtain ⟨hused, hflag⟩ := hwritten
  have hstop := hholds.stop_lt
  obtain ⟨hpushed, hformat⟩ := blockTable_format hholds.encoded
  obtain ⟨records, hopen, hall⟩ := openImage_eq_of_holds hholds hfits hcodec hcodecs
  obtain ⟨opened, hopened, hserves⟩ := openImage_of_holds hholds hfits hcodec hcodecs
  obtain rfl := Except.ok.inj (hopen.symm.trans hopened)
  refine ⟨⟨_, hopen, rfl, openImage_sound hopen, ?_⟩, ImageScript.writeEach_writes hrun,
    ImageScript.writes_apart hclosing, fun batches hbatches => by rw [batchRecords_eq, hbatches]⟩
  have hstart : (tableStart layout codec containers).toUInt64.toNat =
      tableStart layout codec containers := toNat_toUInt64 (by omega)
  refine
    { blockCount := List.size_toArray
      containerCount := hall.length_eq
      location := fun b => List.getElem?_toArray
      container := fun calls i => ((hserves.afterCalls calls).container i).2
      records := hall
      sparse := rfl
      packed := hflag.symm
      packed_iff := by
        rw [hflag, decide_eq_true_eq]
        exact blockTable_packed_iff hholds.encoded
      table := ⟨table, packed, by rw [hformat]; exact hpushed, hholds.compressed, ?_⟩
      bytesUsed := hwhole.symm
      announced := ?_ }
  · show exactly m'.bytes ((tableStart layout codec containers).toUInt64.toNat + _) _ = _
    rw [hstart]
    exact exactly_of_record hholds.tableRecord
  · show (tableStart layout codec containers + (recordHeaderSize + packed.size)).toUInt64.toNat = _
    rw [toNat_toUInt64 hstop, hwhole, hused]

/-- Three containers so large that their number of bytes is just above 2^32. -/
def wideLayout : ImageLayout := ⟨2, 1431655766, true, false, 0⟩

/-- The last location of the last container. -/
def wideLocations : List Location := [⟨0, 1⟩, ⟨2, 1431655765⟩]

/-- The largest offset times the number of containers is below 2^32, so packing is tried; but the last
location does not pack, and the table is unpacked. -/
theorem wide_image_is_presented :
    LocatorFormat.choose true 1431655766 3 = .packed 1431655766 ∧
      ∃ m', ∃ r, openImage storedCodec m' = .ok r ∧ r.flags.packed = false ∧
        r.location? ⟨1⟩ = some ⟨2, 1431655765⟩ := by
  have hfits : ImageFits wideLayout (storedCodec .zstd) [⟨#[1, 2]⟩, ⟨#[]⟩, ⟨#[3]⟩] wideLocations :=
    ⟨rfl, by decide, by decide, by decide, by decide, by decide, by decide⟩
  have hrun : ((ImageScript.of wideLayout (storedCodec .zstd) [⟨#[1, 2]⟩, ⟨#[]⟩, ⟨#[3]⟩]
      wideLocations).run (.limited 1000)).1 = .ok ⟨3, 3, 107, false⟩ := by rfl
  obtain ⟨⟨r, hopen, -, -, hpresents⟩, -⟩ := written_image_is_presented storedCodec rfl
    (storedCodec_restores .zstd) hfits (Medium.limited_bounded (by decide)) rfl
    (Prod.ext hrun rfl) (by decide)
  exact ⟨by decide, _, r, hopen, hpresents.packed, hpresents.location ⟨1⟩⟩

end DedupImage
