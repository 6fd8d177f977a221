import DedupImage.Proofs.Image.Reading
import DedupImage.Proofs.Image.Records

/-!
# A written image opens

If all writes of an image succeed, the medium holds the image (`holdsImage_of_run`). It may have held
anything before, for everything that a reader looks at is written, and the superblock, which is written
last, is apart from all records.

A medium that holds an image opens, and the reader serves the containers and locations that the image
was made from (`openImage_of_holds`). For that the numbers in the image have to fit their words.
-/

namespace DedupImage

open Medium ImageReader

variable {layout : ImageLayout} {codec : Codec} {containers : List ByteArray}
  {locations : List Location} {m m' : Medium} {written : WrittenImage}

/-! ## The block table -/

/-- A table that was made from locations is decoded to them. -/
theorem decodeTable_eq {format : LocatorFormat} {out table : ByteArray} {ls : List Location} {n : Nat}
    (h : format.pushAll out ls = some table) (hcontainers : ∀ l ∈ ls, l.container.toNat < n)
    (decoded : Array Location) :
    decodeTable format n table out.size decoded ls.length = .ok (decoded ++ ls) := by
  induction ls generalizing out decoded with
  | nil => simp [decodeTable]
  | cons l ls ih =>
    obtain ⟨locator, hl, hrest⟩ := LocatorFormat.pushAll_cons h
    obtain ⟨tail, htail, -⟩ := LocatorFormat.pushAll_append hrest
    have hread : format.readAt table out.size = some locator := by
      rw [htail]
      exact LocatorFormat.readAt_push hl out tail
    have hcontainer : ¬ n ≤ l.container.toNat := Nat.not_le.mpr (hcontainers l List.mem_cons_self)
    have hnext := ih hrest (fun l' hl' => hcontainers l' (List.mem_cons_of_mem l hl')) (decoded.push l)
    rw [LocatorFormat.size_push hl] at hnext
    rw [List.length_cons, decodeTable]
    simp only [hread, LocatorFormat.decode_encode hl, if_neg hcontainer, hnext]
    simp

/-- A block table can always be written: where not all locations pack, unpacked locators are left. -/
theorem exists_blockTable (layout : ImageLayout) (count : Nat) (locations : List Location) :
    ∃ format table, blockTable layout count locations = some (format, table) := by
  unfold blockTable
  dsimp only
  split
  · exact ⟨_, _, rfl⟩
  · obtain ⟨table, htable⟩ := LocatorFormat.unpacked_pushAll ByteArray.empty locations
    rw [htable]
    exact ⟨_, _, rfl⟩

/-- The table is in the format that is announced, packed with the container size or unpacked. -/
theorem blockTable_format {count : Nat} {format : LocatorFormat} {table : ByteArray}
    (h : blockTable layout count locations = some (format, table)) :
    format.pushAll ByteArray.empty locations = some table ∧
      (if decide (format ≠ .unpacked) then .packed layout.containerSize.toUInt32 else .unpacked) =
        format := by
  unfold blockTable at h
  dsimp only at h
  split at h
  · rename_i table' htable
    obtain ⟨rfl, rfl⟩ := Prod.mk.inj (Option.some.inj h)
    refine ⟨htable, ?_⟩
    rcases LocatorFormat.choose_cases layout.packLocators layout.containerSize.toUInt32
      count.toUInt32 with hc | hc <;> simp [hc]
  · obtain ⟨table', htable, heq⟩ := Option.map_eq_some_iff.mp h
    obtain ⟨rfl, rfl⟩ := Prod.mk.inj heq
    exact ⟨htable, by simp⟩

/-- The table is packed if packing is chosen and every location does pack. -/
theorem blockTable_packed_iff {count : Nat} {format : LocatorFormat} {table : ByteArray}
    (h : blockTable layout count locations = some (format, table)) :
    format ≠ .unpacked ↔
      LocatorFormat.choose layout.packLocators layout.containerSize.toUInt32 count.toUInt32 =
          .packed layout.containerSize.toUInt32 ∧
        ∀ l ∈ locations,
          ((LocatorFormat.packed layout.containerSize.toUInt32).encode l).isSome = true := by
  unfold blockTable at h
  dsimp only at h
  split at h
  · rename_i table' htable
    obtain ⟨rfl, rfl⟩ := Prod.mk.inj (Option.some.inj h)
    rcases LocatorFormat.choose_cases layout.packLocators layout.containerSize.toUInt32
      count.toUInt32 with hc | hc
    · rw [hc] at htable ⊢
      have hall := (LocatorFormat.pushAll_isSome _ _ _).mp (Option.isSome_of_eq_some htable)
      exact iff_of_true (fun hne => nomatch hne) ⟨rfl, hall⟩
    · simp [hc]
  · rename_i hnone
    obtain ⟨table', htable, heq⟩ := Option.map_eq_some_iff.mp h
    obtain ⟨rfl, rfl⟩ := Prod.mk.inj heq
    refine ⟨fun hne => absurd rfl hne, ?_⟩
    rintro ⟨hchosen, hall⟩
    rw [hchosen] at hnone
    have hsome := (LocatorFormat.pushAll_isSome _ ByteArray.empty _).mpr hall
    rw [hnone] at hsome
    cases hsome

/-! ## The script -/

/-- The superblock of an image. -/
def imageSuperblock (layout : ImageLayout) (scheme : Scheme) (containers blocks : Nat)
    (format : LocatorFormat) (start size : Nat) : Superblock where
  magic := Superblock.magicWord
  versionMajor := Superblock.major
  versionMinor := Superblock.minor
  flags := (⟨decide (format ≠ .unpacked), layout.sparse⟩ : ImageFlags).bits
  compressionId := scheme.id
  blockSize := layout.blockSize.toUInt32
  containerSize := layout.containerSize.toUInt32
  blockCount := blocks.toUInt32
  containerCount := containers.toUInt32
  modificationTime := layout.modificationTime.toUInt32
  containerTableStart := containerTableStart.toUInt64
  blockTableStart := start.toUInt64
  blockTableSize := size.toUInt64
  bytesUsed := (start + size).toUInt64

/-- Where the record of the block table starts. -/
def tableStart (layout : ImageLayout) (codec : Codec) (containers : List ByteArray) : Nat :=
  recordStart layout containers.length
    (containerRecords layout codec 0 containerTableStart containers).stop

/-- A script that can be finished consists of the records of the containers, the record of the block
table, and the superblock. -/
theorem ImageScript.of_eq_ok {superblock : Superblock}
    (h : (ImageScript.of layout codec containers locations).closing = .ok (superblock, written)) :
    ∃ format table packed,
      (containerRecords layout codec 0 containerTableStart containers).failure = none ∧
      blockTable layout containers.length locations = some (format, table) ∧
      codec.compressInto table = .ok packed ∧
      (ImageScript.of layout codec containers locations).records =
        (containerRecords layout codec 0 containerTableStart containers).writes ++
          recordWrites (tableStart layout codec containers) packed ∧
      superblock = imageSuperblock layout codec.scheme containers.length locations.length format
        (tableStart layout codec containers) (recordHeaderSize + packed.size) ∧
      written.bytesUsed =
        tableStart layout codec containers + (recordHeaderSize + packed.size) ∧
      written.packedLocators = decide (format ≠ .unpacked) := by
  unfold ImageScript.of at h
  cases hfailure : (containerRecords layout codec 0 containerTableStart containers).failure with
  | some e =>
    simp only [hfailure] at h
    cases h
  | none =>
    simp only [hfailure] at h
    obtain ⟨format, table, htable⟩ := exists_blockTable layout containers.length locations
    simp only [htable] at h
    cases hpacked : codec.compressInto table with
    | error e =>
      simp only [hpacked] at h
      cases h
    | ok packed =>
      simp only [hpacked] at h
      obtain ⟨hsuperblock, rfl⟩ := Prod.mk.inj (Except.ok.inj h)
      refine ⟨format, table, packed, rfl, htable, hpacked, ?_, hsuperblock.symm, rfl, rfl⟩
      simp only [ImageScript.of, hfailure, htable, hpacked]
      rfl

/-- A run that ends well made all writes of the script, and the superblock last. -/
theorem ImageScript.run_eq_ok {s : ImageScript} (h : s.run m = (.ok written, m')) :
    ∃ superblock before, s.closing = .ok (superblock, written) ∧
      m.writeEach s.records = (.ok (), before) ∧
      before.writeAll ⟨0, superblock.bytes⟩ = .ok m' := by
  unfold ImageScript.run at h
  rcases heach : m.writeEach s.records with ⟨e | ⟨⟩, before⟩
  · simp only [heach] at h
    cases (Prod.mk.inj h).1
  · simp only [heach] at h
    cases hclosing : s.closing with
    | error e =>
      simp only [hclosing] at h
      cases (Prod.mk.inj h).1
    | ok made =>
      obtain ⟨superblock, written'⟩ := made
      simp only [hclosing] at h
      cases hlast : before.writeAll ⟨0, superblock.bytes⟩ with
      | error e =>
        simp only [hlast] at h
        cases (Prod.mk.inj h).1
      | ok last =>
        simp only [hlast] at h
        cases hflush : last.flush with
        | error e =>
          simp only [hflush] at h
          cases (Prod.mk.inj h).1
        | ok _ =>
          simp only [hflush] at h
          obtain ⟨hwritten, rfl⟩ := Prod.mk.inj h
          obtain rfl := Except.ok.inj hwritten
          exact ⟨superblock, before, rfl, rfl, hlast⟩

/-- The records of an image are written in order, that of the block table last. -/
theorem imageRecords_ascending
    (h : (containerRecords layout codec 0 containerTableStart containers).failure = none)
    (packed : ByteArray) :
    Ascending containerTableStart
      ((containerRecords layout codec 0 containerTableStart containers).writes ++
        recordWrites (tableStart layout codec containers) packed)
      (tableStart layout codec containers + recordHeaderSize + packed.size) := by
  have hfirst := containerRecords_ascending h
  rw [Nat.zero_add, recordStart_zero] at hfirst
  exact hfirst.append (recordWrites_ascending _ packed)

/-! ## What a medium holds -/

/-- The bytes hold an image: the records of its containers, the record of its block table, which is
`packed`, and its superblock. -/
structure HoldsImage (bytes : ByteArray) (layout : ImageLayout) (codec : Codec)
    (containers : List ByteArray) (locations : List Location) (format : LocatorFormat)
    (table packed : ByteArray) : Prop where
  made : (containerRecords layout codec 0 containerTableStart containers).failure = none
  encoded : blockTable layout containers.length locations = some (format, table)
  compressed : codec.compressInto table = .ok packed
  records : ∀ w ∈ (containerRecords layout codec 0 containerTableStart containers).writes,
    Stored bytes w ∧ w.data.size < 2 ^ 32
  tableRecord : ∀ w ∈ recordWrites (tableStart layout codec containers) packed, Stored bytes w
  tableSize : packed.size < 2 ^ 32
  stop_lt : tableStart layout codec containers + (recordHeaderSize + packed.size) < 2 ^ 64
  superblock : Stored bytes ⟨0, (imageSuperblock layout codec.scheme containers.length
    locations.length format (tableStart layout codec containers)
    (recordHeaderSize + packed.size)).bytes⟩

/-- **What a run leaves.** If all writes succeed, the medium holds the image. -/
theorem holdsImage_of_run (hm : m.Bounded)
    (h : (ImageScript.of layout codec containers locations).run m = (.ok written, m'))
    (hsizes : ∀ w ∈ (ImageScript.of layout codec containers locations).records,
      w.data.size < 2 ^ 32) :
    ∃ format table packed,
      HoldsImage m'.bytes layout codec containers locations format table packed := by
  obtain ⟨superblock, before, hclosing, heach, hlast⟩ := ImageScript.run_eq_ok h
  obtain ⟨format, table, packed, hmade, hencoded, hcompressed, hrecords, rfl, -, -⟩ :=
    ImageScript.of_eq_ok hclosing
  rw [hrecords] at heach hsizes
  have hascending := imageRecords_ascending hmade packed
  obtain ⟨hstored, -⟩ := writeEach_stored hascending heach
  obtain ⟨hsuperblock, hkept⟩ := writeAll_stored hlast
  have hall : ∀ w ∈ (containerRecords layout codec 0 containerTableStart containers).writes ++
      recordWrites (tableStart layout codec containers) packed, Stored m'.bytes w := by
    intro w hw
    refine hkept w (.inr ?_) (hstored w hw)
    rw [PositionedWrite.stop, Superblock.size_bytes, Nat.zero_add]
    exact (hascending.mem hw).1
  have hheader := hm.writeEach heach _ (List.mem_append_right _ List.mem_cons_self)
  have hdata := hm.writeEach heach _
    (List.mem_append_right _ (List.mem_cons_of_mem _ List.mem_cons_self))
  refine ⟨format, table, packed, hmade, hencoded, hcompressed, ?_, ?_, ?_, ?_, hsuperblock⟩
  · intro w hw
    exact ⟨hall w (List.mem_append_left _ hw), hsizes w (List.mem_append_left _ hw)⟩
  · intro w hw
    exact hall w (List.mem_append_right _ hw)
  · exact hsizes _ (List.mem_append_right _ (List.mem_cons_of_mem _ List.mem_cons_self))
  · simp only [PositionedWrite.stop, size_numberBytes] at hheader hdata
    have hheader := hheader (by decide)
    by_cases hempty : packed.size = 0
    · omega
    · have hdata := hdata (Nat.pos_of_ne_zero hempty)
      omega

/-! ## Opening -/

theorem Codec.Lossless.restores (h : codec.Lossless) : codec.Restores := by
  intro data packed hpacked most hmost
  obtain ⟨packed', hpacked', hback⟩ := h data
  rw [hpacked] at hpacked'
  obtain rfl := Except.ok.inj hpacked'
  exact hback most hmost

/-- The superblock of an image passes the checks. -/
theorem checkSuperblock_image {scheme : Scheme} (hscheme : scheme.supported = true)
    (hpos : 0 < layout.containerSize) (hlimit : layout.containerSize ≤ containerSizeLimit)
    (containers blocks : Nat) (format : LocatorFormat) (start size : Nat) :
    checkSuperblock (imageSuperblock layout scheme containers blocks format start size) =
      .ok (⟨decide (format ≠ .unpacked), layout.sparse⟩, scheme) := by
  have hsize : layout.containerSize.toUInt32.toNat = layout.containerSize := by
    apply toNat_toUInt32
    unfold containerSizeLimit at hlimit
    omega
  have hrange : ¬ (layout.containerSize = 0 ∨ containerSizeLimit < layout.containerSize) := by
    omega
  have hid : Scheme.ofId scheme.id = scheme := by
    cases scheme <;> rfl
  have hknown : scheme ≠ .unknown := by
    intro hunknown
    rw [hunknown] at hscheme
    cases hscheme
  unfold checkSuperblock imageSuperblock
  simp only [ImageFlags.ofBits?_bits, hsize, hid, if_neg hrange, if_neg hknown, if_pos hscheme,
    ne_eq, not_true_eq_false, or_self, if_false]

/-- What an image is made from can be written in the words of an image. -/
structure ImageFits (layout : ImageLayout) (codec : Codec) (containers : List ByteArray)
    (locations : List Location) : Prop where
  supported : codec.scheme.supported = true
  size_pos : 0 < layout.containerSize
  size_le : layout.containerSize ≤ containerSizeLimit
  containers_lt : containers.length < 2 ^ 32
  locations_lt : locations.length < 2 ^ 32
  /-- No container is too large. -/
  sizes : ∀ data ∈ containers, data.size ≤ layout.containerSize
  /-- The locations are in containers that exist. -/
  inside : ∀ l ∈ locations, l.container.toNat < containers.length

variable {bytes : ByteArray} {format : LocatorFormat} {table packed : ByteArray}

theorem ImageFits.containerSize_toNat (h : ImageFits layout codec containers locations) :
    layout.containerSize.toUInt32.toNat = layout.containerSize := by
  have hle := h.size_le
  unfold containerSizeLimit at hle
  exact toNat_toUInt32 (by omega)

/-- The block table is found with the locations. -/
theorem HoldsImage.readTable (h : HoldsImage bytes layout codec containers locations format table packed)
    (hfits : ImageFits layout codec containers locations) (hcodec : codec.Restores) :
    readTable bytes
      (imageSuperblock layout codec.scheme containers.length locations.length format
        (tableStart layout codec containers) (recordHeaderSize + packed.size))
      ⟨decide (format ≠ .unpacked), layout.sparse⟩ codec containers.length = .ok locations.toArray := by
  have hstop := h.stop_lt
  have hstart : (tableStart layout codec containers).toUInt64.toNat =
      tableStart layout codec containers := toNat_toUInt64 (by omega)
  have hsize : (recordHeaderSize + packed.size).toUInt64.toNat = recordHeaderSize + packed.size :=
    toNat_toUInt64 (by omega)
  have hcount : locations.length.toUInt32.toNat = locations.length := toNat_toUInt32 hfits.locations_lt
  obtain ⟨hpushed, hformat⟩ := blockTable_format h.encoded
  obtain ⟨tail, htail, htailSize⟩ := LocatorFormat.pushAll_append hpushed
  have htableSize : table.size = locations.length * format.entrySize := by
    rw [htail, ByteArray.empty_append, htailSize]
  have hback : codec.decompressInto packed (locations.length * format.entrySize) = .ok table :=
    hcodec table packed h.compressed _ (Nat.le_of_eq htableSize)
  have hdecoded := decodeTable_eq hpushed hfits.inside #[]
  rw [ByteArray.size_empty] at hdecoded
  unfold ImageReader.readTable imageSuperblock
  simp only [hstart, hsize, hcount, recordLength_of_stored h.tableRecord h.tableSize,
    exactly_of_record h.tableRecord, hformat, hback, Nat.add_comm packed.size, ne_eq,
    not_true_eq_false, htableSize, if_false, hdecoded]
  simp

/-- A container whose record can be read is loaded, and no other one. -/
theorem loadContainer_iff {r : ImageReader} {records : List ContainerRecord}
    (hrecords : r.records = records.toArray)
    (hall : List.Forall₂ (RecordOf r.codec r.bytes) records containers) (hcodec : r.codec.Restores)
    (hsizes : ∀ data ∈ containers, data.size ≤ r.superblock.containerSize.toNat) (id : Nat)
    (data : ByteArray) : r.loadContainer id = .ok data ↔ containers[id]? = some data := by
  have hlength := hall.length_eq
  unfold loadContainer
  rw [hrecords, List.getElem?_toArray]
  by_cases hid : id < containers.length
  · have hrecord : id < records.length := by omega
    obtain ⟨packed, hpacked, hread⟩ := hall.get hrecord hid
    simp only [List.get_eq_getElem] at hpacked hread
    have hback := hcodec _ packed hpacked _ (hsizes _ (List.getElem_mem hid))
    rw [List.getElem?_eq_getElem hrecord, List.getElem?_eq_getElem hid]
    simp only [hread, hback, Except.ok.injEq, Option.some.injEq]
  · rw [List.getElem?_eq_none (by omega), List.getElem?_eq_none (by omega)]
    simp

/-- A medium that holds an image opens as it, with a record of every container. -/
theorem openImage_eq_of_holds {codecs : Scheme → Codec}
    (h : HoldsImage bytes layout codec containers locations format table packed)
    (hfits : ImageFits layout codec containers locations) (hcodec : codec.Restores)
    (hcodecs : codecs codec.scheme = codec) :
    ∃ records : List ContainerRecord,
      openImage codecs bytes = .ok ⟨bytes, codec,
        imageSuperblock layout codec.scheme containers.length locations.length format
          (tableStart layout codec containers) (recordHeaderSize + packed.size),
        ⟨decide (format ≠ .unpacked), layout.sparse⟩, records.toArray, locations.toArray, {}⟩ ∧
      List.Forall₂ (RecordOf codec bytes) records containers := by
  have hsuperblock := exactly_of_stored h.superblock
  rw [Superblock.size_bytes] at hsuperblock
  have hchecked := checkSuperblock_image hfits.supported hfits.size_pos hfits.size_le
    containers.length locations.length format (tableStart layout codec containers)
    (recordHeaderSize + packed.size)
  have htable := h.readTable hfits hcodec
  generalize hs : imageSuperblock layout codec.scheme containers.length locations.length format
    (tableStart layout codec containers) (recordHeaderSize + packed.size) = s at *
  have hstop := h.stop_lt
  have hsize : s.containerSize.toNat = layout.containerSize := by
    rw [← hs]
    exact hfits.containerSize_toNat
  have hstart : s.containerTableStart.toNat = containerTableStart := by
    rw [← hs]
    exact toNat_toUInt64 (by decide)
  have hcount : s.containerCount.toNat = containers.length := by
    rw [← hs]
    exact toNat_toUInt32 hfits.containers_lt
  have htableStart : s.blockTableStart.toNat = tableStart layout codec containers := by
    rw [← hs]
    exact toNat_toUInt64 (by omega)
  obtain ⟨records, hread, hall⟩ := readRecords_eq (s := s) h.made h.records hsize hstart
    (by rw [Nat.zero_add, htableStart]; exact Nat.le_refl _) #[]
  have hout : (#[] : Array ContainerRecord) ++ records = records.toArray := by simp
  have hlength : records.toArray.size = containers.length := hall.length_eq
  rw [hout] at hread
  refine ⟨records, ?_, hall⟩
  unfold openImage
  simp only [hsuperblock, Superblock.read_bytes, hchecked, hcodecs, hstart, hcount, hread, hlength,
    htable]

/-- **A medium that holds an image opens**, and the reader serves what the image was made from. -/
theorem openImage_of_holds {codecs : Scheme → Codec}
    (h : HoldsImage bytes layout codec containers locations format table packed)
    (hfits : ImageFits layout codec containers locations) (hcodec : codec.Restores)
    (hcodecs : codecs codec.scheme = codec) :
    ∃ r, openImage codecs bytes = .ok r ∧ r.Serves containers locations := by
  obtain ⟨records, hopen, hall⟩ := openImage_eq_of_holds h hfits hcodec hcodecs
  refine ⟨_, hopen, rfl, ?_, ?_⟩
  · apply loadContainer_iff rfl hall hcodec
    intro data hdata
    exact Nat.le_trans (hfits.sizes data hdata) (Nat.le_of_eq hfits.containerSize_toNat.symm)
  · intro e he
    cases he

end DedupImage
