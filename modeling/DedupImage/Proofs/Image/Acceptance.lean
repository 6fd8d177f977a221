import DedupImage.Image.Reading
import DedupImage.Proofs.Bytes

/-!
# What a reader accepts

A reader is given any bytes at all and believes none of them. If they open, the superblock is one that
the reader supports, the records of the containers lie in the file one behind the other, each with its
length in front and all of them between the two table positions of the superblock, and every location
of the block table is in a container that has a record (`ImageReader.Sound`, `openImage_sound`).

Records are kept apart in two ways. In a dense image each one starts where the one before ends. In a
sparse image they start at a fixed stride, so that a record has to be no longer than a container; the
reader checks it there and only there.
-/

namespace DedupImage

/-- The position behind the last byte of a record. -/
def ContainerRecord.stop (r : ContainerRecord) : Nat := r.position + r.size

namespace ImageReader

/-! ## What is accepted -/

/-- An image that may be read: its superblock is supported, its records lie where they may, and its
locations are in containers that exist. -/
structure Sound (r : ImageReader) : Prop where
  /-- The superblock is what the first bytes spell. -/
  superblock : ∃ raw, exactly r.bytes 0 Superblock.size = .ok raw ∧
    r.superblock = Superblock.read raw
  magic : r.superblock.magic = Superblock.magicWord
  major : r.superblock.versionMajor = Superblock.major
  minor : r.superblock.versionMinor = Superblock.minor
  flags : ImageFlags.ofBits? r.superblock.flags = some r.flags
  scheme : (Scheme.ofId r.superblock.compressionId).supported = true
  containerSize_pos : 0 < r.superblock.containerSize.toNat
  containerSize_le : r.superblock.containerSize.toNat ≤ containerSizeLimit
  records_size : r.records.size = r.superblock.containerCount.toNat
  /-- The length in front of a record is its size. -/
  lengths : ∀ record ∈ r.records,
    recordLength r.bytes (record.position - recordHeaderSize) = .ok record.size
  /-- Every record starts, with its length, behind the start of the container table, … -/
  start_le : ∀ record ∈ r.records,
    r.superblock.containerTableStart.toNat + recordHeaderSize ≤ record.position
  /-- … and it ends before the block table, … -/
  stop_le : ∀ record ∈ r.records, record.stop ≤ r.superblock.blockTableStart.toNat
  /-- … which starts inside the file. -/
  tableStart_le : r.superblock.blockTableStart.toNat + recordHeaderSize ≤ r.bytes.size
  /-- A record ends before the length of any later one. -/
  ordered : r.records.toList.Pairwise fun first second =>
    first.stop + recordHeaderSize ≤ second.position
  stride : r.flags.sparse = true → ∀ i record, r.records[i]? = some record →
    record.position = r.superblock.containerTableStart.toNat +
        i * sparseStride r.superblock.containerSize.toNat + recordHeaderSize ∧
      record.size ≤ r.superblock.containerSize.toNat
  dense : r.flags.sparse = false →
    (∀ first, r.records[0]? = some first →
      first.position = r.superblock.containerTableStart.toNat + recordHeaderSize) ∧
    ∀ i first second, r.records[i]? = some first → r.records[i + 1]? = some second →
      second.position = first.stop + recordHeaderSize
  table_size : r.table.size = r.superblock.blockCount.toNat
  located : ∀ l ∈ r.table, l.container.toNat < r.records.size

variable {bytes : ByteArray} {s : Superblock} {flags : ImageFlags} {scheme : Scheme}

/-! ## The superblock -/

/-- The checks of a superblock that was accepted. -/
theorem checkSuperblock_eq_ok (h : checkSuperblock s = .ok (flags, scheme)) :
    s.magic = Superblock.magicWord ∧ s.versionMajor = Superblock.major ∧
      s.versionMinor = Superblock.minor ∧ ImageFlags.ofBits? s.flags = some flags ∧
      0 < s.containerSize.toNat ∧ s.containerSize.toNat ≤ containerSizeLimit ∧
      scheme = Scheme.ofId s.compressionId ∧ scheme.supported = true := by
  unfold checkSuperblock at h
  split at h
  · cases h
  · rename_i hmagic
    split at h
    · cases h
    · rename_i hversion
      split at h
      · cases h
      · rename_i hflags
        dsimp only at h
        split at h
        · cases h
        · rename_i hsize
          split at h
          · cases h
          · split at h
            · obtain ⟨rfl, rfl⟩ := Prod.mk.inj (Except.ok.inj h)
              exact ⟨not_not.mp hmagic, not_not.mp (not_or.mp hversion).1,
                not_not.mp (not_or.mp hversion).2, hflags, by omega, by omega, rfl, ‹_›⟩
            · cases h

/-! ## The records -/

theorem exactly_size {position n : Nat} {raw : ByteArray} (h : exactly bytes position n = .ok raw)
    (hn : 0 < n) : position + n ≤ bytes.size := by
  unfold exactly at h
  rw [if_neg (by omega)] at h
  split at h
  · assumption
  · cases h

/-- A length that was read is the number of a header. -/
theorem recordLength_eq_ok {position size : Nat} (h : recordLength bytes position = .ok size) :
    ∃ raw, exactly bytes position recordHeaderSize = .ok raw ∧ numberAt raw 0 recordHeaderSize = size := by
  unfold recordLength at h
  cases hraw : exactly bytes position recordHeaderSize with
  | error e =>
    rw [hraw] at h
    cases h
  | ok raw =>
    rw [hraw] at h
    exact ⟨raw, rfl, Except.ok.inj h⟩

/-- A length that was read is in the file. -/
theorem recordLength_le {position size : Nat} (h : recordLength bytes position = .ok size) :
    position + recordHeaderSize ≤ bytes.size := by
  obtain ⟨raw, hraw, -⟩ := recordLength_eq_ok h
  exact exactly_size hraw (by decide)

/-- A length is a word. -/
theorem recordLength_lt {position size : Nat} (h : recordLength bytes position = .ok size) :
    size < 2 ^ 32 := by
  obtain ⟨raw, -, rfl⟩ := recordLength_eq_ok h
  exact numberAt_lt raw 0 recordHeaderSize

/-- Where the reader looks for the next record. -/
def recordPlace (s : Superblock) (sparse : Bool) (id position : Nat) : Nat :=
  if sparse then s.containerTableStart.toNat + id * sparseStride s.containerSize.toNat else position

/-- Records in the order in which the reader finds them, the first of number `id`. -/
def Laid (bytes : ByteArray) (s : Superblock) (sparse : Bool) :
    (id position : Nat) → List ContainerRecord → Prop
  | _, _, [] => True
  | id, position, r :: rest =>
    r.position = recordPlace s sparse id position + recordHeaderSize ∧
      recordLength bytes (recordPlace s sparse id position) = .ok r.size ∧
      (sparse = true → r.size ≤ s.containerSize.toNat) ∧
      r.stop ≤ s.blockTableStart.toNat ∧ Laid bytes s sparse (id + 1) r.stop rest

variable {sparse : Bool} {id position : Nat} {records : List ContainerRecord}

/-- The first record is at the start of the container table. -/
theorem recordPlace_zero (s : Superblock) (sparse : Bool) :
    recordPlace s sparse 0 s.containerTableStart.toNat = s.containerTableStart.toNat := by
  unfold recordPlace
  rw [Nat.zero_mul, Nat.add_zero, ite_self]

/-- The reader collects as many records as it is asked for, and they are laid out. -/
theorem readRecords_eq_ok {n : Nat} {out found : Array ContainerRecord}
    (h : readRecords bytes s sparse id position out n = .ok found) :
    ∃ more : List ContainerRecord, found = out ++ more ∧ more.length = n ∧
      Laid bytes s sparse id position more := by
  induction n generalizing id position out with
  | zero =>
    obtain rfl := Except.ok.inj h
    exact ⟨[], by simp, rfl, trivial⟩
  | succ n ih =>
    unfold readRecords at h
    dsimp only at h
    rw [← recordPlace] at h
    cases hlength : recordLength bytes (recordPlace s sparse id position) with
    | error e =>
      rw [hlength] at h
      cases h
    | ok size =>
      rw [hlength] at h
      dsimp only at h
      split at h
      · cases h
      · rename_i hfits
        obtain ⟨more, rfl, hcount, hlaid⟩ := ih h
        refine ⟨⟨recordPlace s sparse id position + recordHeaderSize, size⟩ :: more, by simp,
          by rw [List.length_cons, hcount], rfl, hlength, ?_, ?_, hlaid⟩
        · intro hsparse
          exact Nat.not_lt.mp fun hlt => hfits (.inl ⟨hsparse, hlt⟩)
        · exact Nat.not_lt.mp fun hlt => hfits (.inr hlt)

/-- A record ends before the place of the next one. -/
theorem stop_le_recordPlace {r : ContainerRecord}
    (hposition : r.position = recordPlace s sparse id position + recordHeaderSize)
    (hsize : sparse = true → r.size ≤ s.containerSize.toNat) :
    r.stop ≤ recordPlace s sparse (id + 1) r.stop := by
  unfold recordPlace at *
  by_cases hsparse : sparse = true
  · have := hsize hsparse
    rw [if_pos hsparse] at hposition ⊢
    rw [ContainerRecord.stop, hposition, Nat.succ_mul, sparseStride]
    omega
  · exact Nat.le_of_eq (if_neg hsparse).symm

/-- No record starts before the place of the first one. -/
theorem Laid.recordPlace_le (h : Laid bytes s sparse id position records) :
    ∀ r ∈ records, recordPlace s sparse id position + recordHeaderSize ≤ r.position := by
  induction records generalizing id position with
  | nil => exact fun r hr => absurd hr List.not_mem_nil
  | cons first rest ih =>
    obtain ⟨hposition, -, hsize, -, hrest⟩ := h
    intro r hr
    rcases List.mem_cons.mp hr with rfl | hr
    · exact Nat.le_of_eq hposition.symm
    · have hnext := stop_le_recordPlace hposition hsize
      have hr := ih hrest r hr
      unfold ContainerRecord.stop at *
      omega

theorem Laid.ordered (h : Laid bytes s sparse id position records) :
    records.Pairwise fun first second => first.stop + recordHeaderSize ≤ second.position := by
  induction records generalizing id position with
  | nil => exact .nil
  | cons first rest ih =>
    obtain ⟨hposition, -, hsize, -, hrest⟩ := h
    refine .cons ?_ (ih hrest)
    intro r hr
    have hnext := stop_le_recordPlace hposition hsize
    have hr := hrest.recordPlace_le r hr
    omega

/-- Every record has its length in front of it and ends before the block table. -/
theorem Laid.mem (h : Laid bytes s sparse id position records) : ∀ r ∈ records,
    recordLength bytes (r.position - recordHeaderSize) = .ok r.size ∧
      r.stop ≤ s.blockTableStart.toNat := by
  induction records generalizing id position with
  | nil => exact fun r hr => absurd hr List.not_mem_nil
  | cons first rest ih =>
    obtain ⟨hposition, hlength, -, hstop, hrest⟩ := h
    intro r hr
    rcases List.mem_cons.mp hr with rfl | hr
    · rw [hposition, Nat.add_sub_cancel]
      exact ⟨hlength, hstop⟩
    · exact ih hrest r hr

/-- In a sparse image a record stands at the place of its number. -/
theorem Laid.stride (h : Laid bytes s true id position records) (i : Nat) (r : ContainerRecord)
    (hr : records[i]? = some r) :
    r.position = s.containerTableStart.toNat + (id + i) * sparseStride s.containerSize.toNat +
        recordHeaderSize ∧ r.size ≤ s.containerSize.toNat := by
  induction records generalizing id position i with
  | nil => cases hr
  | cons first rest ih =>
    obtain ⟨hposition, -, hsize, -, hrest⟩ := h
    cases i with
    | zero =>
      obtain rfl := Option.some.inj hr
      exact ⟨hposition, hsize rfl⟩
    | succ i =>
      rw [show id + (i + 1) = id + 1 + i by omega]
      exact ih hrest i hr

/-- In a dense image a record stands right behind the one before it. -/
theorem Laid.dense (h : Laid bytes s false id position records) :
    (∀ first, records[0]? = some first → first.position = position + recordHeaderSize) ∧
      ∀ (i : Nat) (first second : ContainerRecord), records[i]? = some first →
        records[i + 1]? = some second → second.position = first.stop + recordHeaderSize := by
  induction records generalizing id position with
  | nil => exact ⟨fun _ hfirst => (nomatch hfirst), fun _ _ _ hfirst => (nomatch hfirst)⟩
  | cons r rest ih =>
    obtain ⟨hposition, -, -, -, hrest⟩ := h
    obtain ⟨hnext, hlater⟩ := ih hrest
    constructor
    · intro first hfirst
      obtain rfl := Option.some.inj hfirst
      exact hposition
    · intro i first second hfirst hsecond
      cases i with
      | zero =>
        obtain rfl := Option.some.inj hfirst
        exact hnext second hsecond
      | succ i => exact hlater i first second hfirst hsecond

/-! ## The block table -/

/-- A table that was decoded has the locations that were asked for, all in containers that exist. -/
theorem decodeTable_eq_ok {format : LocatorFormat} {count start n : Nat} {table : ByteArray}
    {out found : Array Location} (h : decodeTable format count table start out n = .ok found) :
    found.size = out.size + n ∧
      ((∀ l ∈ out, l.container.toNat < count) → ∀ l ∈ found, l.container.toNat < count) := by
  induction n generalizing start out with
  | zero =>
    obtain rfl := Except.ok.inj h
    exact ⟨rfl, id⟩
  | succ n ih =>
    unfold decodeTable at h
    split at h
    · cases h
    · dsimp only at h
      split at h
      · cases h
      · rename_i hcontainer
        obtain ⟨hsize, hall⟩ := ih h
        refine ⟨by rw [hsize, Array.size_push]; omega, fun hout => hall ?_⟩
        intro l hl
        rcases Array.mem_push.mp hl with hl | rfl
        · exact hout l hl
        · omega

/-- What is known of a block table that was read. -/
theorem readTable_eq_ok {codec : Codec} {count : Nat} {found : Array Location}
    (h : readTable bytes s flags codec count = .ok found) :
    s.blockTableStart.toNat + recordHeaderSize ≤ bytes.size ∧
      found.size = s.blockCount.toNat ∧ ∀ l ∈ found, l.container.toNat < count := by
  unfold readTable at h
  dsimp only at h
  generalize (if flags.packed = true then LocatorFormat.packed s.containerSize
    else LocatorFormat.unpacked) = format at h
  cases hlength : recordLength bytes s.blockTableStart.toNat with
  | error e => simp only [hlength, reduceCtorEq] at h
  | ok size =>
    simp only [hlength] at h
    split at h
    · cases h
    · split at h
      · cases h
      · split at h
        · cases h
        · split at h
          · cases h
          · obtain ⟨hsize, hall⟩ := decodeTable_eq_ok h
            refine ⟨recordLength_le hlength, ?_, hall fun l hl => absurd hl (Array.not_mem_empty l)⟩
            rw [hsize, List.size_toArray, List.length_nil, Nat.zero_add]

/-! ## Opening -/

/-- The steps of an image that opens. -/
theorem openImage_eq_ok {codecs : Scheme → Codec} {r : ImageReader}
    (h : openImage codecs bytes = .ok r) :
    ∃ raw, exactly bytes 0 Superblock.size = .ok raw ∧ r.superblock = Superblock.read raw ∧
      checkSuperblock r.superblock = .ok (r.flags, Scheme.ofId r.superblock.compressionId) ∧
      readRecords bytes r.superblock r.flags.sparse 0 r.superblock.containerTableStart.toNat #[]
        r.superblock.containerCount.toNat = .ok r.records ∧
      readTable bytes r.superblock r.flags r.codec r.records.size = .ok r.table ∧
      r.bytes = bytes ∧ r.codec = codecs (Scheme.ofId r.superblock.compressionId) ∧ r.cache = {} := by
  unfold openImage at h
  split at h
  · cases h
  · rename_i raw hraw
    dsimp only at h
    split at h
    · cases h
    · rename_i flags scheme hcheck
      obtain rfl := (checkSuperblock_eq_ok hcheck).2.2.2.2.2.2.1
      split at h
      · cases h
      · rename_i records hrecords
        split at h
        · cases h
        · rename_i table htable
          obtain rfl := Except.ok.inj h
          exact ⟨raw, hraw, rfl, hcheck, hrecords, htable, rfl, rfl, rfl⟩

/-- **What opens is sound.** -/
theorem openImage_sound {codecs : Scheme → Codec} {r : ImageReader}
    (h : openImage codecs bytes = .ok r) : r.Sound := by
  obtain ⟨raw, hraw, hread, hcheck, hrecords, htable, rfl, -, -⟩ := openImage_eq_ok h
  obtain ⟨hmagic, hmajor, hminor, hflags, hpos, hle, -, hscheme⟩ := checkSuperblock_eq_ok hcheck
  obtain ⟨records, hfound, hcount, hlaid⟩ := readRecords_eq_ok hrecords
  obtain ⟨htableStart, htableSize, hlocated⟩ := readTable_eq_ok htable
  have hlist : r.records = records.toArray := by simpa using hfound
  have hmem : ∀ record ∈ r.records, record ∈ records := by
    intro record hrecord
    rw [hlist] at hrecord
    exact List.mem_toArray.mp hrecord
  refine ⟨⟨raw, hraw, hread⟩, hmagic, hmajor, hminor, hflags, hscheme, hpos, hle, by rw [hlist]; exact hcount,
    fun record hrecord => (hlaid.mem record (hmem record hrecord)).1, ?_,
    fun record hrecord => (hlaid.mem record (hmem record hrecord)).2, htableStart, ?_, ?_, ?_,
    htableSize, hlocated⟩
  · intro record hrecord
    have := hlaid.recordPlace_le record (hmem record hrecord)
    rwa [recordPlace_zero] at this
  · rw [hlist]
    exact hlaid.ordered
  · intro hsparse i record hi
    rw [hsparse] at hlaid
    rw [hlist, List.getElem?_toArray] at hi
    have := hlaid.stride i record hi
    rwa [Nat.zero_add] at this
  · intro hdense
    rw [hdense] at hlaid
    simp only [hlist, List.getElem?_toArray]
    exact hlaid.dense

end ImageReader

end DedupImage
