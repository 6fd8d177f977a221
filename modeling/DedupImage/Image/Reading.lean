import DedupImage.Codec.Basic
import DedupImage.Image.Cache
import DedupImage.Layout.Locator
import DedupImage.Layout.Superblock

/-!
# Reading an image

Nothing in an image is trusted. Opening checks the superblock, walks along the container records, and
decodes the whole block table; an image that opens has records that lie inside it and locations that
name existing containers. Whether a container decompresses, and whether a block lies inside it, is found
out when it is read.

Positions and sizes are natural numbers here, so no sum of untrusted fields can wrap around.
-/

namespace DedupImage

/-- The compressed bytes of a container. -/
structure ContainerRecord where
  position : Nat
  size : Nat
  deriving DecidableEq, Repr

/-- An open image. -/
structure ImageReader where
  bytes : ByteArray
  codec : Codec
  superblock : Superblock
  flags : ImageFlags
  records : Array ContainerRecord
  table : Array Location
  cache : ContainerCache := {}

namespace ImageReader

/-- Read `n` bytes at a position. Reading none never fails. -/
def exactly (bytes : ByteArray) (position n : Nat) : Except Failure ByteArray :=
  if n = 0 then .ok ByteArray.empty
  else if position + n ≤ bytes.size then .ok (slice bytes position n)
  else .error (.storage .unexpectedEof)

/-- Read the length of the record at a position. -/
def recordLength (bytes : ByteArray) (position : Nat) : Except Failure Nat :=
  match exactly bytes position recordHeaderSize with
  | .error e => .error e
  | .ok raw => .ok (numberAt raw 0 recordHeaderSize)

/-- Check a superblock: the flags and the scheme of the image. -/
def checkSuperblock (s : Superblock) : Except Failure (ImageFlags × Scheme) :=
  if s.magic ≠ Superblock.magicWord then
    .error (.badMagic s.magic)
  else if s.versionMajor ≠ Superblock.major ∨ s.versionMinor ≠ Superblock.minor then
    .error (.badVersion s.versionMajor s.versionMinor)
  else
    match ImageFlags.ofBits? s.flags with
    | none => .error (.corruption (.unknownFlags s.flags.toNat))
    | some flags =>
      let size := s.containerSize.toNat
      if size = 0 ∨ containerSizeLimit < size then
        .error (.corruption (.containerSizeRange size))
      else
        let scheme := Scheme.ofId s.compressionId
        if scheme = .unknown then
          .error (.unknownCompression s.compressionId)
        else if scheme.supported then
          .ok (flags, scheme)
        else
          .error (.disabledCompression scheme)

/-- Read the headers of `n` container records, the first of number `id`; in a dense image it starts at
`position`. -/
def readRecords (bytes : ByteArray) (s : Superblock) (sparse : Bool) (id position : Nat)
    (out : Array ContainerRecord) : (n : Nat) → Except Failure (Array ContainerRecord)
  | 0 => .ok out
  | n + 1 =>
    let containerSize := s.containerSize.toNat
    let start :=
      if sparse then s.containerTableStart.toNat + id * sparseStride containerSize else position
    match recordLength bytes start with
    | .error e => .error e
    | .ok size =>
      let data := start + recordHeaderSize
      if (sparse ∧ containerSize < size) ∨ s.blockTableStart.toNat < data + size then
        .error (.corruption (.recordOverruns id size start))
      else
        readRecords bytes s sparse (id + 1) (data + size) (out.push ⟨data, size⟩) n

/-- Decode `n` locators of a block table, the first at `start`. -/
def decodeTable (format : LocatorFormat) (containerCount : Nat) (table : ByteArray) (start : Nat)
    (out : Array Location) : (n : Nat) → Except Failure (Array Location)
  | 0 => .ok out
  | n + 1 =>
    match format.readAt table start with
    | none => .error (.corruption (.tableSize table.size (start + format.entrySize)))
    | some locator =>
      let l := format.decode locator
      if containerCount ≤ l.container.toNat then
        .error (.corruption (.tableContainer out.size l.container.toNat containerCount))
      else
        decodeTable format containerCount table (start + format.entrySize) (out.push l) n

/-- Read the block table. -/
def readTable (bytes : ByteArray) (s : Superblock) (flags : ImageFlags) (codec : Codec)
    (containerCount : Nat) : Except Failure (Array Location) :=
  let start := s.blockTableStart.toNat
  match recordLength bytes start with
  | .error e => .error e
  | .ok size =>
    if size + recordHeaderSize ≠ s.blockTableSize.toNat then
      .error (.corruption (.tableRecordSize size s.blockTableSize.toNat))
    else
      match exactly bytes (start + recordHeaderSize) size with
      | .error e => .error e
      | .ok packed =>
        let format : LocatorFormat := if flags.packed then .packed s.containerSize else .unpacked
        let count := s.blockCount.toNat
        let expected := count * format.entrySize
        match codec.decompressInto packed expected with
        | .error e => .error (.storage e)
        | .ok table =>
          if table.size ≠ expected then
            .error (.corruption (.tableSize table.size expected))
          else
            decodeTable format containerCount table 0 #[] count

/-- Open an image. -/
def openImage (codecs : Scheme → Codec) (bytes : ByteArray) : Except Failure ImageReader :=
  match exactly bytes 0 Superblock.size with
  | .error e => .error e
  | .ok raw =>
    let s := Superblock.read raw
    match checkSuperblock s with
    | .error e => .error e
    | .ok (flags, scheme) =>
      let codec := codecs scheme
      match readRecords bytes s flags.sparse 0 s.containerTableStart.toNat #[]
          s.containerCount.toNat with
      | .error e => .error e
      | .ok records =>
        match readTable bytes s flags codec records.size with
        | .error e => .error e
        | .ok table =>
          .ok
            { bytes := bytes
              codec := codec
              superblock := s
              flags := flags
              records := records
              table := table }

/-- The location of a block. -/
def location? (r : ImageReader) (b : BlockNum) : Option Location := r.table[b.number.toNat]?

/-- The number of containers. -/
def containerCount (r : ImageReader) : Nat := r.records.size

/-- Read and decompress a container. -/
def loadContainer (r : ImageReader) (id : Nat) : Except Failure ByteArray :=
  match r.records[id]? with
  | none => .error (.corruption (.containerPastTable id r.records.size))
  | some record =>
    match exactly r.bytes record.position record.size with
    | .error e => .error e
    | .ok packed =>
      match r.codec.decompressInto packed r.superblock.containerSize.toNat with
      | .error e => .error (.storage e)
      | .ok data => .ok data

/-- The bytes of a container, from the cache or loaded into it. -/
def container (r : ImageReader) (id : Nat) : Except Failure ByteArray × ImageReader :=
  match r.cache.lookup id with
  | some data => (.ok data, { r with cache := r.cache.touch id data })
  | none =>
    match r.loadContainer id with
    | .error e => (.error e, r)
    | .ok data => (.ok data, { r with cache := r.cache.insert id data })

/-- The `length` bytes of a block. -/
def readBlock (r : ImageReader) (b : BlockNum) (length : Nat) :
    Except Failure ByteArray × ImageReader :=
  match r.location? b with
  | none => (.error (.corruption (.blockPastTable b.number.toNat r.table.size)), r)
  | some l =>
    match r.container l.container.toNat with
    | (.error e, r) => (.error e, r)
    | (.ok data, r) =>
      let start := l.offset.toNat
      if start + length ≤ data.size then
        (.ok (slice data start length), r)
      else
        (.error (.corruption (.blockOutside b.number.toNat length l data.size)), r)

/-- Add the blocks of a list that hold the next `remaining` bytes: all of them, and the number of bytes
that are missing. -/
def readBlocks (r : ImageReader) (blockSize remaining : Nat) (out : ByteArray) :
    List BlockNum → Except Failure (ByteArray × Nat) × ImageReader
  | [] => (.ok (out, remaining), r)
  | b :: rest =>
    let length := min remaining blockSize
    if length = 0 then
      (.ok (out, remaining), r)
    else
      match r.readBlock b length with
      | (.error e, r) => (.error e, r)
      | (.ok data, r) => readBlocks r blockSize (remaining - length) (out ++ data) rest

/-- The `total` bytes of a source that was stored as these blocks of `blockSize` bytes each. -/
def readList (r : ImageReader) (blocks : List BlockNum) (total blockSize : Nat) :
    Except Failure ByteArray × ImageReader :=
  match r.readBlocks blockSize total ByteArray.empty blocks with
  | (.error e, r) => (.error e, r)
  | (.ok (data, missing), r) =>
    if missing = 0 then (.ok data, r)
    else (.error (.corruption (.listShort blocks.length missing total)), r)

/-- Change how many bytes of containers are kept. -/
def setCacheLimit (r : ImageReader) (limit : Nat) : ImageReader :=
  { r with cache := r.cache.setLimit limit }

end ImageReader

end DedupImage
