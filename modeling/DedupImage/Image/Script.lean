import DedupImage.Codec.Basic
import DedupImage.Image.Medium
import DedupImage.Layout.Locator
import DedupImage.Layout.Superblock

/-!
# The writes of an image

An image is written front to back, but its superblock last, at the very beginning, which stays empty
until then. So a medium on which writing was broken off holds no image.

`ImageScript.of` works out all writes in order before any is made: the records of the containers, the
record of the block table, and the superblock. Where a container cannot be compressed, or is too large
for its place in a sparse image, the writes stop there and the script ends in that failure.
`ImageScript.run` makes the writes; a failing write comes before a failure at the script's end.

The block table is packed if the sizes allow it and every location does pack, else it is unpacked.
-/

namespace DedupImage

/-- What an image looks like. -/
structure ImageLayout where
  /-- The block size of sources that ask for no other. -/
  blockSize : Nat
  /-- The most bytes of a container. -/
  containerSize : Nat
  /-- Whether locators may be packed. -/
  packLocators : Bool
  /-- Whether container records stand at a fixed stride. -/
  sparse : Bool
  /-- Seconds since 1970. -/
  modificationTime : Nat
  deriving DecidableEq, Repr

/-- What was written. -/
structure WrittenImage where
  /-- Bytes of all containers, uncompressed. -/
  rawBytes : Nat
  /-- Bytes of all containers, compressed. -/
  compressedBytes : Nat
  /-- The size of the image. -/
  bytesUsed : Nat
  packedLocators : Bool
  deriving DecidableEq, Repr

/-- Where the first container record starts. -/
def containerTableStart : Nat := Superblock.size

/-- The two writes of a record: its length and its bytes. -/
def recordWrites (position : Nat) (data : ByteArray) : List PositionedWrite :=
  [⟨position, numberBytes recordHeaderSize data.size⟩, ⟨position + recordHeaderSize, data⟩]

/-- The records of containers. -/
structure RecordScript where
  writes : List PositionedWrite
  /-- The position behind the last record. -/
  stop : Nat
  compressedBytes : Nat
  /-- Why a record could not be made. -/
  failure : Option Failure

/-- The records of containers from number `id` on; in a dense image the next one starts at
`position`. -/
def containerRecords (layout : ImageLayout) (codec : Codec) (id position : Nat) :
    List ByteArray → RecordScript
  | [] => ⟨[], position, 0, none⟩
  | data :: rest =>
    match codec.compressInto data with
    | .error e => ⟨[], position, 0, some (.storage e)⟩
    | .ok packed =>
      let stride := sparseStride layout.containerSize
      if layout.sparse ∧ layout.containerSize < packed.size then
        ⟨[], position, 0, some (.compressedTooLarge id stride)⟩
      else
        let start := if layout.sparse then containerTableStart + id * stride else position
        let r :=
          containerRecords layout codec (id + 1) (start + recordHeaderSize + packed.size) rest
        { r with
          writes := recordWrites start packed ++ r.writes
          compressedBytes := packed.size + r.compressedBytes }

/-- The block table and its format. -/
def blockTable (layout : ImageLayout) (containerCount : Nat) (locations : List Location) :
    Option (LocatorFormat × ByteArray) :=
  let format :=
    LocatorFormat.choose layout.packLocators layout.containerSize.toUInt32 containerCount.toUInt32
  match format.pushAll ByteArray.empty locations with
  | some table => some (format, table)
  | none =>
    (LocatorFormat.unpacked.pushAll ByteArray.empty locations).map fun table => (.unpacked, table)

/-- The writes of an image, and how they end. -/
structure ImageScript where
  /-- The writes of all records. -/
  records : List PositionedWrite
  /-- The superblock to write after them, and a summary; or why there is none. -/
  closing : Except Failure (Superblock × WrittenImage)

namespace ImageScript

/-- The writes of an image with these containers and locations of blocks. -/
def of (layout : ImageLayout) (codec : Codec) (containers : List ByteArray)
    (locations : List Location) : ImageScript :=
  let r := containerRecords layout codec 0 containerTableStart containers
  match r.failure with
  | some e => ⟨r.writes, .error e⟩
  | none =>
    let tableStart :=
      if layout.sparse then
        containerTableStart + containers.length * sparseStride layout.containerSize
      else
        r.stop
    match blockTable layout containers.length locations with
    | none => ⟨r.writes, .error (.corruption .unencodable)⟩
    | some (format, table) =>
      match codec.compressInto table with
      | .error e => ⟨r.writes, .error (.storage e)⟩
      | .ok packed =>
        let tableSize := recordHeaderSize + packed.size
        let flags : ImageFlags := ⟨decide (format ≠ .unpacked), layout.sparse⟩
        let superblock : Superblock :=
          { magic := Superblock.magicWord
            versionMajor := Superblock.major
            versionMinor := Superblock.minor
            flags := flags.bits
            compressionId := codec.scheme.id
            blockSize := layout.blockSize.toUInt32
            containerSize := layout.containerSize.toUInt32
            blockCount := locations.length.toUInt32
            containerCount := containers.length.toUInt32
            modificationTime := layout.modificationTime.toUInt32
            containerTableStart := containerTableStart.toUInt64
            blockTableStart := tableStart.toUInt64
            blockTableSize := tableSize.toUInt64
            bytesUsed := (tableStart + tableSize).toUInt64 }
        let written : WrittenImage :=
          { rawBytes := (containers.map ByteArray.size).foldl (· + ·) 0
            compressedBytes := r.compressedBytes
            bytesUsed := tableStart + tableSize
            packedLocators := flags.packed }
        ⟨r.writes ++ recordWrites tableStart packed, .ok (superblock, written)⟩

/-- Make the writes. -/
def run (s : ImageScript) (m : Medium) : Except Failure WrittenImage × Medium :=
  match m.writeEach s.records with
  | (.error e, m) => (.error (.storage e), m)
  | (.ok (), m) =>
    match s.closing with
    | .error e => (.error e, m)
    | .ok (superblock, written) =>
      match m.writeAll ⟨0, superblock.bytes⟩ with
      | .error e => (.error (.storage e), m)
      | .ok m =>
        match m.flush with
        | .error e => (.error (.storage e), m)
        | .ok () => (.ok written, m)

end ImageScript

end DedupImage
