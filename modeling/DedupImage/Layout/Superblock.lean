import DedupImage.Bytes

/-!
# The superblock and the records after it

An image begins with a superblock of 72 bytes: a magic word, the version, flags, and where to find
the two tables. Container records and the block table record follow. A record is a 32-bit length and
that many bytes; in a sparse image the container records stand at a fixed stride that leaves each of
them room for a whole container.

`Superblock.bytes` and `Superblock.read` fix the order and the width of the fields and check nothing;
what a reader accepts is decided where images are opened.
-/

namespace DedupImage

/-- What the block table and the container records look like. -/
structure ImageFlags where
  /-- Locators are packed. -/
  packed : Bool
  /-- Container records stand at a fixed stride. -/
  sparse : Bool
  deriving DecidableEq, Repr

namespace ImageFlags

/-- The flag word. -/
def bits (f : ImageFlags) : UInt32 :=
  (if f.packed then 1 else 0) + (if f.sparse then 2 else 0)

/-- The flags of a flag word; none if it has any other bit set. -/
def ofBits? (w : UInt32) : Option ImageFlags :=
  if w < 4 then some ⟨w % 2 == 1, w / 2 == 1⟩ else none

end ImageFlags

/-- The first bytes of an image. -/
structure Superblock where
  magic : UInt32
  versionMajor : UInt16
  versionMinor : UInt16
  flags : UInt32
  compressionId : UInt16
  /-- The block size of sources that ask for no other. -/
  blockSize : UInt32
  /-- The most bytes a container holds. -/
  containerSize : UInt32
  blockCount : UInt32
  containerCount : UInt32
  /-- Seconds since 1970. -/
  modificationTime : UInt32
  containerTableStart : UInt64
  blockTableStart : UInt64
  /-- The size of the block table record with its length. -/
  blockTableSize : UInt64
  bytesUsed : UInt64
  deriving DecidableEq, Repr

namespace Superblock

/-- The size of a superblock. -/
def size : Nat := 72

/-- The word every image begins with. -/
def magicWord : UInt32 := 0x73667263

/-- The version of the layout. -/
def major : UInt16 := 1

/-- The version of the layout. -/
def minor : UInt16 := 0

/-- The bytes of a superblock. Two of its fields are reserved and zero. -/
def bytes (s : Superblock) : ByteArray :=
  let out := pushNumber ByteArray.empty 4 s.magic.toNat
  let out := pushNumber out 2 s.versionMajor.toNat
  let out := pushNumber out 2 s.versionMinor.toNat
  let out := pushNumber out 4 s.flags.toNat
  let out := pushNumber out 2 s.compressionId.toNat
  let out := pushNumber out 2 0
  let out := pushNumber out 4 s.blockSize.toNat
  let out := pushNumber out 4 s.containerSize.toNat
  let out := pushNumber out 4 s.blockCount.toNat
  let out := pushNumber out 4 s.containerCount.toNat
  let out := pushNumber out 4 s.modificationTime.toNat
  let out := pushNumber out 4 0
  let out := pushNumber out 8 s.containerTableStart.toNat
  let out := pushNumber out 8 s.blockTableStart.toNat
  let out := pushNumber out 8 s.blockTableSize.toNat
  pushNumber out 8 s.bytesUsed.toNat

/-- The superblock that the first bytes of `data` spell. -/
def read (data : ByteArray) : Superblock where
  magic := (numberAt data 0 4).toUInt32
  versionMajor := (numberAt data 4 2).toUInt16
  versionMinor := (numberAt data 6 2).toUInt16
  flags := (numberAt data 8 4).toUInt32
  compressionId := (numberAt data 12 2).toUInt16
  blockSize := (numberAt data 16 4).toUInt32
  containerSize := (numberAt data 20 4).toUInt32
  blockCount := (numberAt data 24 4).toUInt32
  containerCount := (numberAt data 28 4).toUInt32
  modificationTime := (numberAt data 32 4).toUInt32
  containerTableStart := (numberAt data 40 8).toUInt64
  blockTableStart := (numberAt data 48 8).toUInt64
  blockTableSize := (numberAt data 56 8).toUInt64
  bytesUsed := (numberAt data 64 8).toUInt64

end Superblock

/-- The size of the length in front of every record. -/
def recordHeaderSize : Nat := 4

/-- The largest container size an image may declare. -/
def containerSizeLimit : Nat := 0x80000000

/-- The distance between the container records of a sparse image. -/
def sparseStride (containerSize : Nat) : Nat :=
  recordHeaderSize + containerSize

end DedupImage
