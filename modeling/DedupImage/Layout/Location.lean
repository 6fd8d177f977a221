/-!
# Where bytes are, and which block they are

A container is a growing byte string; containers are numbered from zero. A `Location` is a position
inside one of them, a `BlockNum` names an entry of the block table, and a `BlockRecord` is such an
entry while an image is built: where the block's bytes start, and how many they are.

Locations and block numbers are stored in index records and in the image, so their fields are 32-bit
words. Lengths are never stored with a block and stay natural numbers.
-/

namespace DedupImage

/-- The number of a block: its position in the block table. -/
structure BlockNum where
  number : UInt32
  deriving DecidableEq, Repr, Inhabited

/-- A position inside a container. -/
structure Location where
  container : UInt32
  offset : UInt32
  deriving DecidableEq, Repr, Inhabited

/-- The location `offset` bytes into container `container`. -/
def Location.ofNat (container offset : Nat) : Location :=
  ⟨container.toUInt32, offset.toUInt32⟩

/-- The text of a location in messages. -/
def Location.text (l : Location) : String :=
  "Location \x7b container: " ++ toString l.container.toNat ++ ", offset: " ++
    toString l.offset.toNat ++ " \x7d"

/-- Where the bytes of a block are. -/
structure BlockRecord where
  location : Location
  length : Nat
  deriving DecidableEq, Repr, Inhabited

/-- One number for a record. Container and offset take 64 bits together and the length stands above
them, so different records have different codes. -/
def BlockRecord.code (r : BlockRecord) : Nat :=
  r.length * UInt64.size + r.location.container.toNat * UInt32.size + r.location.offset.toNat

end DedupImage
