import DedupImage.Bytes
import DedupImage.Layout.Location

/-!
# Block lists as bytes

A reader of the image keeps, for each source, its block numbers at the narrowest of three widths that
can hold every block number of the image. `BlockWidth.forCount` picks the width from the number of
blocks; a block number that does not fit the width it is written at loses its high bytes.
-/

namespace DedupImage

/-- Bits per stored block number. -/
inductive BlockWidth where
  | w16
  | w24
  | w32
  deriving DecidableEq, Repr

namespace BlockWidth

/-- The narrowest width for the numbers below `count`. -/
def forCount (count : Nat) : BlockWidth :=
  if count ≤ UInt16.size then w16 else if count ≤ 0x1000000 then w24 else w32

/-- Bytes per stored block number. -/
def bytes : BlockWidth → Nat
  | w16 => 2
  | w24 => 3
  | w32 => 4

/-- Block numbers as bytes, little endian, added to `out`. -/
def push (w : BlockWidth) (out : ByteArray) : List BlockNum → ByteArray
  | [] => out
  | b :: rest => w.push (pushNumber out w.bytes b.number.toNat) rest

/-- Block numbers as bytes, little endian. -/
def encode (w : BlockWidth) (blocks : List BlockNum) : ByteArray :=
  w.push ByteArray.empty blocks

/-- The first `n` block numbers stored from `start` on. -/
def decode (w : BlockWidth) (data : ByteArray) (start : Nat) : Nat → List BlockNum
  | 0 => []
  | n + 1 => ⟨(numberAt data start w.bytes).toUInt32⟩ :: w.decode data (start + w.bytes) n

end BlockWidth

end DedupImage
