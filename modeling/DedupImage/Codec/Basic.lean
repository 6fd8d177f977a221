import DedupImage.Failure

/-!
# Codecs

A codec turns a byte string into a shorter one and back. Both directions work into a buffer of given
room and fail if the result does not fit, so a codec also gives a bound: room that is enough to
compress any string of a given length.

The rest of the library uses codecs only through `compressInto` and `decompressInto`. What it needs
from them is `Codec.Lossless`, or only `Codec.Restores`.
-/

namespace DedupImage

/-- A compression method. -/
structure Codec where
  scheme : Scheme
  /-- Room that suffices to compress this many bytes. -/
  bound : Nat → Nat
  /-- Compress a string into a buffer with this much room. -/
  compress : ByteArray → Nat → Except StorageFailure ByteArray
  /-- Decompress a string into a buffer with this much room. -/
  decompress : ByteArray → Nat → Except StorageFailure ByteArray

namespace Codec

/-- Compress a whole string with as much room as it may take. -/
def compressInto (c : Codec) (src : ByteArray) : Except StorageFailure ByteArray :=
  c.compress src (c.bound src.size)

/-- Decompress a string that must not become longer than `most`. -/
def decompressInto (c : Codec) (src : ByteArray) (most : Nat) : Except StorageFailure ByteArray :=
  c.decompress src most

/-- Every string can be compressed, and with enough room comes back unchanged. -/
def Lossless (c : Codec) : Prop :=
  ∀ src : ByteArray, ∃ packed, c.compressInto src = .ok packed ∧
    ∀ most, src.size ≤ most → c.decompressInto packed most = .ok src

/-- With enough room everything that was compressed comes back. -/
def Restores (c : Codec) : Prop :=
  ∀ data packed, c.compressInto data = .ok packed →
    ∀ most, data.size ≤ most → c.decompressInto packed most = .ok data

end Codec

end DedupImage
