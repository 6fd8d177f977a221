import DedupImage.Codec.Basic
import DedupImage.Codec.Setting
import DedupImage.Codec.Streaming

/-!
# Codecs of a compression library

A compression library has a coder for each direction of each scheme. The level goes to the one that compresses;
the one that decompresses reads what any level has written.

A codec in use (`CodecObject`) keeps its coders from one string to the next. It is made from a setting, and its
scheme and level stay what they were. Seen from outside its state makes no difference, so `CodecLibrary.codec`
begins with a new one for every string.
-/

namespace DedupImage

/-- The coders of a compression library. -/
structure CodecLibrary where
  /-- Writes zlib streams. -/
  deflater : (level : Nat) → StreamCoder
  /-- Reads zlib streams. -/
  inflater : StreamCoder
  /-- Writes Zstandard frames. -/
  packer : (level : Int) → BulkCoder
  /-- Reads Zstandard frames. -/
  unpacker : BulkCoder

/-- A codec in use, with its level and its coders. -/
inductive CodecObject (lib : CodecLibrary) where
  | gzip (level : Nat) (deflater : (lib.deflater level).State) (inflater : lib.inflater.State)
  | zstd (level : Int) (packer : Option (lib.packer level).State) (unpacker : Option lib.unpacker.State)

namespace CodecObject

variable {lib : CodecLibrary}

/-- The codec of a setting. There is none for an unknown scheme. -/
def ofSetting? (lib : CodecLibrary) (s : CodecSetting) : Option (CodecObject lib) :=
  match s.scheme with
  | .gzip => some (gzip s.level.toNat (lib.deflater s.level.toNat).fresh lib.inflater.fresh)
  | .zstd => some (zstd s.level none none)
  | .unknown => none

/-- The setting that a codec was made from. -/
def setting : CodecObject lib → CodecSetting
  | gzip level _ _ => ⟨.gzip, level⟩
  | zstd level _ _ => ⟨.zstd, level⟩

/-- The greatest size of a compressed string. Stored blocks take five bytes for every 64 KiB, and there are a
header and a checksum; the other number is the one that Zstandard gives. -/
def bound : CodecObject lib → Nat → Nat
  | gzip _ _ _, n => n + n / 32 + 64
  | zstd _ _ _, n => n + n / 256 + if n < 131072 then (131072 - n) / 2048 else 0

/-- Compress a string into at most `room` bytes. -/
def compress (src : ByteArray) (room : Nat) : CodecObject lib → Except StorageFailure ByteArray × CodecObject lib
  | gzip level deflater inflater =>
    let (result, deflater) := (lib.deflater level).run deflater src room
    (result, gzip level deflater inflater)
  | zstd level packer unpacker =>
    let (result, packer) := (lib.packer level).call packer src room
    (result, zstd level packer unpacker)

/-- Decompress a string into at most `room` bytes. -/
def decompress (src : ByteArray) (room : Nat) :
    CodecObject lib → Except StorageFailure ByteArray × CodecObject lib
  | gzip level deflater inflater =>
    let (result, inflater) := lib.inflater.run inflater src room
    (result, gzip level deflater inflater)
  | zstd level packer unpacker =>
    let (result, unpacker) := lib.unpacker.call unpacker src room
    (result, zstd level packer unpacker)

end CodecObject

/-- The codec that a library has for a setting. For an unknown scheme it always fails. -/
def CodecLibrary.codec (lib : CodecLibrary) (s : CodecSetting) : Codec :=
  match CodecObject.ofSetting? lib s with
  | some o =>
    { scheme := s.scheme
      bound := o.bound
      compress := fun src room => (o.compress src room).1
      decompress := fun src room => (o.decompress src room).1 }
  | none => ⟨s.scheme, id, fun _ _ => .error .other, fun _ _ => .error .other⟩

end DedupImage
