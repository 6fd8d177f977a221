import DedupImage.Codec.Deflate
import DedupImage.Codec.Inflate

/-!
# Zlib streams

A zlib stream is a Deflate stream between a header of two bytes and the Adler-32 checksum of the
uncompressed bytes, most significant byte first. Bytes after the checksum are ignored.
-/

namespace DedupImage.Zlib

/-- The modulus of the checksum. -/
def modulus : Nat := 65521

/-- The checksum's two sums, continued over `n` bytes from `pos`. -/
def adlerFrom (b : ByteArray) (pos low high : Nat) : (n : Nat) → Nat × Nat
  | 0 => (low, high)
  | n + 1 =>
    let low := (low + (byteAt b pos).toNat) % modulus
    adlerFrom b (pos + 1) low ((high + low) % modulus) n

/-- The Adler-32 checksum. -/
def adler (b : ByteArray) : Nat :=
  let sums := adlerFrom b 0 1 0 b.size
  sums.2 * 65536 + sums.1

/-- Add a number of 32 bits, most significant byte first. -/
def pushBig (out : ByteArray) (n : Nat) : ByteArray :=
  (((out.push (n / 0x1000000 % 256).toUInt8).push (n / 0x10000 % 256).toUInt8).push
    (n / 0x100 % 256).toUInt8).push (n % 256).toUInt8

/-- The number of 32 bits at a position, most significant byte first. -/
def bigAt (b : ByteArray) (i : Nat) : Nat :=
  (byteAt b i).toNat * 0x1000000 + (byteAt b (i + 1)).toNat * 0x10000 +
    (byteAt b (i + 2)).toNat * 0x100 + (byteAt b (i + 3)).toNat

/-- The second header byte, which says how much was tried to compress. -/
def flags (level : Nat) : UInt8 :=
  if level ≤ 1 then 0x01 else if level ≤ 5 then 0x5E else if level = 6 then 0x9C else 0xDA

/-- A Deflate stream of a text as a zlib stream. -/
def frame (level : Nat) (src body : ByteArray) : ByteArray :=
  pushBig ((ByteArray.empty.push 0x78).push (flags level) ++ body) (adler src)

/-- Whether two header bytes announce Deflate with a window of at most 32 KiB and no preset
dictionary, and check. -/
def validHeader (method flags : Nat) : Bool :=
  (method * 256 + flags) % 31 == 0 && method % 16 == 8 && decide (method / 16 ≤ 7) &&
    flags / 32 % 2 == 0

/-- The bytes of the zlib stream at the beginning of a string, of which there may be at most `room`, and the
position behind the stream. -/
def read (src : ByteArray) (room : Nat) : Except StorageFailure (ByteArray × Nat) :=
  if src.size < 2 then
    .error .unexpectedEof
  else if validHeader (byteAt src 0).toNat (byteAt src 1).toNat then
    match Inflate.stream src room 16 with
    | .error e => .error e
    | .ok (out, pos) =>
      let start := Bits.byteAfter pos
      if start + 4 ≤ src.size then
        if bigAt src start = adler out then .ok (out, start + 4) else .error .other
      else
        .error .unexpectedEof
  else
    .error .other

/-- The bytes of a zlib stream. Bytes behind it are ignored. -/
def unpack (src : ByteArray) (room : Nat) : Except StorageFailure ByteArray :=
  (read src room).map Prod.fst

/-- The zlib stream of a string. The level says how much is tried to find repetitions. -/
def pack (level : Nat) (src : ByteArray) : ByteArray :=
  frame level src (Deflate.stream level src)

end DedupImage.Zlib
