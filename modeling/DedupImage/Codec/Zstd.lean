import DedupImage.Codec.ZstdWriter
import DedupImage.Digest

/-!
# Zstandard frames

A Zstandard string is a sequence of frames. A frame is a magic number, a header that may announce the
size of the contents, and blocks: bytes as they are, or one byte repeated, or compressed bytes. Frames
whose magic number is in a reserved range are skipped by their length.

The blocks of a frame have more in common than the bytes before them: a compressed block may use the codes
of the one before it, and the distances of its last copies. `Memory` goes with the bytes from block to
block. Every failure is `other`.
-/

namespace DedupImage.Zstd

/-- What a frame header says. -/
structure Header where
  /-- The size of the contents, if announced. -/
  contents : Option Nat
  /-- A checksum follows the last block. -/
  checksum : Bool
  /-- The position of the first block. -/
  stop : Nat
  deriving DecidableEq, Repr

/-- Bytes of the dictionary id, by its code. -/
def dictionaryWidth (code : Nat) : Nat :=
  if code = 3 then 4 else code

/-- Bytes of the contents size, by its code. -/
def contentsWidth (code : Nat) (oneSegment : Bool) : Nat :=
  if code = 0 then oneSegment.toNat else 1 <<< code

/-- The announced size that announces nothing, as if the field were not there. -/
def unannounced : Nat := UInt64.size - 1

/-- Read a frame header, whose magic number ends at `pos`. A dictionary, a window above 2 GiB and a set
reserved bit are refused; so is a frame too short for its header and one block header. -/
def header? (src : ByteArray) (pos : Nat) : Option Header :=
  let descriptor := (byteAt src pos).toNat
  let oneSegment := descriptor / 32 % 2 == 1
  let windowWidth := if oneSegment then 0 else 1
  let dictionary := dictionaryWidth (descriptor % 4)
  let width := contentsWidth (descriptor / 64) oneSegment
  let dictionaryAt := pos + 1 + windowWidth
  let contentsAt := dictionaryAt + dictionary
  let stop := contentsAt + width
  if src.size < stop + 3 ∨ src.size < pos + 5 then
    none
  else if descriptor / 8 % 2 = 1 then
    none
  else if !oneSegment && decide (21 < (byteAt src (pos + 1)).toNat / 8) then
    none
  else if numberAt src dictionaryAt dictionary ≠ 0 then
    none
  else
    let announced := numberAt src contentsAt width
    some
      { contents :=
          if width = 0 ∨ announced = unannounced then none
          else if width = 2 then some (announced + 256)
          else some announced
        checksum := descriptor / 4 % 2 == 1
        stop := stop }

/-- What a block of `length` bytes at `pos` makes of the bytes before it: these and its own, and what is known
then. The length of a block of one byte repeated is that of the run. -/
def blockOfKind? (src : ByteArray) (kind pos length : Nat) (memory : Memory) (out : ByteArray) :
    Option (ByteArray × Memory) :=
  if kind = 1 then
    if pos < src.size then some (pushCopies out (byteAt src pos) length, memory) else none
  else if src.size < pos + length then
    none
  else if kind = 0 then
    some (out ++ slice src pos length, memory)
  else if kind = 2 then
    block? (slice src pos length) memory out
  else
    none

/-- Carry out the blocks from `pos` on: the bytes, and the position behind the last block. -/
def unpackBlocks (src : ByteArray) (room pos : Nat) (memory : Memory) (out : ByteArray) :
    Option (ByteArray × Nat) :=
  if src.size < pos + 3 then
    none
  else
    let head := numberAt src pos 3
    let kind := head / 2 % 4
    match blockOfKind? src kind (pos + 3) (head / 8) memory out with
    | none => none
    | some (out, memory) =>
      let stop := pos + 3 + if kind = 1 then 1 else head / 8
      if room < out.size then none
      else if head % 2 = 1 then some (out, stop)
      else unpackBlocks src room stop memory out
termination_by src.size - pos

/-- Read one frame, whose magic number ends at `pos`: its bytes, and the position behind it. -/
def unpackFrame (src : ByteArray) (room pos : Nat) : Option (ByteArray × Nat) :=
  match header? src pos with
  | none => none
  | some header =>
    match unpackBlocks src room header.stop {} ByteArray.empty with
    | none => none
    | some (out, stop) =>
      if header.contents.any (· != out.size) then
        none
      else if header.checksum then
        if stop + 4 ≤ src.size ∧
            numberAt src stop 4 = (Digest.identity out).toNat % UInt32.size then
          some (out, stop + 4)
        else
          none
      else
        some (out, stop)

/-- Read frames until the end of the input, at most `n` of them. A frame takes more than one byte, so
the number of bytes is always enough. -/
def unpackFrames (src : ByteArray) (room pos : Nat) (out : ByteArray) : (n : Nat) → Option ByteArray
  | 0 => none
  | n + 1 =>
    if src.size ≤ pos then
      some out
    else if src.size < pos + 5 then
      none
    else if numberAt src pos 4 / 16 = 0x184D2A5 then
      let length := numberAt src (pos + 4) 4
      if src.size < pos + 8 + length then
        none
      else
        unpackFrames src room (pos + 8 + length) out n
    else if numberAt src pos 4 = magic then
      match unpackFrame src (room - out.size) (pos + 4) with
      | none => none
      | some (bytes, stop) => unpackFrames src room stop (out ++ bytes) n
    else
      none

/-- The bytes of a sequence of frames, of which there may be at most `room`. -/
def unpack (src : ByteArray) (room : Nat) : Except StorageFailure ByteArray :=
  match unpackFrames src room 0 ByteArray.empty (src.size + 1) with
  | some out => .ok out
  | none => .error .other

end DedupImage.Zstd
