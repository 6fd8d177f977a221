import DedupImage.Failure

/-!
# Media: what an image is written to

A medium is a byte string that grows as needed and is written at any position. A gap that a write leaves
behind the old end reads as zeros. Writing may fail; a write that fails has no effect. Which writes fail
is given by a rule on the number of the write, its position and its length, so that a failure can be put
at any point of a sequence of writes.
-/

namespace DedupImage

/-- A growable byte string with a rule for failing writes. -/
structure Medium where
  bytes : ByteArray := ByteArray.empty
  /-- The number of writes so far that changed the bytes. -/
  writes : Nat := 0
  /-- Why the write with this number, position and length fails, if it does. -/
  refuses : Nat → Nat → Nat → Option StorageFailure := fun _ _ _ => none
  /-- Why flushing fails, if it does. -/
  flushFailure : Option StorageFailure := none

/-- Bytes to be written at a position. -/
structure PositionedWrite where
  position : Nat
  data : ByteArray

namespace Medium

/-- A medium on which no write may end behind this position. -/
def limited (limit : Nat) : Medium :=
  { refuses := fun _ position length => if limit < position + length then some .writeZero else none }

/-- The bytes after a write. A gap before it is filled even if nothing is written behind it. -/
def put (bytes : ByteArray) (w : PositionedWrite) : ByteArray :=
  if bytes.size < w.position then
    pushCopies bytes 0 (w.position - bytes.size) ++ w.data
  else
    overwrite bytes w.position w.data

/-- Write once: the number of bytes written, and the medium. -/
def writeOnce (m : Medium) (w : PositionedWrite) : Except StorageFailure (Nat × Medium) :=
  match m.refuses m.writes w.position w.data.size with
  | some e => .error e
  | none => .ok (w.data.size, { m with bytes := put m.bytes w, writes := m.writes + 1 })

/-- Write until all bytes are written; of no bytes at all, nothing is. -/
def writeAll (m : Medium) (w : PositionedWrite) : Except StorageFailure Medium :=
  if w.data.size = 0 then
    .ok m
  else
    match m.writeOnce w with
    | .error e => .error e
    | .ok (_, m) => .ok m

/-- Write in order until a write fails. What was written before stays. -/
def writeEach (m : Medium) : List PositionedWrite → Except StorageFailure Unit × Medium
  | [] => (.ok (), m)
  | w :: rest =>
    match m.writeAll w with
    | .error e => (.error e, m)
    | .ok m => writeEach m rest

/-- Make sure that everything written is kept. -/
def flush (m : Medium) : Except StorageFailure Unit :=
  match m.flushFailure with
  | some e => .error e
  | none => .ok ()

end Medium

end DedupImage
