import DedupImage.Batch.Repeats

/-!
# Resume checkpoints

Finding the repeats of a batch takes a whole pass over its sources. A checkpoint keeps the result, so
that a build that was broken off can be run again without that pass: a magic number, the number of
blocks of the batch, the number of pairs, and the pairs, later position first, all numbers of 64 bits.

Reading one is strict. The length has to be right to the byte; then the pairs are checked in order, and
the first bad one is reported; last the number of blocks has to be that of the batch. A checkpoint that
is not there is no failure: the pass is made and its result written, as a whole or not at all.
-/

namespace DedupImage

/-- Where a checkpoint is kept. -/
inductive CheckpointPlace where
  /-- Nothing is there yet. -/
  | vacant
  /-- The directory does not exist. -/
  | unreachable
  /-- The place is a directory. -/
  | directory
  | file (bytes : ByteArray)

namespace Checkpoint

/-- The bytes every checkpoint begins with. -/
def magic : ByteArray := ⟨#[0x43, 0x52, 0x46, 0x53, 0x52, 0x53, 0x4d, 0x01]⟩

/-- The bytes before the pairs. -/
def headerSize : Nat := 24

/-- The bytes of one pair. -/
def pairSize : Nat := 16

/-- Add pairs. -/
def pushPairs (out : ByteArray) : List (Nat × Nat) → ByteArray
  | [] => out
  | (later, earlier) :: rest => pushPairs (pushNumber (pushNumber out 8 later) 8 earlier) rest

/-- The bytes of a checkpoint. -/
def bytes (r : Repeats) : ByteArray :=
  let pairs := r.toList
  pushPairs (pushNumber (pushNumber magic 8 r.blockCount) 8 pairs.length) pairs

/-- Read `n` pairs from `start` on; the positions have to be below `blockCount`. -/
def readPairs (data : ByteArray) (blockCount start : Nat) (pairs : Std.TreeMap Nat Nat) :
    (n : Nat) → Except Failure (Std.TreeMap Nat Nat)
  | 0 => .ok pairs
  | n + 1 =>
    let later := numberAt data start 8
    let earlier := numberAt data (start + 8) 8
    if blockCount ≤ later then
      .error (.resumeOutOfRange later blockCount)
    else if later ≤ earlier then
      .error (.corruption (.resumeOrder later earlier))
    else
      readPairs data blockCount (start + pairSize) (pairs.insert later earlier) n

/-- Read a checkpoint for a batch of `blockCount` blocks. -/
def parse (data : ByteArray) (blockCount : Nat) : Except Failure Repeats :=
  if data.size < headerSize then
    .error (.corruption .resumeTruncated)
  else if holdsAt data 0 magic then
    let taken := numberAt data 8 8
    let count := numberAt data 16 8
    let held := data.size - headerSize
    if count * pairSize = held then
      match readPairs data blockCount headerSize ∅ count with
      | .error e => .error e
      | .ok pairs =>
        if taken = blockCount then
          .ok ⟨blockCount, pairs⟩
        else
          .error (.corruption (.resumeCount taken blockCount))
    else
      .error (.corruption (.resumeLength count held))
  else
    .error (.corruption .resumeMagic)

/-- Load the checkpoint of a batch, if there is one. -/
def load (place : CheckpointPlace) (blockCount : Nat) : Except Failure (Option Repeats) :=
  match place with
  | .vacant => .ok none
  | .unreachable => .ok none
  | .directory => .error (.storage .isADirectory)
  | .file data =>
    match parse data blockCount with
    | .error e => .error e
    | .ok r => .ok (some r)

/-- Put a checkpoint into its place. -/
def save (place : CheckpointPlace) (r : Repeats) : Except StorageFailure CheckpointPlace :=
  match place with
  | .vacant => .ok (.file (bytes r))
  | .file _ => .ok (.file (bytes r))
  | .unreachable => .error .notFound
  | .directory => .error .isADirectory

/-- The repeats of a batch and how they were come by. -/
structure Prepared where
  repeats : Repeats
  /-- The checkpoint as it is now. -/
  place : Option CheckpointPlace
  /-- How often every source was opened. -/
  openings : Nat

/-- Take the repeats of a batch from its checkpoint, or find them and write the checkpoint. -/
def prepare (identity : ByteArray → UInt64) (items : List ScheduledItem)
    (place : Option CheckpointPlace) : Except Failure Prepared :=
  match place with
  | none =>
    match Repeats.find identity items with
    | .error e => .error (.storage e)
    | .ok r => .ok ⟨r, none, 1⟩
  | some place =>
    match load place ((items.map ScheduledItem.blockCount).foldl (· + ·) 0) with
    | .error e => .error e
    | .ok (some r) => .ok ⟨r, some place, 0⟩
    | .ok none =>
      match Repeats.find identity items with
      | .error e => .error (.storage e)
      | .ok r =>
        match save place r with
        | .error e => .error (.storage e)
        | .ok place => .ok ⟨r, some place, 1⟩

end Checkpoint

end DedupImage
