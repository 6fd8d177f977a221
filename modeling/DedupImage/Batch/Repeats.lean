import DedupImage.Batch.Schedule
import Std.Data.TreeMap

/-!
# Repeats in a batch

The blocks of a batch are numbered from zero, through all items in order. `Repeats` says of some of
these positions which earlier position has the same bytes. The pass that finds them compares only a
64-bit identity and the length, and reads every source once; placement compares the bytes.

Of several equal blocks the first is what all others repeat.
-/

namespace DedupImage

/-- Positions in a batch that repeat earlier ones. -/
structure Repeats where
  /-- The number of blocks of the batch. -/
  blockCount : Nat := 0
  /-- The earlier position of each later one. -/
  pairs : Std.TreeMap Nat Nat := ∅

namespace Repeats

/-- The position that a position repeats. -/
def earlier? (r : Repeats) (position : Nat) : Option Nat := r.pairs[position]?

/-- The pairs of a later and an earlier position, in order of the later. -/
def toList (r : Repeats) : List (Nat × Nat) := r.pairs.toList

/-- What the pass knows so far. -/
structure Sighting where
  repeats : Repeats := {}
  /-- The first position of each identity and length. -/
  firstSeen : Std.TreeMap Nat Nat := ∅

/-- One number for an identity and a length. -/
def sightingKey (identity : UInt64) (length : Nat) : Nat :=
  length * UInt64.size + identity.toNat

/-- Take in the next block of the batch. -/
def Sighting.next (s : Sighting) (identity : ByteArray → UInt64) (block : ByteArray) : Sighting :=
  let position := s.repeats.blockCount
  let key := sightingKey (identity block) block.size
  match s.firstSeen[key]? with
  | some first =>
    { s with repeats := ⟨position + 1, s.repeats.pairs.insert position first⟩ }
  | none =>
    { repeats := { s.repeats with blockCount := position + 1 }
      firstSeen := s.firstSeen.insert key position }

/-- Take in the blocks of the items in order; the first item that cannot be read ends the pass. -/
def passOver (identity : ByteArray → UInt64) (s : Sighting) :
    List ScheduledItem → Except StorageFailure Sighting
  | [] => .ok s
  | item :: rest =>
    match item.source.reader 0 with
    | .error e => .error e
    | .ok reader =>
      match reader.blocks item.blockSize with
      | (_, some e) => .error e
      | (blocks, none) =>
        passOver identity (blocks.foldl (fun s block => s.next identity block) s) rest

/-- The repeats of a batch. -/
def find (identity : ByteArray → UInt64) (items : List ScheduledItem) :
    Except StorageFailure Repeats :=
  match passOver identity {} items with
  | .error e => .error e
  | .ok s => .ok s.repeats

end Repeats

end DedupImage
