import DedupImage.Batch.Source

/-!
# The schedule

A batch is a list of scheduled sources. They are placed in order of their class, then of their name's
bytes, and sources that agree in both in the order in which they were scheduled. Every item keeps the
place at which it was scheduled, because that is where its block numbers are delivered.
-/

namespace DedupImage

/-- A scheduled source. -/
structure ScheduledItem where
  source : Source
  /-- Sources of a lower class come first. -/
  rank : Nat
  blockSize : Nat
  /-- The place at which it was scheduled. -/
  slot : Nat

namespace ScheduledItem

/-- The number of blocks, going by the length that the source claims. -/
def blockCount (i : ScheduledItem) : Nat :=
  (i.source.length + i.blockSize - 1) / i.blockSize

/-- The same number, counted in words of 64 bits. -/
def wordCount (i : ScheduledItem) : UInt64 :=
  (i.source.length.toUInt64 + i.blockSize.toUInt64 - 1) / i.blockSize.toUInt64

/-- The number of blocks of a batch, counted in words of 64 bits. -/
def wordTotal (items : List ScheduledItem) : UInt64 :=
  (items.map wordCount).foldl (· + ·) 0

/-- The bytes of the name, in the order in which they are compared. -/
def nameBytes (i : ScheduledItem) : List UInt8 := i.source.name.data.toList

/-- Whether an item may stand before another. -/
def before (a b : ScheduledItem) : Bool :=
  decide (a.rank < b.rank) || (a.rank == b.rank && decide (a.nameBytes ≤ b.nameBytes))

/-- Items in the order in which they are placed. -/
def sort (items : List ScheduledItem) : List ScheduledItem :=
  items.mergeSort before

end ScheduledItem

end DedupImage
