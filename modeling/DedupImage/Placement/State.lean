import DedupImage.Index.Catalog
import DedupImage.Pattern.Fit
import DedupImage.Store.Containers

/-!
# The state of placement

Placement decides for one block after another where its bytes go. Between two blocks it remembers the
containers, the block table, the catalog, and how far each container has been entered into the window
index; and it counts.

The block table only grows at its end, and one record stands in it once: `register` looks a record up
before it adds it. `windowed` holds, for a container and a block size, the size that the container had
when its windows of that size were last entered.
-/

namespace DedupImage

/-- How hard to look for bytes that are already stored. -/
inductive Dedup where
  /-- Every block is appended. -/
  | off
  /-- Only blocks of zero bytes are shared. -/
  | blanks
  /-- Equal blocks are shared, and new ones overlap stored data. -/
  | all
  /-- As `all`, after a pass over the whole batch that finds equal blocks. -/
  | prepass
  deriving DecidableEq, Repr, Inhabited

namespace Dedup

/-- Whether blocks are looked up at all. -/
def usesIndex (d : Dedup) : Bool := d != .off

/-- Whether new blocks may overlap stored data. -/
def overlaps (d : Dedup) : Bool := d == .all || d == .prepass

/-- Whether a block is looked up, and entered into the real index. -/
def indexes (d : Dedup) (data : ByteArray) : Bool :=
  match d with
  | off => false
  | blanks => isBlank data
  | all => true
  | prepass => true

/-- The word for a mode. -/
def text : Dedup → String
  | off => "None"
  | blanks => "BlanksOnly"
  | all => "All"
  | prepass => "AllWithPrepass"

end Dedup

/-- The settings of placement. -/
structure PlacementSettings where
  dedup : Dedup
  /-- The shortest overlap. -/
  leastOverlap : Nat
  /-- Overlaps are multiples of this; zero allows none. -/
  granularity : Nat
  /-- How many containers are searched for a block, at least one. -/
  maxCandidates : Nat
  /-- The distance between windows in the index, at least one. -/
  windowPeriod : Nat
  /-- The growth of a container after which its windows are entered. -/
  windowInterval : Nat
  /-- The hash under which blocks and windows are looked up. -/
  hash : ByteArray → UInt32

/-- What placement counts. -/
structure PlacementStats where
  /-- Blocks placed, also those whose placement failed. -/
  placed : Nat := 0
  /-- Blocks found to be in the block table. -/
  reused : Nat := 0
  /-- Blocks found through the window index. -/
  windowHits : Nat := 0
  /-- Bytes written to containers. -/
  writtenBytes : Nat := 0
  /-- Bytes of new blocks that were already stored. -/
  overlappedBytes : Nat := 0
  /-- Entries made in the window index. -/
  windowEntries : Nat := 0
  deriving DecidableEq, Repr

/-- The state between two placements. -/
structure Placement (ι : Type) where
  settings : PlacementSettings
  store : ContainerStore
  /-- The catalog, if there is one. -/
  index : Option ι
  blocks : Array BlockRecord := #[]
  /-- The number of each record in the block table, by the record's code. -/
  numbers : Std.TreeMap Nat BlockNum := ∅
  /-- The size at which windows were last entered, by container and block size. -/
  windowed : Std.TreeMap Nat Nat := ∅
  /-- The block sizes for which windows are entered. -/
  blockSizes : Std.TreeSet Nat := ∅
  stats : PlacementStats := {}

namespace Placement

variable {ι : Type}

/-- Placement into an empty store. -/
def start (settings : PlacementSettings) (store : ContainerStore) (index : Option ι) : Placement ι :=
  { settings := settings, store := store, index := index }

/-- Enter windows for one more block size. -/
def addBlockSize (p : Placement ι) (size : Nat) : Placement ι :=
  { p with blockSizes := p.blockSizes.insert size }

/-- The record of a block. -/
def record? (p : Placement ι) (b : BlockNum) : Option BlockRecord :=
  p.blocks[b.number.toNat]?

/-- Whether a record describes a stored string. -/
def storesAs (p : Placement ι) (r : BlockRecord) (data : ByteArray) : Bool :=
  r.length == data.size && p.store.holds r.location data

/-- The key of a container and a block size. -/
def windowKey (container blockSize : Nat) : Nat := container * UInt32.size + blockSize

/-- The size at which windows were last entered, zero if never. -/
def windowedSize (p : Placement ι) (container blockSize : Nat) : Nat :=
  p.windowed.getD (windowKey container blockSize) 0

/-- The number of a record, which joins the block table if it is new. -/
def register (p : Placement ι) (r : BlockRecord) : BlockNum × Placement ι :=
  match p.numbers[r.code]? with
  | some b => (b, p)
  | none =>
    let b : BlockNum := ⟨p.blocks.size.toUInt32⟩
    (b, { p with blocks := p.blocks.push r, numbers := p.numbers.insert r.code b })

end Placement

end DedupImage
