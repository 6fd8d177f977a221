import DedupImage.Index.Chain

/-!
# Sharded indexes

An index over all 32-bit hashes is a row of chains. The high bits of a hash choose the chain, the low
bits are the key in it. The number of chains is a power of two; a number that is none is rounded up.
-/

namespace DedupImage

/-- The shape of an index. -/
structure IndexShape where
  shards : Nat
  maxSegments : Nat
  segmentEntries : Nat
  deriving DecidableEq, Repr

/-- A multi-map from hashes, split by the high bits of the hash. -/
structure ShardedIndex (σ : Type) where
  shards : Array (Chain σ)
  /-- Low bits of a hash that are the key in its chain. -/
  keyBits : Nat

namespace ShardedIndex

variable {σ V : Type} [Segment σ V]

/-- The index without entries. -/
def empty (fresh : Except StorageFailure σ) (shape : IndexShape) : ShardedIndex σ :=
  let count := (max shape.shards 1).nextPowerOfTwo
  { shards := Array.replicate count (Chain.empty fresh shape.maxSegments shape.segmentEntries)
    keyBits := 32 - count.log2 }

/-- The chain of a hash. -/
def shardOf (x : ShardedIndex σ) (hash : UInt32) : Nat :=
  hash.toNat >>> x.keyBits

/-- The key of a hash in its chain. -/
def keyOf (x : ShardedIndex σ) (hash : UInt32) : UInt32 :=
  (hash.toNat % 1 <<< x.keyBits).toUInt32

/-- Every value of a hash. -/
def find (x : ShardedIndex σ) (hash : UInt32) : List V × ShardedIndex σ :=
  match x.shards[x.shardOf hash]? with
  | none => ([], x)
  | some c =>
    let r := c.find (x.keyOf hash)
    (r.1, { x with shards := x.shards.setIfInBounds (x.shardOf hash) r.2 })

/-- Whether a hash has a value. -/
def has (x : ShardedIndex σ) (hash : UInt32) : Bool × ShardedIndex σ :=
  match x.shards[x.shardOf hash]? with
  | none => (false, x)
  | some c =>
    let r := c.has (x.keyOf hash)
    (r.1, { x with shards := x.shards.setIfInBounds (x.shardOf hash) r.2 })

/-- Store a value under a hash. -/
def add (x : ShardedIndex σ) (hash : UInt32) (v : V) : ShardedIndex σ :=
  match x.shards[x.shardOf hash]? with
  | none => x
  | some c =>
    { x with shards := x.shards.setIfInBounds (x.shardOf hash) (c.add (x.keyOf hash) v) }

/-- Remove a value, if it is stored under the hash. -/
def delete [DecidableEq V] (x : ShardedIndex σ) (hash : UInt32) (v : V) : Bool × ShardedIndex σ :=
  match x.shards[x.shardOf hash]? with
  | none => (false, x)
  | some c =>
    let r := c.delete (x.keyOf hash) v
    (r.1, { x with shards := x.shards.setIfInBounds (x.shardOf hash) r.2 })

/-- The number of entries. -/
def entries (x : ShardedIndex σ) : Nat :=
  (x.shards.toList.map Chain.entries).foldl (· + ·) 0

/-- The number of segments given up so far. -/
def evictions (x : ShardedIndex σ) : Nat :=
  (x.shards.toList.map Chain.evictions).foldl (· + ·) 0

end ShardedIndex

end DedupImage
