import DedupImage.Codec.Basic
import DedupImage.Index.Segment
import Std.Data.TreeMap

/-!
# Segments in compressed buckets

The keys are divided into buckets of 4096 neighbours. A bucket is a string of records, one for each of
its keys, and is kept compressed. One bucket at a time is kept open, uncompressed. When another bucket
is needed the open one is put away: nothing is done if it was not changed, it is compressed and stored
if it was, and it is dropped if no record in it is present.

Reading a key, or deleting one, whose bucket is neither open nor stored changes nothing. Only storing
a value makes a new bucket.
-/

namespace DedupImage

/-- A bucket that is open. -/
structure Bucket where
  number : Nat
  records : ByteArray
  /-- It differs from what is stored under its number. -/
  changed : Bool

/-- A segment of compressed buckets, one of which may be open. -/
structure BucketSegment (V : Type) where
  codec : Codec
  stored : Std.TreeMap Nat ByteArray := ∅
  opened : Option Bucket := none
  /-- The number of present records. -/
  present : Nat := 0

namespace BucketSegment

variable {V : Type} [RecordValue V]

/-- Keys per bucket. -/
def slots : Nat := 4096

/-- The bytes of an open bucket. -/
def bucketSize (V : Type) [RecordValue V] : Nat := slots * Record.size V

/-- The bucket of a key. -/
def bucketOf (key : UInt32) : Nat := key.toNat / slots

/-- The place of a key's record in its bucket. -/
def placeOf (V : Type) [RecordValue V] (key : UInt32) : Nat :=
  key.toNat % slots * Record.size V

/-- The number of buckets that are stored. -/
def storedBuckets (s : BucketSegment V) : Nat := s.stored.size

/-- Put the open bucket away. -/
def putAway (s : BucketSegment V) : Except StorageFailure (BucketSegment V) :=
  match s.opened with
  | none => .ok s
  | some b =>
    let s := { s with opened := none }
    if !b.changed then
      .ok s
    else if isBlank b.records then
      .ok { s with stored := s.stored.erase b.number }
    else
      match s.codec.compressInto b.records with
      | .error e => .error e
      | .ok packed => .ok { s with stored := s.stored.insert b.number packed }

/-- The records of a bucket that is not open: what is stored under its number, or blank. -/
def fetch (s : BucketSegment V) (number : Nat) : Except StorageFailure ByteArray :=
  match s.stored[number]? with
  | none => .ok (zeros (bucketSize V))
  | some packed =>
    match s.codec.decompressInto packed (bucketSize V) with
    | .error e => .error e
    | .ok records => if records.size = bucketSize V then .ok records else .error .other

/-- Take out a bucket: the bucket, and the segment without an open one. There is none if it is neither
open nor stored, unless it may be made anew. -/
def take (s : BucketSegment V) (number : Nat) (make : Bool) :
    Except StorageFailure (Option (Bucket × BucketSegment V)) :=
  match s.opened with
  | some b =>
    if b.number = number then .ok (some (b, { s with opened := none })) else other
  | none => other
where
  /-- Take out a bucket that is not open. -/
  other : Except StorageFailure (Option (Bucket × BucketSegment V)) :=
    if !make && !s.stored.contains number then
      .ok none
    else
      match s.putAway with
      | .error e => .error e
      | .ok s =>
        match s.fetch number with
        | .error e => .error e
        | .ok records => .ok (some (⟨number, records, false⟩, s))

/-- The value of a key. -/
def get (s : BucketSegment V) (key : UInt32) : Except StorageFailure (Option V × BucketSegment V) :=
  match s.take (bucketOf key) false with
  | .error e => .error e
  | .ok none => .ok (none, s)
  | .ok (some (b, s)) =>
    .ok (Record.readAt b.records (placeOf V key), { s with opened := some b })

/-- Store a value under a key. -/
def put (s : BucketSegment V) (key : UInt32) (v : V) : Except StorageFailure (BucketSegment V) :=
  match s.take (bucketOf key) true with
  | .error e => .error e
  | .ok none => .ok s
  | .ok (some (b, s)) =>
    let place := placeOf V key
    let more := if byteAt b.records place = 0 then 1 else 0
    .ok
      { s with
        opened := some ⟨b.number, overwrite b.records place (Record.present v), true⟩
        present := s.present + more }

/-- Remove the value of a key. -/
def delete (s : BucketSegment V) (key : UInt32) : Except StorageFailure (BucketSegment V) :=
  match s.take (bucketOf key) false with
  | .error e => .error e
  | .ok none => .ok s
  | .ok (some (b, s)) =>
    let place := placeOf V key
    if byteAt b.records place = 0 then
      .ok { s with opened := some b }
    else
      .ok
        { s with
          opened := some ⟨b.number, overwrite b.records place (Record.absent V), true⟩
          present := s.present - 1 }

end BucketSegment

instance {V : Type} [RecordValue V] : Segment (BucketSegment V) V where
  get := BucketSegment.get
  has s k := (s.get k).map fun r => (r.1.isSome, r.2)
  put := BucketSegment.put
  delete := BucketSegment.delete
  entries := BucketSegment.present

end DedupImage
