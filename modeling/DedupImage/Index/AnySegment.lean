import DedupImage.Index.BucketSegment
import DedupImage.Index.FileSegment
import DedupImage.Index.TableSegment

/-!
# Segments chosen when the index is made

A configuration names a kind of storage, so the segments of one index are of a type that covers all
kinds. A fourth kind, `FaultySegment`, keeps its entries in memory and has operations that always fail;
it stands for storage that is lost.
-/

namespace DedupImage

/-- Where the segments of an index are kept. -/
inductive Backend where
  | memory
  | compressed
  | disk
  deriving DecidableEq, Repr, Inhabited

/-- A segment some of whose operations always fail. -/
structure FaultySegment (V : Type) where
  table : TableSegment V
  getFails : Bool
  hasFails : Bool
  putFails : Bool
  deleteFails : Bool

instance {V : Type} : Segment (FaultySegment V) V where
  get s k := if s.getFails then .error .other else .ok (s.table.map[k]?, s)
  has s k := if s.hasFails then .error .other else .ok (s.table.map.contains k, s)
  put s k v :=
    if s.putFails then .error .other else .ok { s with table := ⟨s.table.map.insert k v⟩ }
  delete s k :=
    if s.deleteFails then .error .other else .ok { s with table := ⟨s.table.map.erase k⟩ }
  entries s := s.table.map.size

/-- A segment of any kind. -/
inductive AnySegment (V : Type) where
  | table (s : TableSegment V)
  | buckets (s : BucketSegment V)
  | file (s : FileSegment V)
  | faulty (s : FaultySegment V)

namespace AnySegment

variable {V : Type} [RecordValue V]

/-- The value of a key. -/
def get (s : AnySegment V) (k : UInt32) : Except StorageFailure (Option V × AnySegment V) :=
  match s with
  | table s => (Segment.get s k).map fun r => (r.1, table r.2)
  | buckets s => (Segment.get s k).map fun r => (r.1, buckets r.2)
  | file s => (Segment.get s k).map fun r => (r.1, file r.2)
  | faulty s => (Segment.get s k).map fun r => (r.1, faulty r.2)

/-- Whether a key has a value. -/
def has (s : AnySegment V) (k : UInt32) : Except StorageFailure (Bool × AnySegment V) :=
  match s with
  | table s => (Segment.has s k).map fun r => (r.1, table r.2)
  | buckets s => (Segment.has s k).map fun r => (r.1, buckets r.2)
  | file s => (Segment.has s k).map fun r => (r.1, file r.2)
  | faulty s => (Segment.has s k).map fun r => (r.1, faulty r.2)

/-- Store a value under a key. -/
def put (s : AnySegment V) (k : UInt32) (v : V) : Except StorageFailure (AnySegment V) :=
  match s with
  | table s => (Segment.put s k v).map table
  | buckets s => (Segment.put s k v).map buckets
  | file s => (Segment.put s k v).map file
  | faulty s => (Segment.put s k v).map faulty

/-- Remove the value of a key. -/
def delete (s : AnySegment V) (k : UInt32) : Except StorageFailure (AnySegment V) :=
  match s with
  | table s => (Segment.delete s k).map table
  | buckets s => (Segment.delete s k).map buckets
  | file s => (Segment.delete s k).map file
  | faulty s => (Segment.delete s k).map faulty

/-- The number of keys with a value. -/
def entries : AnySegment V → Nat
  | table s => Segment.entries s
  | buckets s => Segment.entries s
  | file s => Segment.entries s
  | faulty s => Segment.entries s

/-- The number of stored buckets, for a segment that has buckets. -/
def storedBuckets? : AnySegment V → Option Nat
  | buckets s => some s.storedBuckets
  | _ => none

/-- A new segment. Files can be made only if their directory is there. -/
def fresh (backend : Backend) (codec : Codec) (directory : Bool) :
    Except StorageFailure (AnySegment V) :=
  match backend with
  | .memory => .ok (table .empty)
  | .compressed => .ok (buckets { codec := codec })
  | .disk => if directory then .ok (file {}) else .error .notFound

end AnySegment

instance {V : Type} [RecordValue V] : Segment (AnySegment V) V where
  get := AnySegment.get
  has := AnySegment.has
  put := AnySegment.put
  delete := AnySegment.delete
  entries := AnySegment.entries

end DedupImage
