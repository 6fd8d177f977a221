import DedupImage.Index.Segment
import Std.Data.TreeMap

/-!
# Segments in sparse files

A file holds the record of key `k` at `k` times the record size and is written only there. What was
never written reads as zeros, and behind the last written record the file ends. `RecordFile` is such a
file: the records that were written, and how many records long it is.
-/

namespace DedupImage

/-- A file of records of one width, written here and there. -/
structure RecordFile where
  written : Std.TreeMap UInt32 ByteArray := ∅
  /-- The number of records before the end of the file. -/
  extent : Nat := 0

namespace RecordFile

/-- The record of a key as far as the file goes: none past its end, zeros where nothing was written. -/
def read? (f : RecordFile) (width : Nat) (key : UInt32) : Option ByteArray :=
  if key.toNat < f.extent then some ((f.written[key]?).getD (zeros width)) else none

/-- Write the record of a key. -/
def write (f : RecordFile) (key : UInt32) (record : ByteArray) : RecordFile :=
  ⟨f.written.insert key record, max f.extent (key.toNat + 1)⟩

end RecordFile

/-- A segment in a file. -/
structure FileSegment (V : Type) where
  file : RecordFile := {}
  /-- The number of present records. -/
  present : Nat := 0

namespace FileSegment

variable {V : Type} [RecordValue V]

/-- The value of a key. -/
def lookup (s : FileSegment V) (key : UInt32) : Option V :=
  match s.file.read? (Record.size V) key with
  | none => none
  | some record => Record.readAt record 0

/-- Store a value under a key. -/
def put (s : FileSegment V) (key : UInt32) (v : V) : FileSegment V :=
  let more := if (s.lookup key).isSome then 0 else 1
  ⟨s.file.write key (Record.present v), s.present + more⟩

/-- Remove the value of a key. The file is not written if there is none. -/
def delete (s : FileSegment V) (key : UInt32) : FileSegment V :=
  if (s.lookup key).isSome then ⟨s.file.write key (Record.absent V), s.present - 1⟩ else s

end FileSegment

instance {V : Type} [RecordValue V] : Segment (FileSegment V) V where
  get s k := .ok (s.lookup k, s)
  has s k := .ok ((s.lookup k).isSome, s)
  put s k v := .ok (s.put k v)
  delete s k := .ok (s.delete k)
  entries := FileSegment.present

end DedupImage
