import DedupImage.Index.Segment
import Std.Data.TreeMap

/-!
# Segments in memory

The plainest segment is a finite map and never fails.
-/

namespace DedupImage

/-- A segment that is a finite map. -/
structure TableSegment (V : Type) where
  map : Std.TreeMap UInt32 V := ∅

namespace TableSegment

variable {V : Type}

/-- The segment without entries. -/
def empty : TableSegment V := {}

/-- The segment with the given entries, later ones before earlier ones of the same key. -/
def ofList (entries : List (UInt32 × V)) : TableSegment V :=
  ⟨entries.foldl (fun m e => m.insert e.1 e.2) ∅⟩

end TableSegment

instance {V : Type} : Segment (TableSegment V) V where
  get s k := .ok (s.map[k]?, s)
  has s k := .ok (s.map.contains k, s)
  put s k v := .ok ⟨s.map.insert k v⟩
  delete s k := .ok ⟨s.map.erase k⟩
  entries s := s.map.size

end DedupImage
