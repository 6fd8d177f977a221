import DedupImage.Index.AnySegment
import DedupImage.Index.Sharded

/-!
# Catalogs: what the placement of blocks remembers

Placement looks blocks up by a 32-bit hash of their bytes, in two indexes. The real index leads from
the hash of a stored block to its number. The window index leads from the hash of any stretch of a
container to its location; such a stretch is no block yet, but a block with the same bytes may come.

`Catalog` is the interface of such a pair. It has no laws: placement checks every answer against the
bytes, so it is right for any catalog whatsoever, and only how much it finds depends on the catalog.
`BlockIndex` is the catalog made of two sharded indexes.
-/

namespace DedupImage

/-- How many entries a catalog holds, and how many segments it gave up. -/
structure CatalogStats where
  realEntries : Nat
  windowEntries : Nat
  evictions : Nat
  deriving DecidableEq, Repr

/-- A pair of indexes that placement can use. -/
class Catalog (ι : Type) where
  findReal : ι → UInt32 → List BlockNum × ι
  addReal : ι → UInt32 → BlockNum → ι
  findWindow : ι → UInt32 → List Location × ι
  addWindow : ι → UInt32 → Location → ι
  deleteWindow : ι → UInt32 → Location → ι
  stats : ι → CatalogStats

/-- A real index and a window index. -/
structure BlockIndex (σ τ : Type) where
  real : ShardedIndex σ
  windows : ShardedIndex τ

instance {σ τ : Type} [Segment σ BlockNum] [Segment τ Location] : Catalog (BlockIndex σ τ) where
  findReal x h :=
    let r := x.real.find h
    (r.1, { x with real := r.2 })
  addReal x h b := { x with real := x.real.add h b }
  findWindow x h :=
    let r := x.windows.find h
    (r.1, { x with windows := r.2 })
  addWindow x h l := { x with windows := x.windows.add h l }
  deleteWindow x h l := { x with windows := (x.windows.delete h l).2 }
  stats x :=
    { realEntries := x.real.entries
      windowEntries := x.windows.entries
      evictions := x.real.evictions + x.windows.evictions }

/-- The catalog of an image that is being built. -/
abbrev AnyIndex := BlockIndex (AnySegment BlockNum) (AnySegment Location)

/-- The catalog without entries. -/
def AnyIndex.empty (backend : Backend) (codec : Codec) (directory : Bool) (shape : IndexShape) :
    AnyIndex :=
  { real := ShardedIndex.empty (AnySegment.fresh backend codec directory) shape
    windows := ShardedIndex.empty (AnySegment.fresh backend codec directory) shape }

end DedupImage
