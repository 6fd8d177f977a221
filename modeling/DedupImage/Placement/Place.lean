import DedupImage.Placement.Reuse
import DedupImage.Placement.Write

/-!
# Placing a block

A block is looked for, and written if it is not found. A block that is expected to repeat an earlier
one is compared with that one first, which needs no look-up and no search.

Every call returns the state, also when it fails: what had happened before the failure stays. That is
the count of placed blocks, and possibly a new empty container.
-/

namespace DedupImage.Placement

variable {ι : Type} [Catalog ι]

/-- Write a block. -/
def writeNew (p : Placement ι) (hash : UInt32) (data : ByteArray) (indexed : Bool) :
    Except Failure BlockNum × Placement ι :=
  p.carryOut (p.writePlan data) hash data indexed

/-- Find a block, or write it. -/
def place (p : Placement ι) (data : ByteArray) : Except Failure BlockNum × Placement ι :=
  let p := { p with stats := { p.stats with placed := p.stats.placed + 1 } }
  let hash := p.settings.hash data
  if p.settings.dedup.indexes data then
    match p.findHit hash data with
    | (.error e, p) => (.error e, p)
    | (.ok (some hit), p) =>
      let r := p.useHit hash hit data.size
      (.ok r.1, r.2)
    | (.ok none, p) => p.writeNew hash data true
  else
    p.writeNew hash data false

/-- Place a block that is expected to repeat the block `earlier`. -/
def placeRepeat (p : Placement ι) (data : ByteArray) (earlier : BlockNum) :
    Except Failure BlockNum × Placement ι :=
  match p.record? earlier with
  | none => p.place data
  | some r =>
    if p.storesAs r data then
      (.ok earlier,
        { p with
          stats := { p.stats with placed := p.stats.placed + 1, reused := p.stats.reused + 1 } })
    else
      p.place data

end DedupImage.Placement
