import DedupImage.Batch.Repeats
import DedupImage.Placement.Place

/-!
# Placing a batch

The items of a batch are placed one after another, each cut into blocks of its size. A position that
the batch is known to repeat is offered the earlier block first. The block numbers of an item are
delivered when its last block is placed, so when the batch breaks off the lists of the item at hand and
of all later ones stay empty.

Blocks are placed as they are read. So the blocks before a failing read are placed, and if one of these
placements fails, that failure is the one reported.
-/

namespace DedupImage

/-- A batch that is being placed. -/
structure BatchState (ι : Type) where
  placement : Placement ι
  /-- The block number of every position so far. -/
  placed : Array BlockNum := #[]
  /-- The block numbers of every item, by the place at which it was scheduled. -/
  lists : Array (Array BlockNum)

namespace BatchState

variable {ι : Type} [Catalog ι]

/-- Place the block at the next position. -/
def placeNext (s : BatchState ι) (repeats : Repeats) (data : ByteArray) :
    Except Failure BlockNum × BatchState ι :=
  let r :=
    match (repeats.earlier? s.placed.size).bind (s.placed[·]?) with
    | some earlier => s.placement.placeRepeat data earlier
    | none => s.placement.place data
  match r with
  | (.error e, p) => (.error e, { s with placement := p })
  | (.ok b, p) => (.ok b, { s with placement := p, placed := s.placed.push b })

/-- Place blocks in order until one fails; the numbers of those placed are added to `list`. -/
def placeBlocks (s : BatchState ι) (repeats : Repeats) (list : Array BlockNum) :
    List ByteArray → Except Failure (Array BlockNum) × BatchState ι
  | [] => (.ok list, s)
  | data :: rest =>
    match s.placeNext repeats data with
    | (.error e, s) => (.error e, s)
    | (.ok b, s) => placeBlocks s repeats (list.push b) rest

/-- Place the blocks of an item, which is opened for the `opening`th time. -/
def placeItem (s : BatchState ι) (repeats : Repeats) (opening : Nat) (item : ScheduledItem) :
    Except Failure Unit × BatchState ι :=
  match item.source.reader opening with
  | .error e => (.error (.storage e), s)
  | .ok reader =>
    let (blocks, ending) := reader.blocks item.blockSize
    match s.placeBlocks repeats #[] blocks.toList with
    | (.error e, s) => (.error e, s)
    | (.ok list, s) =>
      match ending with
      | some e => (.error (.storage e), s)
      | none => (.ok (), { s with lists := s.lists.setIfInBounds item.slot list })

/-- Place items in order until one fails. -/
def placeAll (s : BatchState ι) (repeats : Repeats) (opening : Nat) :
    List ScheduledItem → Except Failure Unit × BatchState ι
  | [] => (.ok (), s)
  | item :: rest =>
    match s.placeItem repeats opening item with
    | (.error e, s) => (.error e, s)
    | (.ok (), s) => placeAll s repeats opening rest

end BatchState

end DedupImage
