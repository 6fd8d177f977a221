import DedupImage.Failure
import DedupImage.Store.Rooms

/-!
# Containers that are being filled

A container is a byte string that only ever grows at its end, up to a capacity. `ContainerStore.append`
places a block at a position inside or right behind the stored bytes and writes only the part of it
that lies past the end. The caller has made sure that the rest of the block is already there.

A plain append has to leave a reserve in its container, so the ranking lists only containers with at
least that much room, and the best fit for `n` bytes has room for them and for the reserve.
-/

namespace DedupImage

/-- Where the bytes of a growing container are kept. A container can only be made if the place exists. -/
inductive Staging where
  | memory
  | mapped
  | missing
  deriving DecidableEq, Repr, Inhabited

/-- Growing containers. -/
structure ContainerStore where
  contents : Array ByteArray
  ranking : Rooms
  /-- The most bytes of a container. -/
  capacity : Nat
  /-- The room that a plain append leaves. -/
  reserve : Nat
  staging : Staging

namespace ContainerStore

/-- The store without containers. -/
def empty (capacity reserve : Nat) (staging : Staging) : ContainerStore :=
  ⟨#[], .empty, capacity, reserve, staging⟩

/-- The number of containers. -/
def count (s : ContainerStore) : Nat := s.contents.size

/-- The bytes of a container; none are in one that does not exist. -/
def data (s : ContainerStore) (id : Nat) : ByteArray :=
  s.contents.getD id ByteArray.empty

/-- The size of a container. -/
def size (s : ContainerStore) (id : Nat) : Nat := (s.data id).size

/-- The rank of a container of this size: its room, unless that is below the reserve. -/
def rank (s : ContainerStore) (size : Nat) : Option Nat :=
  let room := s.capacity - size
  if s.reserve ≤ room then some room else none

/-- Start a new empty container; its number is the number of containers so far. -/
def create (s : ContainerStore) : Except StorageFailure (Nat × ContainerStore) :=
  if s.staging = .missing then
    .error .notFound
  else
    .ok
      (s.count,
        { s with
          contents := s.contents.push ByteArray.empty
          ranking := s.ranking.set s.count (s.rank 0) })

/-- The container with the least room that has space for `needed` bytes and the reserve, a sum that
stops growing at the largest 32-bit number. -/
def bestFit (s : ContainerStore) (needed : Nat) : Option Nat :=
  s.ranking.smallest? (min (needed + s.reserve) (UInt32.size - 1))

/-- Up to `n` of the newest containers, newest first. -/
def newest (s : ContainerStore) (n : Nat) : List Nat :=
  (List.range s.count).reverse.take n

/-- Place a block at `base` in a container: its new size, and the store. A place past the end is
refused before a size above the capacity. -/
def append (s : ContainerStore) (id base : Nat) (block : ByteArray) :
    Except Failure (Nat × ContainerStore) :=
  let old := s.data id
  let stop := base + block.size
  if old.size < base then
    .error (.corruption (.placedPastEnd base id old.size))
  else if s.capacity < stop then
    .error (.capacityExceeded id stop s.capacity)
  else
    let new := old ++ block.extract (old.size - base) block.size
    .ok
      (new.size,
        { s with
          contents := s.contents.setIfInBounds id new
          ranking := s.ranking.set id (s.rank new.size) })

/-- Whether a byte string is stored at a location. -/
def holds (s : ContainerStore) (l : Location) (data : ByteArray) : Bool :=
  match s.contents[l.container.toNat]? with
  | none => false
  | some bytes => holdsAt bytes l.offset.toNat data

/-- The text of a store. -/
def text (s : ContainerStore) : String :=
  "ContainerStore \x7b containers: " ++ toString s.count ++ ", capacity: " ++ toString s.capacity ++
    ", min_free_space: " ++ toString s.reserve ++ ", .. \x7d"

/-- The text of one container. -/
def dataText (s : ContainerStore) (id : Nat) : String :=
  let kind := if s.staging = .memory then "Memory" else "Mapped"
  "Staging \x7b kind: \"" ++ kind ++ "\", len: " ++ toString (s.size id) ++ " \x7d"

end ContainerStore

end DedupImage
