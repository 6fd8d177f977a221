import Std.Data.TreeMap
import Std.Data.TreeSet

/-!
# Containers ranked by room

To find the container that a block fits into most tightly, the containers are ranked by the room that
is left in them. `byRoom` leads from a room to the containers that have exactly that much; `rooms`
leads from a container back to its rank, so that the rank can be changed. A container without a rank
is in neither.
-/

namespace DedupImage

/-- Ranked containers. -/
structure Rooms where
  byRoom : Std.TreeMap Nat (Std.TreeSet Nat) := ∅
  /-- The rank of each container that ever had one. -/
  rooms : Array (Option Nat) := #[]

namespace Rooms

/-- Without ranked containers. -/
def empty : Rooms := {}

/-- Take a container out of a rank, and the rank out of the map once it is empty. -/
def leave (byRoom : Std.TreeMap Nat (Std.TreeSet Nat)) (room id : Nat) :
    Std.TreeMap Nat (Std.TreeSet Nat) :=
  let ids := (byRoom.getD room ∅).erase id
  if ids.isEmpty then byRoom.erase room else byRoom.insert room ids

/-- Put a container into a rank. -/
def join (byRoom : Std.TreeMap Nat (Std.TreeSet Nat)) (room id : Nat) :
    Std.TreeMap Nat (Std.TreeSet Nat) :=
  byRoom.insert room ((byRoom.getD room ∅).insert id)

/-- Give a container a new rank, or none. -/
def set (r : Rooms) (id : Nat) (room : Option Nat) : Rooms :=
  let rooms := r.rooms ++ Array.replicate (id + 1 - r.rooms.size) none
  let byRoom :=
    match rooms.getD id none with
    | none => r.byRoom
    | some old => leave r.byRoom old id
  let byRoom :=
    match room with
    | none => byRoom
    | some room => join byRoom room id
  ⟨byRoom, rooms.setIfInBounds id room⟩

/-- The container with the least room of at least this much, the lowest number among equals. -/
def smallest? (r : Rooms) (room : Nat) : Option Nat :=
  match r.byRoom.getEntryGE? room with
  | none => none
  | some (_, ids) => ids.min?

end Rooms

end DedupImage
