/-!
# Pools of items to be used again

A pool keeps items that are costly to make. An item that is taken from it is new or was reset. It is held
through a handle; when the handle is dropped the item is reset and goes back to the pool, unless the pool
is full or the item has grown too large. An item can also be detached from its handle, and then comes
back only if it is attached again.

`PoolState` holds the pool together with everything that was taken from it. Handles and detached items
are numbered in order of appearance, and a place stays empty once its item has left it.
-/

namespace DedupImage

/-- An item that can be emptied. -/
class Recyclable (α : Type) where
  /-- The `n`th item that is made. -/
  fresh : Nat → α
  reset : α → α
  /-- The memory that an item holds. -/
  footprint : α → Nat

/-- A pool, the items that handles hold, and the items that were detached. -/
structure PoolState (α : Type) where
  /-- The most items the pool keeps. -/
  maxItems : Nat
  /-- The largest footprint of an item it keeps. -/
  maxFootprint : Nat
  /-- The items it keeps, the last returned first. -/
  free : List α := []
  handles : Array (Option α) := #[]
  detached : Array (Option α) := #[]
  /-- The number of items made so far. -/
  made : Nat := 0

namespace PoolState

variable {α : Type} [Recyclable α]

/-- Take an item: the one returned last, or a new one. -/
def take (p : PoolState α) : α × PoolState α :=
  match p.free with
  | x :: rest => (x, { p with free := rest })
  | [] => (Recyclable.fresh p.made, { p with made := p.made + 1 })

/-- Hold an item through the next handle. -/
def hold (p : PoolState α) (x : α) : PoolState α :=
  { p with handles := p.handles.push (some x) }

/-- Take an item and hold it through a handle. -/
def get (p : PoolState α) : α × PoolState α :=
  let (x, p) := p.take
  (x, p.hold x)

/-- Take an item without a handle. -/
def getDetached (p : PoolState α) : α × PoolState α :=
  let (x, p) := p.take
  (x, { p with detached := p.detached.push (some x) })

/-- Move a detached item to a handle. -/
def attach (p : PoolState α) (d : Nat) : Option α × PoolState α :=
  match p.detached.getD d none with
  | none => (none, p)
  | some x => (some x, hold { p with detached := p.detached.setIfInBounds d none } x)

/-- Move the item of a handle to the detached ones. -/
def detach (p : PoolState α) (h : Nat) : Option α × PoolState α :=
  match p.handles.getD h none with
  | none => (none, p)
  | some x =>
    (some x,
      { p with
        handles := p.handles.setIfInBounds h none
        detached := p.detached.push (some x) })

/-- Change the item of a handle. -/
def modify (p : PoolState α) (h : Nat) (f : α → α) : Option α × PoolState α :=
  match p.handles.getD h none with
  | none => (none, p)
  | some x => (some (f x), { p with handles := p.handles.setIfInBounds h (some (f x)) })

/-- Give an item back. -/
def giveBack (p : PoolState α) (x : α) : PoolState α :=
  if Recyclable.footprint x ≤ p.maxFootprint ∧ p.free.length < p.maxItems then
    { p with free := Recyclable.reset x :: p.free }
  else
    p

/-- Drop a handle. -/
def drop (p : PoolState α) (h : Nat) : PoolState α :=
  match p.handles.getD h none with
  | none => p
  | some x => giveBack { p with handles := p.handles.setIfInBounds h none } x

end PoolState

/-- An item that counts how often it was reset. -/
structure CountedItem where
  id : Nat
  footprint : Nat
  resets : Nat
  deriving DecidableEq, Repr

instance : Recyclable CountedItem where
  fresh n := ⟨n, 0, 0⟩
  reset x := { x with resets := x.resets + 1 }
  footprint := CountedItem.footprint

/-- Bytes in a room that stays when they are cleared. -/
structure RoomyBytes where
  bytes : ByteArray
  room : Nat
  size_le : bytes.size ≤ room

instance : Recyclable RoomyBytes where
  fresh _ := ⟨ByteArray.empty, 0, Nat.le_refl 0⟩
  reset b := ⟨ByteArray.empty, b.room, Nat.zero_le b.room⟩
  footprint := RoomyBytes.room

end DedupImage
