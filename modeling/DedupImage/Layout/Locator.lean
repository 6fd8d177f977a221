import DedupImage.Bytes
import DedupImage.Layout.Location

/-!
# Locators: the entries of the block table

A locator is the stored form of a location. An image uses one of two formats for all its locators:

- packed: one 32-bit word, `container * containerSize + offset`;
- unpacked: the container and the offset, 32 bits each.

The packed word is half as long, but it exists only for offsets below the container size and sums
below 2^32. `LocatorFormat.choose` decides from the sizes of the image, before any location is known,
whether packing is worth trying; `LocatorFormat.pushAll` then says whether all locations do pack.
-/

namespace DedupImage

/-- A stored location. -/
inductive Locator where
  | packed (value : UInt32)
  | unpacked (container offset : UInt32)
  deriving DecidableEq, Repr

/-- How the locators of one image are stored. -/
inductive LocatorFormat where
  | packed (containerSize : UInt32)
  | unpacked
  deriving DecidableEq, Repr

namespace LocatorFormat

/-- The packed format if it is allowed and the largest offset times the number of containers is below
2^32. -/
def choose (allowPacked : Bool) (containerSize containerCount : UInt32) : LocatorFormat :=
  if allowPacked && decide (0 < containerSize.toNat) &&
      decide ((containerSize.toNat - 1) * containerCount.toNat < UInt32.size) then
    packed containerSize
  else
    unpacked

/-- Bytes per locator. -/
def entrySize : LocatorFormat → Nat
  | packed _ => 4
  | unpacked => 8

/-- The locator of a location, if it has one in this format. -/
def encode : LocatorFormat → Location → Option Locator
  | packed containerSize, l =>
    let value := l.container.toNat * containerSize.toNat + l.offset.toNat
    if l.offset < containerSize ∧ value < UInt32.size then some (.packed value.toUInt32) else none
  | unpacked, l => some (.unpacked l.container l.offset)

/-- The location of a locator. A locator of the other format is read by its own shape; a packed word
without a container size counts as an offset into the first container. -/
def decode : LocatorFormat → Locator → Location
  | packed containerSize, .packed value => ⟨value / containerSize, value % containerSize⟩
  | unpacked, .packed value => ⟨0, value⟩
  | _, .unpacked container offset => ⟨container, offset⟩

/-- Read a locator from the bytes at `start`; none if they end too early. -/
def readAt (f : LocatorFormat) (data : ByteArray) (start : Nat) : Option Locator :=
  match f with
  | packed _ =>
    if start + 4 ≤ data.size then some (.packed (numberAt data start 4).toUInt32) else none
  | unpacked =>
    if start + 8 ≤ data.size then
      some (.unpacked (numberAt data start 4).toUInt32 (numberAt data (start + 4) 4).toUInt32)
    else
      none

end LocatorFormat

/-- Add a locator's bytes. -/
def Locator.push (out : ByteArray) : Locator → ByteArray
  | packed value => pushNumber out 4 value.toNat
  | unpacked container offset => pushNumber (pushNumber out 4 container.toNat) 4 offset.toNat

/-- Add the locators of all locations in order; none as soon as one has no locator. -/
def LocatorFormat.pushAll (f : LocatorFormat) (out : ByteArray) :
    List Location → Option ByteArray
  | [] => some out
  | l :: rest =>
    match f.encode l with
    | none => none
    | some locator => f.pushAll (locator.push out) rest

end DedupImage
