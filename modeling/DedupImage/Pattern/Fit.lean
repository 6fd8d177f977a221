import DedupImage.Pattern.Search

/-!
# Fitting a block into stored data

A `Fit` says where a block would start in a container and how long the container would be then.
`Pattern.fit?` gives the fit that adds the fewest bytes: inside the data if the block already occurs
there, else over the longest allowed end of the data, else right behind it. There is none if the
container would grow past its capacity.
-/

namespace DedupImage

/-- Where a block goes in a container. -/
structure Fit where
  /-- The container's size before. -/
  oldSize : Nat
  /-- Where the block starts. -/
  base : Nat
  /-- The container's size after. -/
  newSize : Nat
  deriving DecidableEq, Repr

namespace Fit

/-- A block of `length` bytes that starts at `base`. -/
def starting (oldSize base length : Nat) : Fit :=
  ⟨oldSize, base, max oldSize (base + length)⟩

/-- A block of `length` bytes behind all stored ones. -/
def append (oldSize length : Nat) : Fit :=
  starting oldSize oldSize length

/-- Bytes that have to be written. -/
def added (f : Fit) : Nat := f.newSize - f.oldSize

/-- Bytes of a block of `length` bytes that are already there. -/
def shared (f : Fit) (length : Nat) : Nat := length - f.added

end Fit

/-- Limits on how a block may lie across the end of the stored data. -/
structure FitLimits where
  /-- The shortest overlap. -/
  least : Nat
  /-- Overlaps are multiples of this; zero allows none. -/
  granularity : Nat
  /-- The size a container may not grow beyond. -/
  capacity : Nat
  deriving DecidableEq, Repr

/-- The cheapest fit of the pattern into `text`. What does not fit behind the text has to overlap
it, so the room left raises the shortest overlap. -/
def Pattern.fit? (p : Pattern) (text : ByteArray) (limits : FitLimits) : Option Fit :=
  match p.find? text with
  | some base => some (Fit.starting text.size base p.size)
  | none =>
    let required := p.size - (limits.capacity - text.size)
    if text.size < required then
      none
    else
      match p.tail? text (max limits.least required) limits.granularity with
      | some base => some (Fit.starting text.size base p.size)
      | none => if 0 < required then none else some (Fit.append text.size p.size)

end DedupImage
