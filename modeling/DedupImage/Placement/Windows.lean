import DedupImage.Placement.State

/-!
# Entering windows

A window is a stretch of a container that is as long as some block. Windows at multiples of a period
are entered into the window index once they are complete, and a container's new windows are entered
together: after it grew by the interval, when it is nearly full, and whenever a block was laid across
its end. After a block was found to be stored already, the window right behind it is entered too, for
data repeats in runs.

A window whose bytes the index already leads to is not entered again.
-/

namespace DedupImage.Placement

variable {ι : Type} [Catalog ι]

/-- Enter a window, unless an entry under its hash leads to the same bytes. -/
def addWindow (p : Placement ι) (l : Location) (window : ByteArray) : Placement ι :=
  match p.index with
  | none => p
  | some index =>
    let hash := p.settings.hash window
    let (known, index) := Catalog.findWindow index hash
    if known.any (p.store.holds · window) then
      { p with index := some index }
    else
      { p with
        index := some (Catalog.addWindow index hash l)
        stats := { p.stats with windowEntries := p.stats.windowEntries + 1 } }

/-- Enter the window of `length` bytes behind the `length` bytes at a location, if it is complete. -/
def predict (p : Placement ι) (l : Location) (length : Nat) : Placement ι :=
  if p.settings.dedup.overlaps then
    let container := l.container.toNat
    let start := l.offset.toNat + length
    if start + length ≤ p.store.size container then
      p.addWindow (Location.ofNat container start) (slice (p.store.data container) start length)
    else
      p
  else
    p

/-- The number of windows that are complete in a container of this size. -/
def windowCount (period blockSize size : Nat) : Nat :=
  if size < blockSize then 0 else (size - blockSize) / period + 1

/-- Enter `n` windows, the first with number `first`. -/
def addWindows (p : Placement ι) (container blockSize first : Nat) : (n : Nat) → Placement ι
  | 0 => p
  | n + 1 =>
    let start := first * max p.settings.windowPeriod 1
    let p := p.addWindow (Location.ofNat container start)
      (slice (p.store.data container) start blockSize)
    addWindows p container blockSize (first + 1) n

/-- Whether the windows of a container are due, which is `size` bytes long now. -/
def windowsDue (p : Placement ι) (container blockSize size : Nat) (overlapped : Bool) : Bool :=
  decide (p.settings.windowInterval ≤ size - p.windowedSize container blockSize) ||
    decide (p.store.capacity ≤ size + p.store.reserve + blockSize) || overlapped

/-- Enter the windows of one block size that became complete since the last time, if they are due. -/
def enterWindows (p : Placement ι) (container size : Nat) (overlapped : Bool) (blockSize : Nat) :
    Placement ι :=
  if p.windowsDue container blockSize size overlapped then
    let period := max p.settings.windowPeriod 1
    let first := windowCount period blockSize (p.windowedSize container blockSize)
    let p := p.addWindows container blockSize first (windowCount period blockSize size - first)
    { p with windowed := p.windowed.insert (windowKey container blockSize) size }
  else
    p

/-- Enter all windows that are due after a block was written. -/
def enterDueWindows (p : Placement ι) (container size : Nat) (overlapped : Bool) : Placement ι :=
  if p.settings.dedup.overlaps && p.index.isSome then
    p.blockSizes.toList.foldl (fun p blockSize => p.enterWindows container size overlapped blockSize) p
  else
    p

end DedupImage.Placement
