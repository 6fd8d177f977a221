import DedupImage.Placement.Windows

/-!
# Blocks that have to be written

A block that is not stored yet is tried in a few containers: the one it fits into most tightly, and
the newest others. Each gives its cheapest fit. A fit that shares bytes with the container may fill it
up to its capacity, one that shares none has to leave the reserve. The fit that adds the fewest bytes
wins, the lowest container among equals; if there is none the block starts a new container.

Carrying out the plan checks it once more against the container, and nothing is registered, entered or
counted before the bytes are written.
-/

namespace DedupImage.Placement

variable {ι : Type} [Catalog ι]

/-- Where a block is to be written. -/
structure WritePlan where
  /-- None to start a new container. -/
  container : Option Nat
  fit : Fit
  deriving DecidableEq, Repr

/-- The containers that are tried for a block of `length` bytes. -/
def candidates (p : Placement ι) (length : Nat) : List Nat :=
  let most := max p.settings.maxCandidates 1
  let best := (p.store.bestFit length).toList
  (best ++ (p.store.newest most).filter fun id => !best.contains id).take most

/-- How a block fits into stored bytes: the pattern, if overlaps are searched, or only its length. -/
def fitInto (p : Placement ι) (pattern : Option Pattern) (length : Nat) (text : ByteArray) :
    Option Fit :=
  match pattern with
  | some pattern =>
    pattern.fit? text ⟨p.settings.leastOverlap, p.settings.granularity, p.store.capacity⟩
  | none => some (Fit.append text.size length)

/-- Whether a fit leaves enough room. -/
def acceptable (p : Placement ι) (length : Nat) (fit : Fit) : Bool :=
  if 0 < fit.shared length then
    decide (fit.newSize ≤ p.store.capacity)
  else
    decide (fit.newSize ≤ p.store.capacity - p.store.reserve)

/-- Whether the first of two fits in different containers is better. -/
def better (a b : Nat × Fit) : Bool :=
  decide (a.2.added < b.2.added) || (a.2.added == b.2.added && decide (a.1 < b.1))

/-- The best of the fits that are acceptable. -/
def bestOf (p : Placement ι) (length : Nat) : List (Nat × Option Fit) → Option (Nat × Fit)
  | [] => none
  | (_, none) :: rest => bestOf p length rest
  | (id, some fit) :: rest =>
    let other := bestOf p length rest
    if p.acceptable length fit then
      match other with
      | none => some (id, fit)
      | some o => if better o (id, fit) then some o else some (id, fit)
    else
      other

/-- Where to write a block. -/
def writePlan (p : Placement ι) (data : ByteArray) : WritePlan :=
  let pattern := if p.settings.dedup.overlaps then some (Pattern.ofBytes data) else none
  let fits := (p.candidates data.size).map fun id =>
    (id, p.fitInto pattern data.size (p.store.data id))
  match p.bestOf data.size fits with
  | some (id, fit) => ⟨some id, fit⟩
  | none => ⟨none, Fit.append 0 data.size⟩

/-- The container of a plan, which is made if the plan asks for a new one. -/
def containerFor (p : Placement ι) (plan : WritePlan) : Except Failure (Nat × Placement ι) :=
  match plan.container with
  | some id => .ok (id, p)
  | none =>
    match p.store.create with
    | .error e => .error (.storage e)
    | .ok (id, store) => .ok (id, { p with store := store })

/-- Count, register and enter a block that was written. -/
def commit (p : Placement ι) (container newSize : Nat) (fit : Fit) (hash : UInt32)
    (length : Nat) (indexed : Bool) : BlockNum × Placement ι :=
  let shared := fit.shared length
  let p :=
    { p with
      stats :=
        { p.stats with
          writtenBytes := p.stats.writtenBytes + fit.added
          overlappedBytes := p.stats.overlappedBytes + shared } }
  let (b, p) := p.register ⟨Location.ofNat container fit.base, length⟩
  let index := if indexed then p.index.map (Catalog.addReal · hash b) else p.index
  let p := { p with index := index }
  (b, p.enterDueWindows container newSize (decide (0 < shared)))

/-- Carry out a plan. If the write fails, a container that was made for it stays, empty. -/
def carryOut (p : Placement ι) (plan : WritePlan) (hash : UInt32) (data : ByteArray)
    (indexed : Bool) : Except Failure BlockNum × Placement ι :=
  match p.containerFor plan with
  | .error e => (.error e, p)
  | .ok (id, p) =>
    match p.store.append id plan.fit.base data with
    | .error e => (.error e, p)
    | .ok (newSize, store) =>
      let r := commit { p with store := store } id newSize plan.fit hash data.size indexed
      (.ok r.1, r.2)

end DedupImage.Placement
