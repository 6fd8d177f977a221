import DedupImage.Index.Segment

/-!
# Chains of segments

A segment holds one value per key; a chain of segments holds several, at most one in each. A value is
stored in the oldest segment that has none for its key and still has room. When no segment takes it, a
new one is opened, and if the chain is already as long as it may be, the oldest segment is given up
first, with all its entries.

A segment that fails is given up as well, and the operation goes on with the next one. So a chain never
fails: it forgets, and counts how many segments it gave up.

Every operation walks down the list of segments once. It returns what it found, the segments that
remain, and the number of those that were given up.
-/

namespace DedupImage

/-- What a walk along the segments leaves. -/
structure Walk (σ α : Type) where
  /-- What the walk found. -/
  answer : α
  /-- The segments that remain, oldest first. -/
  kept : List σ
  /-- The number of segments that were given up. -/
  lost : Nat

namespace Walk

variable {σ V : Type} [Segment σ V]

/-- The walk that begins with one more segment, which remains. -/
def keep {α : Type} (s : σ) (w : Walk σ α) : Walk σ α :=
  { w with kept := s :: w.kept }

/-- The walk that begins with one more segment, which is given up. -/
def lose {α : Type} (w : Walk σ α) : Walk σ α :=
  { w with lost := w.lost + 1 }

/-- Every value of a key, oldest segment first. -/
def find (key : UInt32) : List σ → Walk σ (List V)
  | [] => ⟨[], [], 0⟩
  | s :: rest =>
    match Segment.get s key with
    | .error _ => (find key rest).lose
    | .ok (none, s) => (find key rest).keep s
    | .ok (some v, s) =>
      let w := find key rest
      ⟨v :: w.answer, s :: w.kept, w.lost⟩

/-- Whether a key has a value. Segments behind the first one that has are not asked. -/
def has (key : UInt32) : List σ → Walk σ Bool
  | [] => ⟨false, [], 0⟩
  | s :: rest =>
    match Segment.has s key with
    | .error _ => (has key rest).lose
    | .ok (true, s) => ⟨true, s :: rest, 0⟩
    | .ok (false, s) => (has key rest).keep s

/-- Store a value in the first segment that has room and no value for its key; the answer says
whether there was one. -/
def add (room : Nat) (key : UInt32) (v : V) : List σ → Walk σ Bool
  | [] => ⟨false, [], 0⟩
  | s :: rest =>
    if room ≤ Segment.entries s then
      (add room key v rest).keep s
    else
      match Segment.has s key with
      | .error _ => (add room key v rest).lose
      | .ok (true, s) => (add room key v rest).keep s
      | .ok (false, s) =>
        match Segment.put s key v with
        | .error _ => (add room key v rest).lose
        | .ok s => ⟨true, s :: rest, 0⟩

/-- Remove a value from the first segment that holds it for the key; the answer says whether there was
one. -/
def delete [DecidableEq V] (key : UInt32) (v : V) : List σ → Walk σ Bool
  | [] => ⟨false, [], 0⟩
  | s :: rest =>
    match Segment.get s key with
    | .error _ => (delete key v rest).lose
    | .ok (found, s) =>
      if found = some v then
        match Segment.delete s key with
        | .error _ => (delete key v rest).lose
        | .ok s => ⟨true, s :: rest, 0⟩
      else
        (delete key v rest).keep s

end Walk

/-- Segments, oldest first, with the limits on them. -/
structure Chain (σ : Type) where
  segments : List σ
  /-- A new segment, or why none can be opened. -/
  fresh : Except StorageFailure σ
  /-- The most segments. -/
  most : Nat
  /-- The most entries of a segment that still takes values. -/
  room : Nat
  /-- The number of segments given up so far. -/
  evictions : Nat

namespace Chain

variable {σ V : Type} [Segment σ V]

/-- The chain without segments. Both limits are at least one. -/
def empty (fresh : Except StorageFailure σ) (most room : Nat) : Chain σ :=
  ⟨[], fresh, max most 1, max room 1, 0⟩

/-- The chain after a walk. -/
def after {α : Type} (c : Chain σ) (w : Walk σ α) : Chain σ :=
  { c with segments := w.kept, evictions := c.evictions + w.lost }

/-- Every value of a key, oldest segment first. -/
def find (c : Chain σ) (key : UInt32) : List V × Chain σ :=
  let w := Walk.find key c.segments
  (w.answer, c.after w)

/-- Whether a key has a value. -/
def has (c : Chain σ) (key : UInt32) : Bool × Chain σ :=
  let w := Walk.has key c.segments
  (w.answer, c.after w)

/-- Give up the oldest segment if there are as many as there may be. -/
def makeRoom (c : Chain σ) : Chain σ :=
  if c.most ≤ c.segments.length then
    { c with segments := c.segments.drop 1, evictions := c.evictions + 1 }
  else
    c

/-- Store a value in a new segment; it is forgotten if none can be opened. -/
def extend (c : Chain σ) (key : UInt32) (v : V) : Chain σ :=
  let c := c.makeRoom
  match c.fresh with
  | .error _ => c
  | .ok s =>
    match Segment.put s key v with
    | .error _ => c
    | .ok s => { c with segments := c.segments ++ [s] }

/-- Store a value. -/
def add (c : Chain σ) (key : UInt32) (v : V) : Chain σ :=
  let w := Walk.add c.room key v c.segments
  if w.answer then c.after w else (c.after w).extend key v

/-- Remove a value, if it is stored under the key. -/
def delete [DecidableEq V] (c : Chain σ) (key : UInt32) (v : V) : Bool × Chain σ :=
  let w := Walk.delete key v c.segments
  (w.answer, c.after w)

/-- The number of entries of all segments. -/
def entries (c : Chain σ) : Nat :=
  (c.segments.map Segment.entries).foldl (· + ·) 0

/-- The chain with one more segment, the newest. -/
def pushNewest (c : Chain σ) (s : σ) : Chain σ :=
  { c with segments := c.segments ++ [s] }

/-- The chain with one more segment, the oldest. -/
def pushOldest (c : Chain σ) (s : σ) : Chain σ :=
  { c with segments := s :: c.segments }

end Chain

end DedupImage
