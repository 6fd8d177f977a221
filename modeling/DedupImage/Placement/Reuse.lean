import DedupImage.Placement.Windows

/-!
# Blocks that are stored already

The catalog may know a block by the hash of its bytes: as a block, or as a window of a container. What
it says is only a hint. A hit counts if the bytes are there; the first one does, and blocks are tried
before windows.

Two kinds of hint are impossible rather than wrong, since entries are never taken back: a block that is
not in the block table, and a window that starts outside the stored data. They stop the placement.
-/

namespace DedupImage.Placement

variable {ι : Type} [Catalog ι]

/-- Where a block was found. -/
inductive Hit where
  | block (number : BlockNum)
  | window (location : Location)
  deriving DecidableEq, Repr

/-- The first of these blocks that consists of the given bytes. -/
def firstBlock (p : Placement ι) (data : ByteArray) :
    List BlockNum → Except Failure (Option BlockNum)
  | [] => .ok none
  | b :: rest =>
    match p.record? b with
    | none => .error (.corruption (.missingBlock b.number.toNat p.blocks.size))
    | some r => if p.storesAs r data then .ok (some b) else firstBlock p data rest

/-- The first of these locations at which the given bytes are stored. -/
def firstWindow (p : Placement ι) (data : ByteArray) :
    List Location → Except Failure (Option Location)
  | [] => .ok none
  | l :: rest =>
    if p.store.count ≤ l.container.toNat ∨ p.store.size l.container.toNat < l.offset.toNat then
      .error (.corruption (.strayWindow l))
    else if p.store.holds l data then
      .ok (some l)
    else
      firstWindow p data rest

/-- Look for the bytes through the window index, if the mode has one. -/
def findWindowHit (p : Placement ι) (index : ι) (hash : UInt32) (data : ByteArray) :
    Except Failure (Option Hit) × Placement ι :=
  if p.settings.dedup.overlaps then
    let (known, index) := Catalog.findWindow index hash
    let p := { p with index := some index }
    match p.firstWindow data known with
    | .error e => (.error e, p)
    | .ok none => (.ok none, p)
    | .ok (some l) => (.ok (some (.window l)), p)
  else
    (.ok none, p)

/-- Look for the bytes through the catalog. -/
def findHit (p : Placement ι) (hash : UInt32) (data : ByteArray) :
    Except Failure (Option Hit) × Placement ι :=
  match p.index with
  | none => (.ok none, p)
  | some index =>
    let (known, index) := Catalog.findReal index hash
    let p := { p with index := some index }
    match p.firstBlock data known with
    | .error e => (.error e, p)
    | .ok (some b) => (.ok (some (.block b)), p)
    | .ok none => p.findWindowHit index hash data

/-- Make a window a block: its entry moves from the window index to the real index. -/
def promote (p : Placement ι) (hash : UInt32) (l : Location) (length : Nat) :
    BlockNum × Placement ι :=
  let (b, p) := p.register ⟨l, length⟩
  let index := p.index.map fun index =>
    Catalog.addReal (Catalog.deleteWindow index hash l) hash b
  (b,
    { p with
      index := index
      stats :=
        { p.stats with
          windowHits := p.stats.windowHits + 1
          overlappedBytes := p.stats.overlappedBytes + length } })

/-- Resolve a block to what was found, and enter the window behind it. -/
def useHit (p : Placement ι) (hash : UInt32) (hit : Hit) (length : Nat) :
    BlockNum × Placement ι :=
  match hit with
  | .block b =>
    let p := { p with stats := { p.stats with reused := p.stats.reused + 1 } }
    let l := ((p.record? b).map BlockRecord.location).getD default
    (b, p.predict l length)
  | .window l =>
    let (b, p) := p.promote hash l length
    (b, p.predict l length)

end DedupImage.Placement
