import DedupImage.Batch.Reader

/-!
# Sources

A source is a named stream of bytes that can be opened more than once: once for the pass that looks
for repeats, if there is one, and once to place its blocks. Opening is numbered from zero, for a source
may behave differently each time.

A source also says how long it is. That length is used to count blocks in advance, and what is stored is
what its readers deliver.

A program also uses such a number to reserve memory: for the block numbers of a source, the candidates of a
search, the bytes of a read, the containers of a pool. Here nothing is reserved, in this module or any other,
so no number is too large to reserve memory for.
-/

namespace DedupImage

/-- A named stream that can be opened. -/
structure Source where
  /-- The name's bytes, by which sources are ordered. -/
  name : ByteArray
  /-- The length it claims. -/
  length : Nat
  /-- The reader of each opening, or why it fails. -/
  reader : Nat → Except StorageFailure Reader

namespace Source

/-- A source whose bytes are in memory. -/
def ofBytes (name data : ByteArray) : Source :=
  ⟨name, data.size, fun _ => .ok { content := data }⟩

/-- A source that is a file: as long as it was when it was looked at, with the contents it has when it
is opened, but not read beyond that length. -/
def ofFile (name : ByteArray) (length : Nat) (contents : Option ByteArray) : Source where
  name := name
  length := length
  reader _ :=
    match contents with
    | none => .error .notFound
    | some data => .ok { content := data.extract 0 length }

end Source

/-- Ways in which the readers of a source misbehave. -/
structure Misbehaviour where
  /-- The most bytes a read returns. -/
  chunk : Option Nat := none
  /-- Every so many reads one is interrupted. -/
  interruptEvery : Option Nat := none
  /-- Reads stop at this byte, and a read there fails. -/
  failAt : Option Nat := none
  /-- The opening that is refused. -/
  refusedOpening : Option Nat := none

namespace Misbehaviour

/-- What the `n`th read does, counted from one. -/
def step (m : Misbehaviour) (whole n : Nat) : ReadStep :=
  match m.interruptEvery with
  | some k => if k ≠ 0 ∧ n % k = 0 then .interrupted else .most (m.chunk.getD whole)
  | none => .most (m.chunk.getD whole)

/-- What the reads of a stream of `whole` bytes do, as many as there can be. -/
def script (m : Misbehaviour) (whole : Nat) : List ReadStep :=
  if m.chunk.isSome || m.interruptEvery.isSome then
    (List.range (2 * whole + 2)).map fun n => m.step whole (n + 1)
  else
    []

/-- The reader of a stream. -/
def reader (m : Misbehaviour) (data : ByteArray) : Reader :=
  match m.failAt with
  | some n =>
    if n ≤ data.size then
      { content := data.extract 0 n
        steps := m.script data.size
        ending := some .connectionReset }
    else
      { content := data, steps := m.script data.size }
  | none => { content := data, steps := m.script data.size }

/-- A source with such readers, which claims to be `length` bytes long. -/
def source (m : Misbehaviour) (name : ByteArray) (length : Nat) (data : ByteArray) : Source where
  name := name
  length := length
  reader n := if m.refusedOpening = some n then .error .permissionDenied else .ok (m.reader data)

end Misbehaviour

end DedupImage
