import DedupImage.Failure

/-!
# Readers, and the blocks they deliver

A reader hands out its bytes in reads of its own choosing. A read returns at most as many bytes as were
asked for, or is interrupted and has to be repeated. A read that returns nothing is taken for the end,
wherever it happens. A reader here is its content and a script: what each of the next reads does. A
reader whose script is used up delivers whatever is asked for. At the end of its content it stops, or
fails.

`Reader.blocks` cuts a reader into blocks of one size. If every read returns something, how the bytes
were delivered cannot be seen in the blocks.
-/

namespace DedupImage

/-- What one read does. -/
inductive ReadStep where
  /-- It returns at most this many bytes. -/
  | most (n : Nat)
  /-- It is interrupted, and consumes nothing. -/
  | interrupted
  deriving DecidableEq, Repr

/-- An open stream of bytes. -/
structure Reader where
  content : ByteArray
  /-- The bytes that were handed out. -/
  position : Nat := 0
  /-- What the next reads do. -/
  steps : List ReadStep := []
  /-- The failure of a read at the end of the content; none if the stream just ends there. -/
  ending : Option StorageFailure := none

namespace Reader

/-- What a read at the end gives. -/
def atEnd (r : Reader) (steps : List ReadStep) : Except StorageFailure (Nat × List ReadStep) :=
  match r.ending with
  | none => .ok (r.content.size, steps)
  | some e => .error e

/-- Read until position `stop`, the end, or a read that returns nothing: the position reached, and the
script that remains. -/
def reach (r : Reader) (stop pos : Nat) :
    List ReadStep → Except StorageFailure (Nat × List ReadStep)
  | [] => if stop ≤ r.content.size then .ok (stop, []) else r.atEnd []
  | .interrupted :: rest =>
    if stop ≤ pos then .ok (pos, .interrupted :: rest) else reach r stop pos rest
  | .most n :: rest =>
    if stop ≤ pos then
      .ok (pos, .most n :: rest)
    else if r.content.size ≤ pos then
      r.atEnd rest
    else if n = 0 then
      .ok (pos, rest)
    else
      reach r stop (min (pos + n) (min stop r.content.size)) rest

/-- Read a block of `size` bytes, shorter at the end of the stream: the block, and the reader behind
it. A failure loses what was read of the block. -/
def readBlock (r : Reader) (size : Nat) : Except StorageFailure (ByteArray × Reader) :=
  match r.reach (r.position + size) r.position r.steps with
  | .error e => .error e
  | .ok (stop, steps) =>
    .ok (r.content.extract r.position stop, { r with position := stop, steps := steps })

theorem readBlock_ok {r r' : Reader} {size : Nat} {data : ByteArray}
    (h : r.readBlock size = .ok (data, r')) :
    r'.content = r.content ∧ data = r.content.extract r.position r'.position := by
  unfold readBlock at h
  split at h
  · simp at h
  · simp only [Except.ok.injEq, Prod.mk.injEq] at h
    obtain ⟨hd, rfl⟩ := h
    exact ⟨rfl, hd.symm⟩

/-- Add the blocks of the rest of the stream, and the failure that ended it early. A block that is
shorter than asked for is the last. -/
def blocksFrom (r : Reader) (size : Nat) (out : Array ByteArray) :
    Array ByteArray × Option StorageFailure :=
  match _h : r.readBlock size with
  | .error e => (out, some e)
  | .ok (data, r') =>
    if _hd : data.size = 0 then
      (out, none)
    else if data.size < size then
      (out.push data, none)
    else
      blocksFrom r' size (out.push data)
termination_by r.content.size - r.position
decreasing_by
  have h := readBlock_ok _h
  have hs : data.size = min r'.position r.content.size - r.position := by
    rw [h.2, ByteArray.size_extract]
  rw [h.1]
  omega

/-- The blocks of a stream, and the failure that ended it early. -/
def blocks (r : Reader) (size : Nat) : Array ByteArray × Option StorageFailure :=
  r.blocksFrom size #[]

end Reader

end DedupImage
