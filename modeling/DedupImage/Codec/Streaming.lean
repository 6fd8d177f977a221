import DedupImage.Failure

/-!
# Coders that work in pieces

A compression library offers coders of two kinds. One of the first kind works in pieces: a call takes some of
the input, makes some output, and says how the stream stands. It is called with all input that is left and all
room that is left until the stream has ended (`StreamCoder.drive`). A call that changes nothing would be
repeated forever; so it ends the loop, and the stream counts as ended too early.

One of the second kind does everything in one call (`BulkCoder`). Its context costs memory, and is made at the
first call.

What the coders compute is not said here. A coder is a type of states with an operation on them, and all that
is fixed is that it takes no more than it is given and makes no more than there is room.
-/

namespace DedupImage

/-- How a stream stands after a call. -/
inductive StreamStatus where
  | more
  /-- Nothing can be done with this input and this room. -/
  | stuck
  | done
  deriving DecidableEq, Repr

/-- What a call has done. -/
structure StreamReport where
  /-- Bytes of the input that are dealt with. -/
  taken : Nat
  made : ByteArray
  status : StreamStatus

/-- A coder that works in pieces. -/
structure StreamCoder where
  State : Type
  /-- The state of a new coder. -/
  fresh : State
  /-- Begin another stream. -/
  reset : State → State
  /-- Continue a stream. After this input there is no more. None is a failure of the library. -/
  finish : State → (given : ByteArray) → (room : Nat) → State × Option StreamReport
  /-- A call takes no more than it is given, and makes no more than there is room for. -/
  bounded : ∀ {state given room state' r}, finish state given room = (state', some r) →
    r.taken ≤ given.size ∧ r.made.size ≤ room

namespace StreamCoder

/-- Call a coder until the stream has ended. `taken` bytes of the input are dealt with, and `out` is made. -/
def drive (c : StreamCoder) (src : ByteArray) (room : Nat) (state : c.State) (taken : Nat) (out : ByteArray) :
    Except StorageFailure ByteArray × c.State :=
  match _hcall : c.finish state (src.extract taken src.size) (room - out.size) with
  | (state, none) => (.error .other, state)
  | (state, some r) =>
    match r.status with
    | .done => (.ok (out ++ r.made), state)
    | .stuck => (.error .unexpectedEof, state)
    | .more =>
      if r.taken = 0 ∧ r.made.size = 0 then
        (.error .unexpectedEof, state)
      else
        drive c src room state (taken + r.taken) (out ++ r.made)
termination_by (src.size - taken) + (room - out.size)
decreasing_by
  have hbounds := c.bounded _hcall
  rw [ByteArray.size_extract] at hbounds
  rw [ByteArray.size_append]
  omega

/-- Turn a whole string into another one, of at most `room` bytes. -/
def run (c : StreamCoder) (state : c.State) (src : ByteArray) (room : Nat) :
    Except StorageFailure ByteArray × c.State :=
  c.drive src room (c.reset state) 0 ByteArray.empty

end StreamCoder

/-- A coder that does everything in one call. -/
structure BulkCoder where
  /-- Its contexts. -/
  State : Type
  /-- A new context. None if there is no memory for it. -/
  new? : Option State
  /-- Turn a string into another one, of at most `room` bytes. None is a failure of the library. -/
  run : State → ByteArray → (room : Nat) → State × Option { out : ByteArray // out.size ≤ room }

/-- Call a coder whose context is made when it is needed first. -/
def BulkCoder.call (c : BulkCoder) (slot : Option c.State) (src : ByteArray) (room : Nat) :
    Except StorageFailure ByteArray × Option c.State :=
  match slot.or c.new? with
  | none => (.error .other, none)
  | some state =>
    match c.run state src room with
    | (state, none) => (.error .other, some state)
    | (state, some out) => (.ok out, some state)

end DedupImage
