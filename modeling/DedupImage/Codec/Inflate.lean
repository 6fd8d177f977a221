import DedupImage.Codec.LengthRun
import DedupImage.Codec.Token

/-!
# Reading Deflate streams

A stream is a sequence of blocks, the last of which is marked. A block is stored (a length, its
complement, and the bytes as they are), or coded with the fixed code, or coded with a code that it
transmits first: the word lengths of bytes, lengths and distances, themselves coded and run-length
encoded.

Two kinds of failure are kept apart. Input that ends early and output that does not fit are
`unexpectedEof`; everything that no compressor writes is `other`. Whichever comes first in the stream
is reported.
-/

namespace DedupImage.Inflate

/-- Carry out the tokens of a coded block from `pos` on: the bytes, and the position behind the block. -/
def codedBlock (src : ByteArray) (symbols distances : CodeTree) (room pos : Nat) (out : ByteArray) :
    Except StorageFailure (ByteArray × Nat) :=
  match _h : Token.read src symbols distances pos with
  | .error e => .error e
  | .ok (none, stop) => .ok (out, stop)
  | .ok (some t, stop) =>
    match t.apply room out with
    | .error e => .error e
    | .ok out => codedBlock src symbols distances room stop out
termination_by Bits.total src - pos
decreasing_by
  have := Token.read_end _h
  omega

/-- Copy a stored block, which begins at the next whole byte. -/
def storedBlock (src : ByteArray) (room pos : Nat) (out : ByteArray) :
    Except StorageFailure (ByteArray × Nat) :=
  let start := Bits.byteAfter pos
  if start + 4 ≤ src.size then
    let length := numberAt src start 2
    if length + numberAt src (start + 2) 2 = 65535 then
      if start + 4 + length ≤ src.size ∧ out.size + length ≤ room then
        .ok (out ++ slice src (start + 4) length, 8 * (start + 4 + length))
      else
        .error .unexpectedEof
    else
      .error .other
  else
    .error .unexpectedEof

/-- Read word lengths of three bits each, one for each of the given symbols. -/
def shortLengths (src : ByteArray) (pos : Nat) (lengths : Array Nat) :
    List Nat → Except StorageFailure (Array Nat × Nat)
  | [] => .ok (lengths, pos)
  | symbol :: rest =>
    match Bits.readNumber src pos 3 with
    | .error e => .error e
    | .ok (v, pos) => shortLengths src pos (lengths.setIfInBounds symbol v) rest

/-- Read the next entries of a list of word lengths: how many, of which length, and the position
behind. Sixteen repeats the last length, seventeen and eighteen are runs of symbols without a word. -/
def lengthRun (src : ByteArray) (code : CodeTree) (pos : Nat) (last : Option Nat) :
    Except StorageFailure (Nat × Nat × Nat) :=
  match code.readSymbol src pos with
  | .error e => .error e
  | .ok (s, pos) =>
    if s < 16 then
      .ok (1, s, pos)
    else if s = 16 then
      match last with
      | none => .error .other
      | some l =>
        match Bits.readNumber src pos 2 with
        | .error e => .error e
        | .ok (v, pos) => .ok (3 + v, l, pos)
    else if s = 17 then
      match Bits.readNumber src pos 3 with
      | .error e => .error e
      | .ok (v, pos) => .ok (3 + v, 0, pos)
    else
      match Bits.readNumber src pos 7 with
      | .error e => .error e
      | .ok (v, pos) => .ok (11 + v, 0, pos)

theorem lengthRun_pos {src : ByteArray} {code : CodeTree} {pos n l stop : Nat} {last : Option Nat}
    (h : lengthRun src code pos last = .ok (n, l, stop)) : 0 < n := by
  unfold lengthRun at h
  split at h
  · simp at h
  split at h
  · simp only [Except.ok.injEq, Prod.mk.injEq] at h
    omega
  split at h
  · split at h
    · simp at h
    · split at h
      · simp at h
      · simp only [Except.ok.injEq, Prod.mk.injEq] at h
        omega
  split at h
  · split at h
    · simp at h
    · simp only [Except.ok.injEq, Prod.mk.injEq] at h
      omega
  · split at h
    · simp at h
    · simp only [Except.ok.injEq, Prod.mk.injEq] at h
      omega

/-- Read word lengths until there are `count` of them. A run may not go past the last. -/
def wordLengths (src : ByteArray) (code : CodeTree) (count pos : Nat) (lengths : Array Nat) :
    Except StorageFailure (Array Nat × Nat) :=
  if lengths.size < count then
    match _h : lengthRun src code pos lengths.back? with
    | .error e => .error e
    | .ok (n, l, pos) => wordLengths src code count pos (lengths ++ Array.replicate n l)
  else if lengths.size = count then
    .ok (lengths, pos)
  else
    .error .other
termination_by count - lengths.size
decreasing_by
  have := lengthRun_pos _h
  simp only [Array.size_append, Array.size_replicate]
  omega

/-- A tree for word lengths, or bad data. -/
def tree (strict : Bool) (lengths : List Nat) : Except StorageFailure CodeTree :=
  match CodeTree.ofLengths? strict lengths with
  | some t => .ok t
  | none => .error .other

/-- Read the transmitted code: the tree for bytes and lengths, the tree for distances, and the
position behind. -/
def transmittedCode (src : ByteArray) (pos : Nat) :
    Except StorageFailure (CodeTree × CodeTree × Nat) := do
  let (symbols, pos) ← Bits.readNumber src pos 5
  let (distances, pos) ← Bits.readNumber src pos 5
  let (short, pos) ← Bits.readNumber src pos 4
  if 286 < symbols + 257 ∨ 30 < distances + 1 then
    throw .other
  let (lengths, pos) ←
    shortLengths src pos (Array.replicate LengthRun.symbolCount 0)
      (LengthRun.order.take (short + LengthRun.leastShort))
  let code ← tree true lengths.toList
  let (lengths, pos) ← wordLengths src code (symbols + 257 + (distances + 1)) pos #[]
  let symbolTree ← tree false (lengths.toList.take (symbols + 257))
  let distanceTree ← tree false (lengths.toList.drop (symbols + 257))
  return (symbolTree, distanceTree, pos)

/-- Read one block whose type is `kind` and whose contents start at `pos`. -/
def block (src : ByteArray) (kind room pos : Nat) (out : ByteArray) :
    Except StorageFailure (ByteArray × Nat) :=
  if kind = 0 then
    storedBlock src room pos out
  else if kind = 1 then
    codedBlock src Token.fixedSymbols Token.fixedDistances room pos out
  else if kind = 2 then
    match transmittedCode src pos with
    | .error e => .error e
    | .ok (symbols, distances, pos) => codedBlock src symbols distances room pos out
  else
    .error .other

/-- Read blocks until the last, at most `n` of them. Every block takes three bits or more, so the
number of bits is always enough. -/
def blocks (src : ByteArray) (room pos : Nat) (out : ByteArray) :
    (n : Nat) → Except StorageFailure (ByteArray × Nat)
  | 0 => .error .unexpectedEof
  | n + 1 =>
    match Bits.readNumber src pos 3 with
    | .error e => .error e
    | .ok (header, pos) =>
      match block src (header / 2) room pos out with
      | .error e => .error e
      | .ok (out, pos) => if header % 2 = 1 then .ok (out, pos) else blocks src room pos out n

/-- Decompress the stream that starts at bit `pos`: the bytes, and the position behind the stream. -/
def stream (src : ByteArray) (room pos : Nat) : Except StorageFailure (ByteArray × Nat) :=
  blocks src room pos ByteArray.empty (Bits.total src)

end DedupImage.Inflate
