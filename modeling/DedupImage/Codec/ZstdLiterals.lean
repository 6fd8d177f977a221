import DedupImage.Codec.Fse

/-!
# Literals of a Zstandard block

A compressed block begins with its literals, the bytes that it does not copy: as they are, or one byte
repeated, or in a Huffman code. The code is described first, or it is the one of the literals before.

A description gives every byte a weight. The bytes of the lowest weight have the longest words and come
first in the table of the code; a weight more halves the number of words. The last weight is not written, for
it is what is missing to a full table. The weights are written as they are, or in a code of two states that
take turns.
-/

namespace DedupImage.Zstd

/-- The longest block, and so the most literals. -/
def longestBlock : Nat := 131072

/-- The longest word for a literal. -/
def longestWord : Nat := 11

/-- A Huffman code for bytes: for all bits that can come next, as many as the longest word has, the byte that
they begin with and the length of its word. -/
structure LiteralCode where
  log : Nat
  cells : Array (UInt8 × Nat)
  deriving DecidableEq, Repr, Inhabited

namespace LiteralCode

/-- The code of bytes with these weights, to which the last weight is added. -/
def ofWeights? (weights : List Nat) : Option LiteralCode :=
  let sum := (weights.map fun w => if w = 0 then 0 else 1 <<< (w - 1)).foldl (· + ·) 0
  let log := Nat.log2 sum + 1
  let left := 1 <<< log - sum
  let all := weights ++ [Nat.log2 left + 1]
  if sum = 0 ∨ longestWord < log ∨ 1 <<< Nat.log2 left ≠ left ∨ all.count 1 < 2 then
    none
  else
    some
      { log := log
        cells := ((List.range log).flatMap fun k => all.zipIdx.flatMap fun (w, s) =>
          if w = k + 1 then List.replicate (1 <<< k) (s.toUInt8, log - k) else []).toArray }

/-- The number of the next `n` bits, as if zero bits came behind the last. -/
def peek : (n high : Nat) → List Bool → Nat
  | 0, high, _ => high
  | n + 1, high, [] => peek n (2 * high) []
  | n + 1, high, b :: bits => peek n (2 * high + b.toNat) bits

/-- Decode `n` bytes, which take up all of the bits. -/
def decode (code : LiteralCode) : (n : Nat) → List Bool → ByteArray → Option ByteArray
  | 0, [], out => some out
  | 0, _ :: _, _ => none
  | n + 1, bits, out =>
    let (byte, width) := code.cells.getD (peek code.log 0 bits) (0, 0)
    if (bits.take width).length < width then none else decode code n (bits.drop width) (out.push byte)

/-- Weights from two states that take turns, at most `n` and two. The last two states have no bits left to
lead on. -/
def weightsFrom (t : FseTable) : (n state other : Nat) → List Bool → Option (List Nat)
  | 0, _, _, _ => none
  | n + 1, state, other, bits =>
    match Bits.take? (t.cell state).width 0 bits with
    | none => some [(t.cell state).symbol, (t.cell other).symbol]
    | some (v, bits) =>
      (weightsFrom t n other ((t.cell state).base + v) bits).map ((t.cell state).symbol :: ·)

/-- Read weights that are written with a table of their own, which `b` holds with them. -/
def codedWeights? (b : ByteArray) : Option (List Nat) := do
  let (t, start) ← FseTable.read? b 0 6 13
  let bits ← Bits.backward? (slice b start (b.size - start))
  let (first, bits) ← Bits.take? t.log 0 bits
  let (second, bits) ← Bits.take? t.log 0 bits
  weightsFrom t 254 first second bits

/-- Weights of four bits each, the first of two in the higher half of a byte. -/
def plainWeights (b : ByteArray) (pos n : Nat) : List Nat :=
  (List.range n).map fun i =>
    let byte := (byteAt b (pos + i / 2)).toNat
    if i % 2 = 0 then byte / 16 else byte % 16

/-- Read the description of a code at `pos`: the code, and the position behind. -/
def read? (b : ByteArray) (pos : Nat) : Option (LiteralCode × Nat) := do
  guard (pos < b.size)
  let head := (byteAt b pos).toNat
  let n := head - 127
  let stop := if head < 128 then pos + 1 + head else pos + 1 + (n + 1) / 2
  guard (stop ≤ b.size)
  let weights ←
    if head < 128 then codedWeights? (slice b (pos + 1) head) else some (plainWeights b (pos + 1) n)
  let code ← ofWeights? weights
  return (code, stop)

/-- Decode `n` bytes from the `size` bytes at `pos`. -/
def stream? (code : LiteralCode) (b : ByteArray) (pos size n : Nat) (out : ByteArray) : Option ByteArray := do
  guard (pos + size ≤ b.size)
  let bits ← Bits.backward? (slice b pos size)
  decode code n bits out

/-- Decode `n` bytes that are written in four streams, from `pos` to `stop`. The lengths of the first three
streams are written before them. -/
def streams? (code : LiteralCode) (b : ByteArray) (pos stop n : Nat) : Option ByteArray := do
  let each := (n + 3) / 4
  guard (pos + 6 ≤ stop ∧ 6 ≤ n)
  let first := numberAt b pos 2
  let second := numberAt b (pos + 2) 2
  let third := numberAt b (pos + 4) 2
  guard (pos + 6 + first + second + third ≤ stop)
  let out ← code.stream? b (pos + 6) first each ByteArray.empty
  let out ← code.stream? b (pos + 6 + first) second each out
  let out ← code.stream? b (pos + 6 + first + second) third each out
  let rest := pos + 6 + first + second + third
  code.stream? b rest (stop - rest) (n - 3 * each) out

end LiteralCode

/-- Read the literals at the beginning of a block, whose code may be the one that is `known`: the literals, the
code that is known then, and the position behind. -/
def literals? (b : ByteArray) (known : Option LiteralCode) : Option (ByteArray × Option LiteralCode × Nat) := do
  let kind := (byteAt b 0).toNat % 4
  let format := (byteAt b 0).toNat / 4 % 4
  if kind < 2 then
    let (width, shift) := if format % 2 = 0 then (1, 8) else if format = 1 then (2, 16) else (3, 16)
    let n := numberAt b 0 width / shift
    guard (n ≤ longestBlock)
    if kind = 0 then
      guard (width + n ≤ b.size)
      return (slice b width n, known, width + n)
    else
      guard (width + 1 ≤ b.size)
      return (pushCopies ByteArray.empty (byteAt b width) n, known, width + 1)
  else
    let (width, limit) := if format < 2 then (3, 1024) else if format = 2 then (4, 16384) else (5, 262144)
    let n := numberAt b 0 width / 16 % limit
    let stop := width + numberAt b 0 width / 16 / limit
    guard (n ≤ longestBlock ∧ stop ≤ b.size)
    let (code, pos) ← if kind = 2 then LiteralCode.read? b width else known.map (·, width)
    guard (pos ≤ stop)
    let out ←
      if format = 0 then code.stream? b pos (stop - pos) n ByteArray.empty else code.streams? b pos stop n
    return (out, some code, stop)

end DedupImage.Zstd
