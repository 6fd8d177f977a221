import DedupImage.Codec.Block
import DedupImage.Codec.Repetition

/-!
# Writing Deflate streams

A stream is one block or several. A block ends when its tokens take up too much space, or early when they
take up no less than the bytes they stand for: what comes next may be different.
-/

namespace DedupImage.Deflate

/-- What the tokens of a block take up before they are coded. -/
structure Filling where
  /-- The number of tokens. -/
  tokens : Nat := 0
  /-- One byte for a literal, three for a copy. -/
  space : Nat := 0
  /-- The bytes they produce. -/
  bytes : Nat := 0

namespace Filling

/-- Fill in a token. -/
def add (f : Filling) (t : Token) : Filling :=
  let space := match t with
    | .literal _ => 1
    | .copy _ _ => 3
  ⟨f.tokens + 1, f.space + space, f.bytes + t.size⟩

/-- The space for tokens, with one flag a token. -/
def used (f : Filling) : Nat := 1 + f.space + f.tokens / 8

/-- Whether the block should end. -/
def ends (f : Filling) : Bool :=
  decide (65528 < f.used) || (decide (31744 < f.bytes) && decide (f.bytes ≤ f.used * 115 / 128))

end Filling

/-- Cut tokens into blocks, of which there is at least one. `block` holds the tokens of the current
block, last one first. -/
def blocksFrom (f : Filling) (block : List Token) : List Token → List (List Token)
  | [] => [block.reverse]
  | t :: ts =>
    let f := f.add t
    if f.ends then
      (t :: block).reverse :: blocksFrom {} [] ts
    else
      blocksFrom f (t :: block) ts

/-- The bits of blocks that begin at bit `bit` of the stream and byte `pos` of the text. -/
def blockBits (src : ByteArray) (bit pos : Nat) : List (List Token) → List Bool
  | [] => []
  | ts :: rest =>
    let size := (ts.map Token.size).foldl (· + ·) 0
    let bits := Block.bits bit rest.isEmpty (slice src pos size) ts
    bits ++ blockBits src (bit + bits.length) (pos + size) rest

/-- A text as a stream. The level says how much is tried to find repetitions. -/
def stream (level : Nat) (src : ByteArray) : ByteArray :=
  Bits.pushBits ByteArray.empty (blockBits src 0 0 (blocksFrom {} [] (Repetition.tokens level src)))

end DedupImage.Deflate
