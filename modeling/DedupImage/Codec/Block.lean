import DedupImage.Codec.LengthRun
import DedupImage.Codec.Token

/-!
# Writing Deflate blocks

The bytes of a block are written in one of three ways: in the fixed code, for which nothing has to be
transmitted, in a code made from the block's own symbols, which it transmits first, or stored as they are.
A block takes the shortest of them. Stored bytes begin at a whole byte, so all bits of a block depend on
where in its stream it begins; and since a stored block has a greatest length, many bytes are stored as
several blocks.
-/

namespace DedupImage.Block

/-- The longest stored block. -/
def longestStored : Nat := 65535

/-- The tokens and the end of the block, in the code of these two trees. -/
def tokenBits (symbols distances : CodeTree) (ts : List Token) : List Bool :=
  let words := symbols.words 288
  let distanceWords := distances.words 32
  ts.flatMap (Token.bits words distanceWords) ++ words.getD Token.endSymbol []

/-- A block's type and contents in the fixed code. -/
def fixedBits (ts : List Token) : List Bool :=
  [true, false] ++ tokenBits Token.fixedSymbols Token.fixedDistances ts

/-- Word lengths of bytes and lengths for a block. -/
def symbolLengths (ts : List Token) : List Nat :=
  WordLengths.ofCounts CodeTree.longestWord <|
    LengthRun.occurrences Token.symbolCount (Token.endSymbol :: ts.map Token.symbol)

/-- Word lengths of distances for a block. -/
def distanceLengths (ts : List Token) : List Nat :=
  WordLengths.ofCounts CodeTree.longestWord <|
    LengthRun.occurrences Token.distanceCount (ts.filterMap Token.distanceSymbol?)

/-- A block's type and contents in a code made for it. -/
def transmittedBits (ts : List Token) : List Bool :=
  [false, true] ++ LengthRun.headerBits (symbolLengths ts) (distanceLengths ts) ++
    tokenBits ((CodeTree.ofLengths? false (symbolLengths ts)).getD .hole)
      ((CodeTree.ofLengths? false (distanceLengths ts)).getD .hole) ts

/-- The shorter of the two coded forms. -/
def codedBits (ts : List Token) : List Bool :=
  let fixed := fixedBits ts
  let transmitted := transmittedBits ts
  if transmitted.length < fixed.length then transmitted else fixed

/-- The bytes of a block as they are, if the block begins at bit `pos`. The first bit of a block tells whether
it is the last of the stream. -/
def storedBits (pos : Nat) (final : Bool) (data : ByteArray) : List Bool :=
  [final, false, false] ++ List.replicate (8 * Bits.byteAfter (pos + 3) - (pos + 3)) false ++
    Bits.numberBits 16 data.size ++ Bits.numberBits 16 (longestStored - data.size) ++
    Bits.ofBytes data

/-- Where a block of `n` stored bytes ends that begins at bit `pos`. -/
def storedStop (pos n : Nat) : Nat := 8 * (Bits.byteAfter (pos + 3) + 4 + n)

/-- The bytes from `start` on that fit one stored block. -/
def piece (data : ByteArray) (start : Nat) : ByteArray :=
  slice data start (min longestStored (data.size - start))

theorem size_piece (data : ByteArray) (start : Nat) :
    (piece data start).size = min longestStored (data.size - start) := by
  rw [piece, slice, ByteArray.size_extract]
  omega

/-- The bytes from `start` on as stored blocks, of which there is at least one and which begin at bit `pos`. -/
def stored (pos : Nat) (final : Bool) (data : ByteArray) (start : Nat) : List Bool :=
  if _h : start + (piece data start).size < data.size then
    storedBits pos false (piece data start) ++
      stored (storedStop pos (piece data start).size) final data (start + (piece data start).size)
  else
    storedBits pos final (piece data start)
termination_by data.size - start
decreasing_by
  rw [size_piece] at _h ⊢
  unfold longestStored at _h ⊢
  omega

/-- A block that begins at bit `pos`: the tokens `ts`, which produce `data`. -/
def bits (pos : Nat) (final : Bool) (data : ByteArray) (ts : List Token) : List Bool :=
  let plain := stored pos final data 0
  let coded := final :: codedBits ts
  if coded.length < plain.length then coded else plain

end DedupImage.Block
