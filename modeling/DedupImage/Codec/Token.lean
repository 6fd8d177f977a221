import DedupImage.Codec.CodeTree

/-!
# Tokens: what a Deflate block says

A block is a sequence of tokens: a byte, or a copy of bytes that were produced before. A copy may
reach into the bytes that it produces itself; a distance of one repeats the last byte.

Lengths and distances are stored as a class and a number of extra bits. A class begins at a base, and
its extra bits say how far above the base the value is. Besides the tables this module holds the fixed
code, which blocks may use without transmitting it.
-/

namespace DedupImage

/-- One instruction of a block. -/
inductive Token where
  | literal (byte : UInt8)
  | copy (length distance : Nat)
  deriving DecidableEq, Repr, Inhabited

namespace Token

/-- The smallest length of each class, and the number of its extra bits. -/
def lengthClasses : Array (Nat × Nat) := #[
  (3, 0), (4, 0), (5, 0), (6, 0), (7, 0), (8, 0), (9, 0), (10, 0), (11, 1), (13, 1), (15, 1), (17, 1),
  (19, 2), (23, 2), (27, 2), (31, 2), (35, 3), (43, 3), (51, 3), (59, 3), (67, 4), (83, 4), (99, 4),
  (115, 4), (131, 5), (163, 5), (195, 5), (227, 5), (258, 0)]

/-- The smallest distance of each class, and the number of its extra bits. -/
def distanceClasses : Array (Nat × Nat) := #[
  (1, 0), (2, 0), (3, 0), (4, 0), (5, 1), (7, 1), (9, 2), (13, 2), (17, 3), (25, 3), (33, 4), (49, 4),
  (65, 5), (97, 5), (129, 6), (193, 6), (257, 7), (385, 7), (513, 8), (769, 8), (1025, 9), (1537, 9),
  (2049, 10), (3073, 10), (4097, 11), (6145, 11), (8193, 12), (12289, 12), (16385, 13), (24577, 13)]

/-- The shortest copy. -/
def shortestCopy : Nat := 3

/-- The longest copy. -/
def longestCopy : Nat := 258

/-- The furthest a copy reaches back. -/
def window : Nat := 32768

/-- The symbol that ends a block. -/
def endSymbol : Nat := 256

/-- The symbol of the first length class. -/
def firstLengthSymbol : Nat := 257

/-- Add `n` bytes, each the byte `distance` places before it. -/
def copyBack (out : ByteArray) (distance : Nat) : (n : Nat) → ByteArray
  | 0 => out
  | n + 1 => copyBack (out.push (byteAt out (out.size - distance))) distance n

/-- Carry out a token on the bytes produced so far, of which there may be at most `room`. A copy from
before the first byte is bad data, whatever room there is. -/
def apply (room : Nat) (out : ByteArray) : Token → Except StorageFailure ByteArray
  | literal byte => if out.size < room then .ok (out.push byte) else .error .unexpectedEof
  | copy length distance =>
    if distance = 0 ∨ out.size < distance then
      .error .other
    else if out.size + length ≤ room then
      .ok (copyBack out distance length)
    else
      .error .unexpectedEof

/-- The last class whose base is at most `value`. -/
def classOf (classes : Array (Nat × Nat)) (value : Nat) : Nat :=
  (classes.findIdx? fun c => decide (value < c.1)).getD classes.size - 1

/-- The number of symbols that a transmitted code has for bytes and lengths. -/
def symbolCount : Nat := 286

/-- The number of symbols that a transmitted code has for distances. -/
def distanceCount : Nat := 30

/-- Word lengths of the fixed code for bytes and lengths, by symbol. -/
def fixedSymbolLengths : List Nat :=
  List.replicate 144 8 ++ List.replicate 112 9 ++ List.replicate 24 7 ++ List.replicate 8 8

/-- Word lengths of the fixed code for distances. -/
def fixedDistanceLengths : List Nat := List.replicate 32 5

/-- The fixed code for bytes and lengths. -/
def fixedSymbols : CodeTree :=
  (CodeTree.ofLengths? true fixedSymbolLengths).getD .hole

/-- The fixed code for distances. -/
def fixedDistances : CodeTree :=
  (CodeTree.ofLengths? true fixedDistanceLengths).getD .hole

/-- The number of bytes that a token produces. -/
def size : Token → Nat
  | literal _ => 1
  | copy length _ => length

/-- The symbol for a token's byte or length. -/
def symbol : Token → Nat
  | literal byte => byte.toNat
  | copy length _ => firstLengthSymbol + classOf lengthClasses length

/-- The symbol for a token's distance. -/
def distanceSymbol? : Token → Option Nat
  | literal _ => none
  | copy _ distance => some (classOf distanceClasses distance)

/-- The extra bits of a value, which say how far it is above the base of its class. -/
def extra (classes : Array (Nat × Nat)) (value : Nat) : List Bool :=
  let (base, bits) := classes.getD (classOf classes value) (0, 0)
  Bits.numberBits bits (value - base)

/-- The bits of a token in a code with these words. -/
def bits (symbols distances : Array (List Bool)) (t : Token) : List Bool :=
  match t with
  | literal _ => symbols.getD t.symbol []
  | copy length distance =>
    symbols.getD t.symbol [] ++ extra lengthClasses length ++
      distances.getD (classOf distanceClasses distance) [] ++ extra distanceClasses distance

/-- Read the extra bits of a value in class `c`: the value, and the position behind. -/
def readValue (classes : Array (Nat × Nat)) (src : ByteArray) (c pos : Nat) :
    Except StorageFailure (Nat × Nat) :=
  match classes[c]? with
  | none => .error .other
  | some (base, width) =>
    match Bits.readNumber src pos width with
    | .error e => .error e
    | .ok (above, pos) => .ok (base + above, pos)

/-- Read the token at `pos`, none for the end of the block, and the position behind it. -/
def read (src : ByteArray) (symbols distances : CodeTree) (pos : Nat) :
    Except StorageFailure (Option Token × Nat) :=
  match symbols.readSymbol src pos with
  | .error e => .error e
  | .ok (s, pos) =>
    if s < endSymbol then
      .ok (some (literal s.toUInt8), pos)
    else if s = endSymbol then
      .ok (none, pos)
    else
      match readValue lengthClasses src (s - firstLengthSymbol) pos with
      | .error e => .error e
      | .ok (length, pos) =>
        match distances.readSymbol src pos with
        | .error e => .error e
        | .ok (d, pos) =>
          match readValue distanceClasses src d pos with
          | .error e => .error e
          | .ok (distance, pos) => .ok (some (copy length distance), pos)

theorem readValue_end {classes : Array (Nat × Nat)} {src : ByteArray} {c pos value stop : Nat}
    (h : readValue classes src c pos = .ok (value, stop)) :
    pos ≤ stop ∧ (pos < stop → stop ≤ Bits.total src) := by
  unfold readValue at h
  split at h
  · simp at h
  next width _ =>
  split at h
  · simp at h
  next hbits =>
  simp only [Except.ok.injEq, Prod.mk.injEq] at h
  have hend := Bits.readNumber_end hbits
  rcases Nat.eq_zero_or_pos width with h0 | hpos
  · omega
  · have := Bits.readNumber_le hpos hbits
    omega

theorem read_end {src : ByteArray} {symbols distances : CodeTree} {pos stop : Nat}
    {t : Option Token} (h : read src symbols distances pos = .ok (t, stop)) :
    pos < stop ∧ stop ≤ Bits.total src := by
  unfold read at h
  split at h
  · simp at h
  next hs =>
  have hs := CodeTree.readSymbol_end hs
  split at h
  · simp only [Except.ok.injEq, Prod.mk.injEq] at h
    omega
  split at h
  · simp only [Except.ok.injEq, Prod.mk.injEq] at h
    omega
  split at h
  · simp at h
  next hl =>
  have hl := readValue_end hl
  split at h
  · simp at h
  next hd =>
  have hd := CodeTree.readSymbol_end hd
  split at h
  · simp at h
  next hb =>
  have hb := readValue_end hb
  simp only [Except.ok.injEq, Prod.mk.injEq] at h
  omega

end Token

end DedupImage
