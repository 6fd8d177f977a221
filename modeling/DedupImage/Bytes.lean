/-!
# Byte strings

Every piece of data in the library is a `ByteArray`. This module holds the few operations on byte
strings that the rest needs and that are not in the core library: a total look-up, the comparison of
two stretches, the test for zero bytes, overwriting a stretch, and fixed-width little-endian numbers.

All loops are structural on a count, so each of them unfolds one byte at a time in a proof. Two
conventions hold throughout: a position is a `Nat` counted from zero, and a stretch is given by its
start and its length. Reading past the end gives zero; an operation for which that would matter checks
the length first (`holdsAt`).
-/

namespace DedupImage

/-- The byte at a position, zero past the end. -/
def byteAt (b : ByteArray) (i : Nat) : UInt8 :=
  if h : i < b.size then b[i] else 0

/-- The `n` bytes from `start`, fewer if the string ends before. -/
def slice (b : ByteArray) (start n : Nat) : ByteArray :=
  b.extract start (start + n)

/-- Whether the `n` bytes of `a` from `i` and the `n` bytes of `b` from `j` are equal. -/
def agree (a : ByteArray) (i : Nat) (b : ByteArray) (j : Nat) : Nat → Bool
  | 0 => true
  | n + 1 => byteAt a (i + n) == byteAt b (j + n) && agree a i b j n

/-- Whether `piece` lies wholly inside `b`, from `start` on. -/
def holdsAt (b : ByteArray) (start : Nat) (piece : ByteArray) : Bool :=
  decide (start + piece.size ≤ b.size) && agree b start piece 0 piece.size

/-- Whether the first `n` bytes are zero. -/
def blankBelow (b : ByteArray) : Nat → Bool
  | 0 => true
  | n + 1 => byteAt b n == 0 && blankBelow b n

/-- Whether all bytes are zero; the empty string is blank. -/
def isBlank (b : ByteArray) : Bool :=
  blankBelow b b.size

/-- `n` copies of one byte, added at the end. -/
def pushCopies (b : ByteArray) (byte : UInt8) : Nat → ByteArray
  | 0 => b
  | n + 1 => pushCopies (b.push byte) byte n

/-- `n` zero bytes. -/
def zeros (n : Nat) : ByteArray :=
  pushCopies ByteArray.empty 0 n

/-- Put `piece` over the bytes from `start` on, which must not be past the end; the string grows if
`piece` reaches further than it does. -/
def overwrite (b : ByteArray) (start : Nat) (piece : ByteArray) : ByteArray :=
  piece.copySlice 0 b start piece.size

/-- Add the `width` lowest bytes of a number, least significant byte first. -/
def pushNumber (out : ByteArray) : (width : Nat) → Nat → ByteArray
  | 0, _ => out
  | w + 1, n => pushNumber (out.push (n % 256).toUInt8) w (n / 256)

/-- A number as `width` bytes, least significant first. Higher bytes are dropped. -/
def numberBytes (width n : Nat) : ByteArray :=
  pushNumber ByteArray.empty width n

/-- The number that the `width` bytes from `start` spell, least significant first. -/
def numberAt (b : ByteArray) (start : Nat) : (width : Nat) → Nat
  | 0 => 0
  | w + 1 => (byteAt b start).toNat + 256 * numberAt b (start + 1) w

/-- Lower-case hexadecimal digits, without leading zeros. -/
def hexDigits (n : Nat) : String :=
  String.ofList (Nat.toDigits 16 n)

end DedupImage
