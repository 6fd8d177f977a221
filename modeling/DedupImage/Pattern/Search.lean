import DedupImage.Pattern.Shift

/-!
# Finding a pattern in a text

A `Pattern` is a byte string prepared for many searches. `Pattern.find?` gives the first place at
which the whole pattern occurs in a text, `Pattern.tail?` the place of the longest end of the text
that is a beginning of the pattern. The second is how a new block comes to lie across the end of the
data that is already stored.
-/

namespace DedupImage

/-- A byte string with its shift tables. -/
structure Pattern where
  bytes : ByteArray
  occurrenceTable : Array Nat
  shiftTable : Array Nat

namespace Pattern

/-- Prepare a byte string for searching. -/
def ofBytes (x : ByteArray) : Pattern :=
  ⟨x, Pattern.occurrences x, Pattern.shifts x⟩

/-- The length of the pattern. -/
def size (p : Pattern) : Nat := p.bytes.size

/-- Compare the first `i` bytes of the pattern, from the last of them down, with the text from `j`.
The result counts the bytes up to and including the first mismatch; zero says that all match. -/
def unmatched (x text : ByteArray) (j : Nat) : (i : Nat) → Nat
  | 0 => 0
  | i + 1 => if byteAt x i == byteAt text (i + j) then unmatched x text j i else i + 1

/-- How far to move after a mismatch at position `i` of the pattern against text byte `c`. -/
def advance (p : Pattern) (i : Nat) (c : UInt8) : Nat :=
  max 1 (max (p.shiftTable.getD i 0) (p.occurrenceTable.getD c.toNat 0 - (p.size - 1 - i)))

theorem advance_pos (p : Pattern) (i : Nat) (c : UInt8) : 0 < p.advance i c := by
  unfold advance
  omega

/-- Search from position `j` of the text on. -/
def findFrom (p : Pattern) (text : ByteArray) (j : Nat) : Option Nat :=
  if _h : j + p.size ≤ text.size then
    match unmatched p.bytes text j p.size with
    | 0 => some j
    | i + 1 => findFrom p text (j + p.advance i (byteAt text (i + j)))
  else
    none
termination_by text.size + 1 - j
decreasing_by
  have := p.advance_pos i (byteAt text (i + j))
  omega

/-- The first place at which the whole pattern occurs. -/
def find? (p : Pattern) (text : ByteArray) : Option Nat :=
  if p.size = 0 then some 0 else p.findFrom text 0

/-- Try the overlap lengths `n * granularity`, `(n - 1) * granularity`, … down to `shortest`. -/
def tailFrom (x text : ByteArray) (shortest granularity : Nat) : (n : Nat) → Option Nat
  | 0 => none
  | n + 1 =>
    let length := (n + 1) * granularity
    if length < shortest then
      none
    else if agree text (text.size - length) x 0 length then
      some (text.size - length)
    else
      tailFrom x text shortest granularity n

/-- The place of the longest end of the text that is a beginning of the pattern, among the lengths
that are multiples of `granularity` and at least `least` and one. -/
def tail? (p : Pattern) (text : ByteArray) (least granularity : Nat) : Option Nat :=
  if granularity = 0 then
    none
  else
    tailFrom p.bytes text (max least 1) granularity (min text.size p.size / granularity)

end Pattern

end DedupImage
