import DedupImage.Bytes

/-!
# Shift tables of a pattern

A search that compares a pattern from its end may, after a mismatch, move the pattern by more than one
place. Two tables say how far.

- `occurrences`: by the text byte that mismatched, the distance from the pattern's last position to
  the last earlier place of that byte in the pattern.
- `shifts`: by the mismatched position, the strong good-suffix distance: the least move after which
  the matched suffix meets equal bytes again and the mismatched position meets a different byte.

`shifts` rests on `suffixLengths`, which is computed in linear time: entry `i` is the length of the
longest common suffix of the pattern and of its first `i + 1` bytes. Entries are found from the end of
the pattern, and the window of the longest match so far answers most of them without a comparison.
-/

namespace DedupImage.Pattern

/-- Distances by byte: the pattern's length (at least one) for a byte that does not occur before the
last position, else the distance of its last occurrence there. `n` positions are still to be read,
the next is `i`. -/
def markOccurrences (x : ByteArray) (table : Array Nat) (i : Nat) : Nat → Array Nat
  | 0 => table
  | n + 1 => markOccurrences x (table.setIfInBounds (byteAt x i).toNat (x.size - 1 - i)) (i + 1) n

/-- The occurrence table, by byte value. -/
def occurrences (x : ByteArray) : Array Nat :=
  markOccurrences x (Array.replicate 256 (max x.size 1)) 0 (x.size - 1)

/-- Walk down from `g` while the byte below `g` equals the byte `d` places further; the result is the
first position at which the walk stopped. -/
def matchDown (x : ByteArray) (d : Nat) : Nat → Nat
  | 0 => 0
  | g + 1 => if byteAt x g == byteAt x (g + d) then matchDown x d g else g + 1

/-- The remaining suffix lengths, for the positions below `i`. `found` holds the lengths found so far,
the last position's first. The longest match that reached furthest down ended at position `f` and
covers the positions from `g` to `f`. -/
def extendSuffixes (x : ByteArray) (f g : Nat) (found : Array Nat) : (i : Nat) → Array Nat
  | 0 => found
  | i + 1 =>
    let known := found.getD (f - i) 0
    if g ≤ i ∧ known < i + 1 - g then
      extendSuffixes x f g (found.push known) i
    else
      let g := matchDown x (x.size - 1 - i) (min g (i + 1))
      extendSuffixes x i g (found.push (i + 1 - g)) i

/-- The suffix lengths of a non-empty pattern, the last position's first. -/
def suffixesFromEnd (x : ByteArray) : Array Nat :=
  extendSuffixes x (x.size - 1) x.size #[x.size] (x.size - 1)

/-- By position: the length of the longest common suffix of the pattern and of its bytes up to and
including that position. -/
def suffixLengths (x : ByteArray) : Array Nat :=
  (suffixesFromEnd x).reverse

/-- Shifts by which a beginning of the pattern meets its end. For the positions below `i`, in
descending order: where the first `i + 1` bytes are also the last ones, a move by `m - 1 - i` is right
for every mismatch position that is not yet answered and lies before the end of that move. -/
def borderShifts (m : Nat) (suffixes : Array Nat) (table : Array Nat) : (i : Nat) → Array Nat
  | 0 => table
  | i + 1 =>
    let table :=
      if suffixes.getD i 0 = i + 1 then
        table ++ Array.replicate (m - 1 - i - table.size) (m - 1 - i)
      else
        table
    borderShifts m suffixes table i

/-- Shifts by which the matched suffix meets equal bytes inside the pattern. `n` positions are still
to be read, the next is `i`; a later position gives a shorter move and replaces an earlier one. -/
def innerShifts (m : Nat) (suffixes : Array Nat) (table : Array Nat) (i : Nat) : Nat → Array Nat
  | 0 => table
  | n + 1 =>
    innerShifts m suffixes
      (table.setIfInBounds (m - 1 - suffixes.getD i 0) (m - 1 - i)) (i + 1) n

/-- The good-suffix table, by mismatched position. -/
def shifts (x : ByteArray) : Array Nat :=
  let m := x.size
  if m = 0 then
    #[]
  else
    let suffixes := suffixLengths x
    let borders := borderShifts m suffixes #[] m
    let table := borders ++ Array.replicate (m - borders.size) m
    innerShifts m suffixes table 0 (m - 1)

end DedupImage.Pattern
