import DedupImage.Codec.Bits

/-!
# Tables of finite state entropy

A code of this kind is a table of `2 ^ log` states. A state stands for a symbol, and tells how many bits to
read (its width) and which state is next: the number that was read, counted from its base. The more often a
symbol occurs, the more states it has, and the fewer bits lead on from them.

A table is made from one count a symbol, whose sum is the number of states (`FseTable.ofCounts`). A symbol
with the count minus one is rarer than one state: it has a single state, from which all bits are read anew.
-/

namespace DedupImage

/-- What a state stands for, and how the next state is found. -/
structure FseCell where
  symbol : Nat
  width : Nat
  base : Nat
  deriving DecidableEq, Repr, Inhabited

/-- A table of states. -/
structure FseTable where
  log : Nat
  cells : Array FseCell
  deriving DecidableEq, Repr, Inhabited

namespace FseTable

/-- The table that always stands for one symbol and reads no bits. -/
def single (symbol : Nat) : FseTable := ⟨0, #[⟨symbol, 0, 0⟩]⟩

/-- The state of a number. -/
def cell (t : FseTable) (state : Nat) : FseCell := t.cells.getD state default

/-- The symbol of every state. The states are taken in steps that lead through all of them; the last ones
are for the rarest symbols. -/
def symbols (log : Nat) (counts : List Int) : Array Nat :=
  let size := 1 <<< log
  let rare := counts.zipIdx.filterMap fun (count, symbol) => if count < 0 then some symbol else none
  let places := ((List.range size).map fun k => k * (size / 2 + size / 8 + 3) % size).filter
    (· + rare.length < size)
  let often := counts.zipIdx.flatMap fun (count, symbol) => List.replicate count.toNat symbol
  let set (out : Array Nat) (entry : Nat × Nat) := out.setIfInBounds entry.1 entry.2
  (rare.zipIdx.map fun (symbol, i) => (size - 1 - i, symbol)).foldl set <|
    (places.zip often).foldl set (Array.replicate size 0)

/-- The cells for a row of states with these symbols. `ranks` holds the rank of the next state of each
symbol, which begins with the symbol's count. A state of a higher rank needs fewer bits. -/
def cellsFrom (log : Nat) (ranks : Array Nat) (out : Array FseCell) : List Nat → Array FseCell
  | [] => out
  | symbol :: rest =>
    let rank := ranks.getD symbol 0
    let width := log - Nat.log2 rank
    cellsFrom log (ranks.setIfInBounds symbol (rank + 1))
      (out.push ⟨symbol, width, (rank <<< width) - 1 <<< log⟩) rest

/-- The table of symbols with these counts. -/
def ofCounts (log : Nat) (counts : List Int) : FseTable :=
  ⟨log, cellsFrom log (counts.map Int.natAbs).toArray #[] (symbols log counts).toList⟩

/-! ## Descriptions of tables -/

/-- Read how many symbols more have the count zero: numbers of two bits, up to the first that is not three. -/
def zeros? (src : ByteArray) (pos : Nat) : (n : Nat) → Option (Nat × Nat)
  | 0 => none
  | n + 1 =>
    match Bits.readNumber src pos 2 with
    | .error _ => none
    | .ok (3, pos) => (zeros? src pos n).map fun (more, stop) => (more + 3, stop)
    | .ok (more, pos) => some (more, pos)

/-- Read one number that is at most `most`: the smaller half of the numbers takes a bit less, as far as there
are bit strings to spare. -/
def value? (src : ByteArray) (pos most : Nat) : Option (Nat × Nat) :=
  let width := Nat.log2 most
  let spare := 1 <<< (width + 1) - 1 - most
  match Bits.readNumber src pos width with
  | .error _ => none
  | .ok (low, pos) =>
    if low < spare then
      some (low, pos)
    else
      match Bits.readNumber src pos 1 with
      | .error _ => none
      | .ok (0, pos) => some (low, pos)
      | .ok (_, pos) => some (low + 1 <<< width - spare, pos)

/-- Read counts of at most `n` symbols more, until they make up `left` states. -/
def counts? (src : ByteArray) (n pos left : Nat) (counts : Array Int) : Option (List Int × Nat) :=
  if left = 0 then
    some (counts.toList, pos)
  else if n = 0 then
    none
  else
    match value? src pos (left + 1) with
    | none => none
    | some (1, pos) =>
      match zeros? src pos n with
      | none => none
      | some (more, pos) =>
        if n < more + 1 then
          none
        else
          counts? src (n - (more + 1)) pos left (counts ++ Array.replicate (more + 1) 0)
    | some (value, pos) =>
      let count : Int := value - 1
      if left < count.natAbs then
        none
      else
        counts? src (n - 1) pos (left - count.natAbs) (counts.push count)
termination_by n

/-- Read the description of a table at the byte `start`, for at most `most` symbols: the table, and the byte
behind its description. -/
def read? (src : ByteArray) (start mostLog most : Nat) : Option (FseTable × Nat) :=
  match Bits.readNumber src (8 * start) 4 with
  | .error _ => none
  | .ok (low, pos) =>
    if mostLog < low + 5 then
      none
    else
      match counts? src most pos (1 <<< (low + 5)) #[] with
      | none => none
      | some (counts, pos) => some (ofCounts (low + 5) counts, Bits.byteAfter pos)

/-! ## Finding states -/

/-- A state that stands for a symbol. -/
def start? (t : FseTable) (symbol : Nat) : Option Nat :=
  t.cells.findIdx? fun c => c.symbol == symbol

/-- The state that stands for a symbol and from which bits lead to the state `next`. -/
def before? (t : FseTable) (symbol next : Nat) : Option Nat :=
  t.cells.findIdx? fun c =>
    c.symbol == symbol && decide (c.base ≤ next) && decide (next < c.base + 1 <<< c.width)

end FseTable

end DedupImage
