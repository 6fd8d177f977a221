import DedupImage.Codec.CodeTree
import DedupImage.Codec.WordLengths

/-!
# How a code is transmitted

A block may transmit the code that it uses: the word lengths of bytes and lengths, then those of
distances, as one list. The list is cut into runs (`LengthRun`), and the runs are written in a code of
their own. Of that code in turn the word lengths are transmitted, three bits each, in an order in which
the ones that are mostly zero come last. Zeros at the end of a list are left out.
-/

namespace DedupImage

/-- A piece of a list of word lengths. -/
inductive LengthRun where
  /-- One symbol with a word of this length. -/
  | one (length : Nat)
  /-- The last length again, so many times. -/
  | again (n : Nat)
  /-- So many symbols without a word. -/
  | absent (n : Nat)
  deriving DecidableEq, Repr, Inhabited

namespace LengthRun

/-- The number of symbols by which runs are written. -/
def symbolCount : Nat := 19

/-- The longest word for a run. -/
def longestWord : Nat := 7

/-- The order in which the word lengths of these symbols are transmitted. -/
def order : List Nat :=
  [16, 17, 18, 0, 8, 7, 9, 6, 10, 5, 11, 4, 12, 3, 13, 2, 14, 1, 15]

/-- The least number of word lengths that is transmitted. -/
def leastShort : Nat := 4

/-- The symbol of a run. -/
def symbol : LengthRun → Nat
  | one length => length
  | again _ => 16
  | absent n => if n ≤ 10 then 17 else 18

/-- The extra bits of a run. -/
def extra : LengthRun → List Bool
  | one _ => []
  | again n => Bits.numberBits 2 (n - 3)
  | absent n => if n ≤ 10 then Bits.numberBits 3 (n - 3) else Bits.numberBits 7 (n - 11)

/-- Cut a number into pieces of `most`, the last of which may be smaller. -/
def pieces (most n : Nat) : List Nat :=
  List.replicate (n / most) most ++ (if n % most = 0 then [] else [n % most])

/-- The runs for one length that `n` symbols in a row have. One or two symbols are not worth a run. -/
def ofRow (length n : Nat) : List LengthRun :=
  if length = 0 then
    (pieces 138 n).flatMap fun k => if k < 3 then List.replicate k (one 0) else [absent k]
  else
    one length ::
      (pieces 6 (n - 1)).flatMap fun k => if k < 3 then List.replicate k (one length) else [again k]

/-- The runs for a list of word lengths. -/
def ofLengths (lengths : List Nat) : List LengthRun :=
  (lengths.splitBy (· == ·)).flatMap fun row => ofRow (row.headD 0) row.length

/-- How often each of `n` symbols occurs. -/
def occurrences (n : Nat) (symbols : List Nat) : List Nat :=
  (symbols.foldl (fun (out : Array Nat) s => out.modify s (· + 1)) (Array.replicate n 0)).toList

/-- The word lengths of the code in which runs are written. -/
def lengthsFor (runs : List LengthRun) : List Nat :=
  WordLengths.ofCounts longestWord (occurrences symbolCount (runs.map symbol))

/-- How many of a list's numbers are needed if zeros at the end may be left out, at least `least`. -/
def needed (least : Nat) (lengths : List Nat) : Nat :=
  max least (lengths.reverse.dropWhile (· == 0)).length

/-- The runs in the code of this tree. -/
def runBits (code : CodeTree) (runs : List LengthRun) : List Bool :=
  let words := code.words symbolCount
  runs.flatMap fun r => words.getD r.symbol [] ++ r.extra

/-- The word lengths of a code for runs, in the order of transmission. -/
def inOrder (lengths : List Nat) : List Nat :=
  order.map fun s => lengths.getD s 0

/-- The bits that transmit the runs of two lists of word lengths: how many lengths there are of each, and how
many of the code for the runs; then that code, and the runs. -/
def codedRuns (symbols distances : Nat) (runs : List LengthRun) : List Bool :=
  let lengths := lengthsFor runs
  let short := inOrder lengths
  let n := needed leastShort short
  Bits.numberBits 5 (symbols - 257) ++ Bits.numberBits 5 (distances - 1) ++ Bits.numberBits 4 (n - leastShort) ++
    (short.take n).flatMap (Bits.numberBits 3) ++ runBits ((CodeTree.ofLengths? true lengths).getD .hole) runs

/-- The bits that transmit two lists of word lengths. -/
def headerBits (symbols distances : List Nat) : List Bool :=
  let symbols := symbols.take (needed 257 symbols)
  let distances := distances.take (needed 1 distances)
  codedRuns symbols.length distances.length (ofLengths (symbols ++ distances))

end LengthRun

end DedupImage
