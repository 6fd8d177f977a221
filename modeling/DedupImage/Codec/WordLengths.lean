/-!
# Word lengths for a text

A code is good if frequent symbols have short words. `WordLengths.ofCounts` finds word lengths from the
number of times that each symbol occurs. It joins the two lightest trees of symbols until one is left
(`WordTree.join`); the words are the ways to the symbols in it.

Words may not become longer than a limit. If some do, the row of symbols is cut instead where both sides
weigh nearly the same; the side is the first bit of a word, and each side is cut again
(`WordLengths.balanced`). There a cut leaves neither side more symbols than the bits that are left can tell
apart.

Every code has two words or more, for one word alone would fill only half of its tree.
-/

namespace DedupImage

/-- A tree of symbols. -/
inductive WordTree where
  | leaf (symbol : Nat)
  | node (zero one : WordTree)
  deriving DecidableEq, Repr, Inhabited

namespace WordTree

/-- The symbols of a tree with the lengths of their words, all of which have `level` bits before the tree. -/
def words (level : Nat) : WordTree → List (Nat × Nat)
  | leaf s => [(s, level)]
  | node zero one => words (level + 1) zero ++ words (level + 1) one

/-- Put a tree into a row that rises by weight, behind all that are not heavier. -/
def insert (t : Nat × WordTree) : List (Nat × WordTree) → List (Nat × WordTree)
  | [] => [t]
  | u :: row => if t.1 < u.1 then t :: u :: row else u :: insert t row

/-- Join the first two trees of a row `n` times. -/
def join (row : List (Nat × WordTree)) : (n : Nat) → List (Nat × WordTree)
  | 0 => row
  | n + 1 =>
    match row with
    | a :: b :: row => join (insert (a.1 + b.1, node a.2 b.2) row) n
    | row => row

/-- The symbols that occur, as trees that rise by weight. -/
def leaves (weights : List Nat) : List (Nat × WordTree) :=
  weights.zipIdx.foldr (fun e row => insert (e.1, leaf e.2) row) []

/-- The tree of symbols with these weights. -/
def ofWeights (weights : List Nat) : WordTree :=
  (((join (leaves weights) (weights.length - 1)).head?).map (·.2)).getD (leaf 0)

end WordTree

namespace WordLengths

/-- The word lengths in the tree of a row of weights. -/
def joined (weights : List Nat) : List Nat :=
  let words := (WordTree.ofWeights weights).words 0
  (List.range weights.length).map fun s => (words.lookup s).getD 0

/-- How many of the weights, from the left, weigh at most `budget` together. -/
def leading (budget : Nat) : List Nat → Nat
  | [] => 0
  | w :: weights => if w ≤ budget then leading (budget - w) weights + 1 else 0

/-- Where to cut a row of weights, so that no side is empty or longer than `most`. -/
def cut (most : Nat) (weights : List Nat) : Nat :=
  max (max 1 (weights.length - most))
    (min (min (weights.length - 1) most) (leading (weights.foldl (· + ·) 0 / 2) weights))

/-- Word lengths for a row of weights, whose words have `level` bits in common and at most `depth` bits
more. -/
def balanced : (depth level : Nat) → (weights : List Nat) → List Nat
  | 0, level, weights => weights.map fun _ => level
  | depth + 1, level, weights =>
    if weights.length ≤ 1 then
      weights.map fun _ => level
    else
      let k := cut (1 <<< depth) weights
      balanced depth (level + 1) (weights.take k) ++ balanced depth (level + 1) (weights.drop k)

/-- Word lengths for a row of weights, none of them above the limit. -/
def ofWeights (limit : Nat) (weights : List Nat) : List Nat :=
  let lengths := joined weights
  if lengths.all (· ≤ limit) then lengths else balanced limit 0 weights

/-- Give the symbols that occur these lengths, and the others the length zero, which is no word. -/
def spread : (counts lengths : List Nat) → List Nat
  | [], _ => []
  | 0 :: counts, lengths => 0 :: spread counts lengths
  | (_ + 1) :: counts, lengths => lengths.headD 0 :: spread counts lengths.tail

/-- Let the first two symbols occur. -/
def withFirstTwo : List Nat → List Nat
  | m :: n :: counts => max m 1 :: max n 1 :: counts
  | counts => counts

/-- Let two symbols occur at least. -/
def atLeastTwo (counts : List Nat) : List Nat :=
  if 2 ≤ (counts.filter (· ≠ 0)).length then counts else withFirstTwo counts

/-- Word lengths by symbol, none of them above the limit, for symbols that occur `counts` times. -/
def ofCounts (limit : Nat) (counts : List Nat) : List Nat :=
  let counts := atLeastTwo counts
  spread counts (ofWeights limit (counts.filter (· ≠ 0)))

end WordLengths

end DedupImage
