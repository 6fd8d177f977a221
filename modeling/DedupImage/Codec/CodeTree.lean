import DedupImage.Codec.Bits

/-!
# Code trees

A Huffman code is a binary tree whose leaves are symbols: the word of a symbol is the path to its leaf.
Deflate transmits only the length of each symbol's word; the words themselves follow, because shorter
words come first and words of one length are in the order of their symbols. Filling a tree from the
left in that order (`CodeTree.fill`) gives exactly these words.

The filling also shows whether the lengths make sense. Symbols left over are too many for the tree;
a `hole` is a word that belongs to no symbol. A tree with holes is accepted in one case only: a code
whose words have one bit each, so that at most its other bit is a hole.
-/

namespace DedupImage

/-- A binary tree of symbols. -/
inductive CodeTree where
  | hole
  | leaf (symbol : Nat)
  | node (zero one : CodeTree)
  deriving DecidableEq, Repr, Inhabited

namespace CodeTree

/-- The length of the longest word. -/
def longestWord : Nat := 15

/-- Fill a tree whose root is `level` steps below the top and has at most `depth` levels below it.
The entries are pairs of a word length and a symbol, shortest word first; those that the tree does not
take are returned. -/
def fill : (depth level : Nat) → List (Nat × Nat) → CodeTree × List (Nat × Nat)
  | _, _, [] => (hole, [])
  | 0, level, (length, symbol) :: rest =>
    if length ≤ level then (leaf symbol, rest) else (hole, (length, symbol) :: rest)
  | depth + 1, level, (length, symbol) :: rest =>
    if length ≤ level then
      (leaf symbol, rest)
    else
      let left := fill depth (level + 1) ((length, symbol) :: rest)
      let right := fill depth (level + 1) left.2
      (node left.1 right.1, right.2)

/-- The symbols that have a word of the given length, with that length. -/
def ofLength (lengths : List Nat) (length : Nat) : List (Nat × Nat) :=
  (lengths.zipIdx.filter fun e => e.1 == length)

/-- The symbols that have a word, shortest word first. A length of zero means no word. -/
def entries (lengths : List Nat) : List (Nat × Nat) :=
  (List.range longestWord).flatMap fun k => ofLength lengths (k + 1)

/-- Whether every word belongs to a symbol. -/
def full : CodeTree → Bool
  | hole => false
  | leaf _ => true
  | node zero one => zero.full && one.full

/-- The tree of the given word lengths, by symbol. None if there are too many words, or too few. A code
that is not `strict` may have holes if its words have one bit each: it has one word then, or none. -/
def ofLengths? (strict : Bool) (lengths : List Nat) : Option CodeTree :=
  let words := entries lengths
  let filled := fill longestWord 0 words
  if filled.2.isEmpty && (filled.1.full || (!strict && words.all fun w => w.1 == 1)) then
    some filled.1
  else
    none

/-- The tree below one bit. -/
def child : CodeTree → Bool → CodeTree
  | node zero _, false => zero
  | node _ one, true => one
  | _, _ => hole

/-- The bits that lead to a symbol, if it is a leaf. -/
def word? : CodeTree → (symbol : Nat) → Option (List Bool)
  | hole, _ => none
  | leaf s, symbol => if s = symbol then some [] else none
  | node zero one, symbol =>
    match zero.word? symbol with
    | some w => some (false :: w)
    | none => (one.word? symbol).map (true :: ·)

/-- The words of `n` symbols; a symbol that is no leaf has the empty word. -/
def words (t : CodeTree) (n : Nat) : Array (List Bool) :=
  (Array.range n).map fun symbol => (t.word? symbol).getD []

/-- Follow the bits from `pos` down to a leaf: the symbol and the position behind its word. A word
without a symbol is bad data as soon as its last bit is there. -/
def walk (src : ByteArray) : CodeTree → (pos : Nat) → Except StorageFailure (Nat × Nat)
  | hole, _ => .error .other
  | leaf symbol, pos => .ok (symbol, pos)
  | node zero one, pos =>
    match Bits.bit? src pos with
    | none => .error .unexpectedEof
    | some false => walk src zero (pos + 1)
    | some true => walk src one (pos + 1)

/-- Read one symbol. A word has at least one bit, so a bit is read even from a code without words. -/
def readSymbol (src : ByteArray) (t : CodeTree) (pos : Nat) : Except StorageFailure (Nat × Nat) :=
  match Bits.bit? src pos with
  | none => .error .unexpectedEof
  | some b => walk src (t.child b) (pos + 1)

theorem walk_end {src : ByteArray} {t : CodeTree} {pos s stop : Nat}
    (h : walk src t pos = .ok (s, stop)) : pos ≤ stop ∧ (pos < stop → stop ≤ Bits.total src) := by
  induction t generalizing pos with
  | hole => simp [walk] at h
  | leaf symbol =>
    simp only [walk, Except.ok.injEq, Prod.mk.injEq] at h
    omega
  | node zero one ihz iho =>
    simp only [walk] at h
    split at h
    · simp at h
    · next hb =>
      have := Bits.bit?_eq_some hb
      have := ihz h
      omega
    · next hb =>
      have := Bits.bit?_eq_some hb
      have := iho h
      omega

theorem readSymbol_end {src : ByteArray} {t : CodeTree} {pos s stop : Nat}
    (h : readSymbol src t pos = .ok (s, stop)) : pos < stop ∧ stop ≤ Bits.total src := by
  unfold readSymbol at h
  split at h
  · simp at h
  · next hb =>
    have := Bits.bit?_eq_some hb
    have := walk_end h
    omega

end CodeTree

end DedupImage
