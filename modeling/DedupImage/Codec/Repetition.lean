import DedupImage.Codec.Token

/-!
# Repetitions in a text

A text is turned into tokens by looking for places before the current one where the same bytes begin.
Places whose next three bytes have the same key are linked into chains, latest first, and the chain of
the current place is followed as far as copies reach and patience lasts (`longest`). Keys may collide,
so how far two places really agree is counted byte by byte.

A copy that was found waits for one byte: if a longer one begins at the next place, the first byte is
written as it is and the longer copy waits instead (`tokensFrom`).
-/

namespace DedupImage.Repetition

/-- Count equal bytes from `i` and from `j` on, at most `n`. -/
def commonLength (src : ByteArray) (i j : Nat) : (n : Nat) → Nat
  | 0 => 0
  | n + 1 => if byteAt src i == byteAt src j then commonLength src (i + 1) (j + 1) n + 1 else 0

/-- The number of keys. -/
def keyCount : Nat := 32768

/-- The key of the three bytes at a place. -/
def key (src : ByteArray) (pos : Nat) : Nat :=
  ((byteAt src pos).toNat * 1024 ^^^ (byteAt src (pos + 1)).toNat * 32 ^^^
    (byteAt src (pos + 2)).toNat) % keyCount

/-- Links of `n` places from `pos` on. `last` holds the last place of every key. -/
def linksFrom (src : ByteArray) (pos : Nat) (last links : Array Nat) : (n : Nat) → Array Nat
  | 0 => links
  | n + 1 =>
    let k := key src pos
    let before := last.getD k 0
    linksFrom src (pos + 1) (last.setIfInBounds k pos) (links.push before) n

/-- For every place that three bytes follow, the last place before it with the same key, or zero. So no
copy begins with the first byte. -/
def links (src : ByteArray) : Array Nat :=
  linksFrom src 0 (Array.replicate keyCount 0) #[] (src.size - 2)

/-- A copy: how many bytes, and from how far back. -/
structure Copy where
  length : Nat
  distance : Nat
  deriving DecidableEq, Repr, Inhabited

/-- Whether the bytes from `place` agree with those from `pos` at the end of `n` bytes and just behind it,
as they must if more than `n` agree. -/
def agreesAt (src : ByteArray) (place pos n : Nat) : Bool :=
  byteAt src (place + n - 1) == byteAt src (pos + n - 1) && byteAt src (place + n) == byteAt src (pos + n)

/-- The longest copy for `pos` among the places on a chain that begins at `place`, if it is longer than
`best`; of equally long ones the nearest. At most `patience` places are tried: one that looks better
costs three of them, or what is missing to a multiple of three. -/
def longest (src : ByteArray) (links : Array Nat) (pos reach most place : Nat) (best : Copy)
    (patience : Nat) : Copy :=
  if patience = 0 ∨ place = 0 ∨ most ≤ best.length ∨ reach < pos - place then
    best
  else if agreesAt src place pos best.length then
    let length := commonLength src place pos most
    let best := if best.length < length then ⟨length, pos - place⟩ else best
    longest src links pos reach most (links.getD place 0) best ((patience - 1) / 3 * 3)
  else
    longest src links pos reach most (links.getD place 0) best (patience - 1)
termination_by patience
decreasing_by all_goals omega

/-- A copy this long is not improved upon. -/
def longEnough : Nat := 128

/-- The shortest copies are not worth their bits from this distance on. -/
def tooFar : Nat := 8192

/-- How many places are tried at each level. -/
def efforts : Array Nat := #[0, 1, 6, 32, 16, 32, 128, 256, 512, 768]

/-- How many places are tried to improve upon a copy of this length. -/
def patience (level length : Nat) : Nat :=
  if length < 32 then efforts.getD level 0 else efforts.getD level 0 / 4

/-- The copy to make at `pos`, if there is one longer than `least` bytes. -/
def copyAt? (level : Nat) (src : ByteArray) (links : Array Nat) (pos least : Nat) : Option Copy :=
  let most := min Token.longestCopy (src.size - pos)
  let best :=
    longest src links pos (Token.window - most) most (links.getD pos 0) ⟨least, 0⟩ (patience level least)
  if best.distance = 0 ∨ best.length < Token.shortestCopy ∨
      best.length = Token.shortestCopy ∧ tooFar ≤ best.distance then
    none
  else
    some best

/-- How long a copy at `pos` must be to be worth making: longer than the copy that waits. -/
def toBeat (waiting : Option Copy) : Nat :=
  match waiting with
  | none => Token.shortestCopy - 1
  | some w => w.length

/-- Give up the copy that waits: its first byte, before `pos`, is written as it is. -/
def giveUp (src : ByteArray) (pos : Nat) (waiting : Option Copy) (out : Array Token) : Array Token :=
  match waiting with
  | none => out
  | some _ => out.push (.literal (byteAt src (pos - 1)))

/-- Tokens for the text from `pos` on, added to `out`. The copy that waits began one byte earlier. -/
def tokensFrom (level : Nat) (src : ByteArray) (links : Array Nat) (pos : Nat) (waiting : Option Copy)
    (out : Array Token) : Array Token :=
  if pos < src.size then
    match copyAt? level src links pos (toBeat waiting) with
    | some c =>
      let out := giveUp src pos waiting out
      if longEnough ≤ c.length then
        tokensFrom level src links (pos + c.length) none (out.push (.copy c.length c.distance))
      else
        tokensFrom level src links (pos + 1) (some c) out
    | none =>
      match waiting with
      | none => tokensFrom level src links (pos + 1) none (out.push (.literal (byteAt src pos)))
      | some w =>
        tokensFrom level src links (pos + (w.length - 2) + 1) none (out.push (.copy w.length w.distance))
  else
    match waiting with
    | none => out
    | some w => out.push (.copy w.length w.distance)
termination_by src.size - pos
decreasing_by
  all_goals (try unfold longEnough at *)
  all_goals omega

/-- Tokens for a text. -/
def tokens (level : Nat) (src : ByteArray) : List Token :=
  (tokensFrom level src (links src) 0 none #[]).toList

end DedupImage.Repetition
