import DedupImage.Codec.Token
import DedupImage.Codec.ZstdLiterals

/-!
# Sequences of a Zstandard block

What a compressed block makes of its literals is said by sequences: so many literals, then a copy of so many
bytes, from so far back. Literals that are left over end the block. The three numbers of a sequence are
classes with extra bits, and the classes are written in three codes of states (`FseTable`): the predefined
ones, or one class always, or codes that are described before them, or the ones of the block before.

The last three distances have short forms. They are counted after a sequence without literals from the second
on, since the first would go on with the copy before.
-/

namespace DedupImage.Zstd

/-- A number of literals, the length of a copy, and the form of its distance. -/
structure Sequence where
  literals : Nat
  length : Nat
  form : Nat
  deriving DecidableEq, Repr, Inhabited

/-- The smallest number of literals of each class, and its extra bits. -/
def literalClasses : Array (Nat × Nat) := #[
  (0, 0), (1, 0), (2, 0), (3, 0), (4, 0), (5, 0), (6, 0), (7, 0), (8, 0), (9, 0), (10, 0), (11, 0),
  (12, 0), (13, 0), (14, 0), (15, 0), (16, 1), (18, 1), (20, 1), (22, 1), (24, 2), (28, 2), (32, 3),
  (40, 3), (48, 4), (64, 6), (128, 7), (256, 8), (512, 9), (1024, 10), (2048, 11), (4096, 12),
  (8192, 13), (16384, 14), (32768, 15), (65536, 16)]

/-- The smallest length of each class, and its extra bits. -/
def lengthClasses : Array (Nat × Nat) := #[
  (3, 0), (4, 0), (5, 0), (6, 0), (7, 0), (8, 0), (9, 0), (10, 0), (11, 0), (12, 0), (13, 0), (14, 0),
  (15, 0), (16, 0), (17, 0), (18, 0), (19, 0), (20, 0), (21, 0), (22, 0), (23, 0), (24, 0), (25, 0),
  (26, 0), (27, 0), (28, 0), (29, 0), (30, 0), (31, 0), (32, 0), (33, 0), (34, 0), (35, 1), (37, 1),
  (39, 1), (41, 1), (43, 2), (47, 2), (51, 3), (59, 3), (67, 4), (83, 4), (99, 5), (131, 7), (259, 8),
  (515, 9), (1027, 10), (2051, 11), (4099, 12), (8195, 13), (16387, 14), (32771, 15), (65539, 16)]

/-- The smallest form of each class, and its extra bits. -/
def formClasses : Array (Nat × Nat) := ((List.range 32).map fun n => (1 <<< n, n)).toArray

/-- The codes that need no description. -/
def predefinedLiterals : FseTable :=
  .ofCounts 6 [4, 3, 2, 2, 2, 2, 2, 2, 2, 2, 2, 2, 2, 1, 1, 1, 2, 2, 2, 2, 2, 2, 2, 2, 2, 3, 2, 1, 1, 1, 1, 1,
    -1, -1, -1, -1]

@[inherit_doc predefinedLiterals] def predefinedForms : FseTable :=
  .ofCounts 5 [1, 1, 1, 1, 1, 1, 2, 2, 2, 1, 1, 1, 1, 1, 1, 1, 1, 1, 1, 1, 1, 1, 1, 1, -1, -1, -1, -1, -1]

@[inherit_doc predefinedLiterals] def predefinedLengths : FseTable :=
  .ofCounts 6 [1, 4, 3, 2, 2, 2, 2, 2, 2, 1, 1, 1, 1, 1, 1, 1, 1, 1, 1, 1, 1, 1, 1, 1, 1, 1, 1, 1, 1, 1, 1, 1,
    1, 1, 1, 1, 1, 1, 1, 1, 1, 1, 1, 1, 1, 1, -1, -1, -1, -1, -1, -1, -1]

/-- Three of a kind: for literals, forms and lengths, in the order in which they are written. -/
structure Triple (α : Type) where
  literals : α
  forms : α
  lengths : α
  deriving DecidableEq, Repr, Inhabited

/-- What a block knows of the blocks before it in its frame. -/
structure Memory where
  code : Option LiteralCode := none
  tables : Triple (Option FseTable) := ⟨none, none, none⟩
  /-- The last three distances, latest first. -/
  recent : Nat × Nat × Nat := (1, 4, 8)

/-! ## Codes -/

/-- Read a code at `pos` in one of four ways: the code, and the position behind. -/
def table? (b : ByteArray) (way pos mostLog classes : Nat) (predefined : FseTable) (known : Option FseTable) :
    Option (FseTable × Nat) :=
  if way = 0 then
    some (predefined, pos)
  else if way = 1 then
    if pos < b.size ∧ (byteAt b pos).toNat < classes then
      some (.single (byteAt b pos).toNat, pos + 1)
    else
      none
  else if way = 2 then
    FseTable.read? b pos mostLog classes
  else
    known.map (·, pos)

/-- Read the three codes, for which `ways` tells the way. -/
def tables? (b : ByteArray) (ways pos : Nat) (known : Triple (Option FseTable)) :
    Option (Triple FseTable × Nat) := do
  let (literals, pos) ← table? b (ways / 64) pos 9 literalClasses.size predefinedLiterals known.literals
  let (forms, pos) ← table? b (ways / 16 % 4) pos 8 formClasses.size predefinedForms known.forms
  let (lengths, pos) ← table? b (ways / 4 % 4) pos 9 lengthClasses.size predefinedLengths known.lengths
  return (⟨literals, forms, lengths⟩, pos)

/-! ## Reading sequences -/

/-- Take the extra bits of a value in class `c`. -/
def takeValue? (classes : Array (Nat × Nat)) (c : Nat) (bits : List Bool) : Option (Nat × List Bool) :=
  match classes[c]? with
  | none => none
  | some (base, width) => (Bits.take? width 0 bits).map fun (above, bits) => (base + above, bits)

/-- Take the bits that lead on from a state. -/
def takeState? (t : FseTable) (state : Nat) (bits : List Bool) : Option (Nat × List Bool) :=
  (Bits.take? (t.cell state).width 0 bits).map fun (above, bits) => ((t.cell state).base + above, bits)

/-- Take the sequence that these states stand for. -/
def takeSequence? (tables : Triple FseTable) (states : Triple Nat) (bits : List Bool) :
    Option (Sequence × List Bool) := do
  let (form, bits) ← takeValue? formClasses (tables.forms.cell states.forms).symbol bits
  let (length, bits) ← takeValue? lengthClasses (tables.lengths.cell states.lengths).symbol bits
  let (literals, bits) ← takeValue? literalClasses (tables.literals.cell states.literals).symbol bits
  return (⟨literals, length, form⟩, bits)

/-- Take the bits that lead on from all three states. -/
def takeStates? (tables : Triple FseTable) (states : Triple Nat) (bits : List Bool) :
    Option (Triple Nat × List Bool) := do
  let (literals, bits) ← takeState? tables.literals states.literals bits
  let (lengths, bits) ← takeState? tables.lengths states.lengths bits
  let (forms, bits) ← takeState? tables.forms states.forms bits
  return (⟨literals, forms, lengths⟩, bits)

/-- Take `n` sequences more, which take up all of the bits. -/
def takeSequences? (tables : Triple FseTable) : (n : Nat) → (states : Triple Nat) → List Bool →
    Option (List Sequence)
  | 0, _, _ => some []
  | n + 1, states, bits =>
    match takeSequence? tables states bits with
    | none => none
    | some (s, bits) =>
      if n = 0 then
        if bits = [] then some [s] else none
      else
        match takeStates? tables states bits with
        | none => none
        | some (states, bits) => (takeSequences? tables n states bits).map (s :: ·)

/-- Take the first states, and then `n` sequences. -/
def sequencesOf? (tables : Triple FseTable) (n : Nat) (bits : List Bool) : Option (List Sequence) := do
  let (literals, bits) ← Bits.take? tables.literals.log 0 bits
  let (forms, bits) ← Bits.take? tables.forms.log 0 bits
  let (lengths, bits) ← Bits.take? tables.lengths.log 0 bits
  takeSequences? tables n ⟨literals, forms, lengths⟩ bits

/-- Read the number of sequences at `pos`: the number, and the position behind. -/
def count? (b : ByteArray) (pos : Nat) : Option (Nat × Nat) :=
  let first := numberAt b pos 1
  let (n, width) :=
    if first < 128 then (first, 1)
    else if first < 255 then ((first - 128) * 256 + numberAt b (pos + 1) 1, 2)
    else (numberAt b (pos + 1) 2 + 0x7F00, 3)
  if pos + width ≤ b.size then some (n, pos + width) else none

/-- Read the sequences of a block from `pos` to its end, and what is known of the codes then. -/
def sequences? (b : ByteArray) (pos : Nat) (known : Triple (Option FseTable)) :
    Option (List Sequence × Triple (Option FseTable)) := do
  let (n, pos) ← count? b pos
  if n = 0 then
    guard (pos = b.size)
    return ([], known)
  else
    guard (pos < b.size ∧ (byteAt b pos).toNat % 4 = 0)
    let (tables, pos) ← tables? b (byteAt b pos).toNat (pos + 1) known
    let bits ← Bits.backward? (slice b pos (b.size - pos))
    let sequences ← sequencesOf? tables n bits
    return (sequences, ⟨some tables.literals, some tables.forms, some tables.lengths⟩)

/-! ## Carrying out sequences -/

/-- The distance of a form, and the last three distances then. -/
def distanceOf (form literals : Nat) : (recent : Nat × Nat × Nat) → Nat × (Nat × Nat × Nat)
  | (first, second, third) =>
    if 3 < form then
      (form - 3, (form - 3, first, second))
    else
      let place := if literals = 0 then form else form - 1
      if place = 0 then (first, (first, second, third))
      else if place = 1 then (second, (second, first, third))
      else if place = 2 then (third, (third, first, second))
      else (first - 1, (first - 1, first, second))

/-- Carry out sequences on literals, of which those from `pos` on are left, and on the bytes before the block
and in it. There may be at most `most` bytes then. -/
def carryOut (literals : ByteArray) (most : Nat) :
    List Sequence → (pos : Nat) → (recent : Nat × Nat × Nat) → (out : ByteArray) →
      Option (ByteArray × (Nat × Nat × Nat))
  | [], pos, recent, out =>
    let left := literals.size - pos
    if out.size + left ≤ most then some (out ++ slice literals pos left, recent) else none
  | s :: rest, pos, recent, out =>
    let (distance, recent) := distanceOf s.form s.literals recent
    if literals.size < pos + s.literals ∨ most < out.size + s.literals + s.length then
      none
    else
      let out := out ++ slice literals pos s.literals
      if distance = 0 ∨ out.size < distance then
        none
      else
        carryOut literals most rest (pos + s.literals) recent (Token.copyBack out distance s.length)

/-- Decompress a block that begins behind the bytes `out`: these and its own bytes, and what is known then. -/
def block? (b : ByteArray) (memory : Memory) (out : ByteArray) : Option (ByteArray × Memory) := do
  let (literals, code, pos) ← literals? b memory.code
  let (sequences, tables) ← sequences? b pos memory.tables
  let (out, recent) ← carryOut literals (out.size + longestBlock) sequences 0 memory.recent out
  return (out, ⟨code, tables, recent⟩)

end DedupImage.Zstd
