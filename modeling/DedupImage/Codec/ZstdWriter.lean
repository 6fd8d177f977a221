import DedupImage.Codec.Repetition
import DedupImage.Codec.ZstdSequences

/-!
# Writing Zstandard frames

A string is turned into tokens (`Repetition.tokens`), and the tokens are cut into blocks. A block of one byte
repeated is written as a run. Any other is compressed: its literals as they are, and its copies as sequences in
the predefined codes. If that does not make it shorter, it is written as it is.

A reader of sequences begins at the end of a block and goes from state to state. So the writer begins with the
last sequence, and looks for a state from which bits lead to the state behind it (`FseTable.before?`).
-/

namespace DedupImage.Zstd

/-- The number every frame begins with. -/
def magic : Nat := 0xFD2FB528

/-! ## Sequences -/

/-- The sequences of tokens behind so many literals. A distance is never written in a short form. -/
def sequencesFrom (literals : Nat) : List Token → List Sequence
  | [] => []
  | .literal _ :: ts => sequencesFrom (literals + 1) ts
  | .copy length distance :: ts => ⟨literals, length, distance + 3⟩ :: sequencesFrom 0 ts

/-- The literals of tokens. -/
def literalsOf (ts : List Token) : ByteArray :=
  let bytes := ts.filterMap fun t => match t with
    | .literal byte => some byte
    | .copy _ _ => none
  ⟨bytes.toArray⟩

/-- The classes of a sequence. -/
def Sequence.classes (s : Sequence) : Triple Nat :=
  ⟨Token.classOf literalClasses s.literals, Token.classOf formClasses s.form,
    Token.classOf lengthClasses s.length⟩

/-- The extra bits of a sequence, in the order in which they are read. -/
def Sequence.extra (s : Sequence) : List Bool :=
  (Token.extra formClasses s.form).reverse ++ (Token.extra lengthClasses s.length).reverse ++
    (Token.extra literalClasses s.literals).reverse

/-- The bits that lead on from one state to the next. -/
def stepBits (t : FseTable) (state next : Nat) : List Bool :=
  (Bits.numberBits (t.cell state).width (next - (t.cell state).base)).reverse

/-- States that stand for these classes. -/
def startStates? (tables : Triple FseTable) (classes : Triple Nat) : Option (Triple Nat) := do
  let literals ← tables.literals.start? classes.literals
  let forms ← tables.forms.start? classes.forms
  let lengths ← tables.lengths.start? classes.lengths
  return ⟨literals, forms, lengths⟩

/-- States that stand for these classes, and from which bits lead to the next ones. -/
def statesBefore? (tables : Triple FseTable) (classes next : Triple Nat) : Option (Triple Nat) := do
  let literals ← tables.literals.before? classes.literals next.literals
  let forms ← tables.forms.before? classes.forms next.forms
  let lengths ← tables.lengths.before? classes.lengths next.lengths
  return ⟨literals, forms, lengths⟩

/-- The bits that lead on from three states, in the order in which they are read. -/
def stepsBits (tables : Triple FseTable) (states next : Triple Nat) : List Bool :=
  stepBits tables.literals states.literals next.literals ++ stepBits tables.lengths states.lengths next.lengths ++
    stepBits tables.forms states.forms next.forms

/-- The first states of sequences, and all bits behind them. None if a class has no state. -/
def encode? (tables : Triple FseTable) : List Sequence → Option (Triple Nat × List Bool)
  | [] => none
  | [s] => (startStates? tables s.classes).map fun states => (states, s.extra)
  | s :: rest => do
    let (next, bits) ← encode? tables rest
    let states ← statesBefore? tables s.classes next
    return (states, s.extra ++ stepsBits tables states next ++ bits)

/-- The bits of first states. -/
def startBits (tables : Triple FseTable) (states : Triple Nat) : List Bool :=
  (Bits.numberBits tables.literals.log states.literals).reverse ++
    (Bits.numberBits tables.forms.log states.forms).reverse ++
    (Bits.numberBits tables.lengths.log states.lengths).reverse

/-- The predefined codes. -/
def predefined : Triple FseTable := ⟨predefinedLiterals, predefinedForms, predefinedLengths⟩

/-! ## Blocks -/

/-- A block of uncompressed or compressed contents. -/
inductive Block where
  | plain (start length : Nat)
  | run (byte : UInt8) (length : Nat)
  | packed (contents : ByteArray) (length : Nat)
  deriving Inhabited

/-- Literals as they are, behind their number. -/
def pushLiterals (out literals : ByteArray) : ByteArray :=
  let n := literals.size
  (if n < 32 then pushNumber out 1 (n * 8)
    else if n < 4096 then pushNumber out 2 (n * 16 + 4)
    else pushNumber out 3 (n * 16 + 12)) ++ literals

/-- Add the number of sequences. -/
def pushCount (out : ByteArray) (n : Nat) : ByteArray :=
  if n < 128 then pushNumber out 1 n
  else if n < 0x7F00 then pushNumber (pushNumber out 1 (n / 256 + 128)) 1 (n % 256)
  else pushNumber (pushNumber out 1 255) 2 (n - 0x7F00)

/-- The contents of a block with these tokens. None if it has no copy. -/
def contents? (ts : List Token) : Option ByteArray :=
  let sequences := sequencesFrom 0 ts
  match encode? predefined sequences with
  | none => none
  | some (states, bits) =>
    let head := (pushCount (pushLiterals ByteArray.empty (literalsOf ts)) sequences.length).push 0
    some (Bits.pushBits head ((startBits predefined states ++ bits).reverse ++ [true]))

/-- The block of the tokens `ts`, which produce `length` bytes from `start` on. -/
def blockOf (src : ByteArray) (start length : Nat) (ts : List Token) : Block :=
  if 1 < length ∧ agree src start src (start + 1) (length - 1) then
    .run (byteAt src start) length
  else
    match contents? ts with
    | none => .plain start length
    | some contents => if contents.size < length then .packed contents length else .plain start length

/-- Cut tokens into blocks. `block` holds the tokens of the current block, last one first, and `length` is the
number of bytes that they produce. -/
def cutFrom (length : Nat) (block : List Token) : List Token → List (List Token)
  | [] => [block.reverse]
  | t :: ts =>
    if longestBlock < length + t.size then
      block.reverse :: cutFrom t.size [t] ts
    else
      cutFrom (length + t.size) (t :: block) ts

/-- Add one block: a header of three bytes with the length, the kind and the mark of the last block, and the
contents. -/
def pushBlock (src out : ByteArray) (last : Bool) : Block → ByteArray
  | .plain start length => pushNumber out 3 (length * 8 + last.toNat) ++ slice src start length
  | .run byte length => (pushNumber out 3 (length * 8 + 2 + last.toNat)).push byte
  | .packed contents _ => pushNumber out 3 (contents.size * 8 + 4 + last.toNat) ++ contents

/-- Add the blocks of tokens that produce the string from `pos` on, the last of them marked. -/
def pushBlocks (src : ByteArray) (pos : Nat) (out : ByteArray) : List (List Token) → ByteArray
  | [] => out
  | ts :: rest =>
    let length := (ts.map Token.size).foldl (· + ·) 0
    pushBlocks src (pos + length) (pushBlock src out rest.isEmpty (blockOf src pos length ts)) rest

/-! ## Frames -/

/-- Add the header byte and the size of the contents, in as few bytes as it takes. The frame is one
segment, so that no window is announced. -/
def pushHeader (out : ByteArray) (n : Nat) : ByteArray :=
  if n < 256 then pushNumber (out.push 0x20) 1 n
  else if n < 65536 + 256 then pushNumber (out.push 0x60) 2 (n - 256)
  else if n < UInt32.size then pushNumber (out.push 0xA0) 4 n
  else pushNumber (out.push 0xE0) 8 n

/-- A string as one frame. The level says how much is tried to find repetitions. -/
def pack (level : Nat) (src : ByteArray) : ByteArray :=
  pushBlocks src 0 (pushHeader (pushNumber ByteArray.empty 4 magic) src.size)
    (cutFrom 0 [] (Repetition.tokens (min level 9) src))

end DedupImage.Zstd
