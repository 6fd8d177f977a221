import DedupImage.Failure

/-!
# Codec settings

A codec is chosen by its scheme and configured by options, pairs of a field and a value. The only
field is the compression level: a decimal number within the range of the scheme. Options are applied
in order, so the first bad one decides the failure and the last good one the level.
-/

namespace DedupImage

/-- A configured codec. -/
structure CodecSetting where
  scheme : Scheme
  level : Int
  deriving DecidableEq, Repr

/-- The range of levels of a scheme, and whether a value may have a minus sign. -/
structure LevelRange where
  least : Nat
  most : Nat
  standard : Nat
  signed : Bool
  /-- The values that can be read at all lie from `-below` to `above`. -/
  below : Nat
  above : Nat

namespace CodecSetting

/-- The levels of a scheme: an unsigned word for zlib streams, a signed one for Zstandard. -/
def levels : Scheme → LevelRange
  | .gzip => ⟨1, 9, 9, false, 0, UInt32.size - 1⟩
  | _ => ⟨1, 22, 12, true, UInt32.size / 2, UInt32.size / 2 - 1⟩

/-- The number that a non-empty sequence of ASCII digits spells. -/
def digits? (cs : List Char) : Option Nat :=
  if cs ≠ [] ∧ cs.all (fun c => decide ('0' ≤ c ∧ c ≤ '9')) then
    some (cs.foldl (fun n c => n * 10 + (c.toNat - '0'.toNat)) 0)
  else
    none

/-- The number that a value spells: digits, after a plus sign or, if the range is signed, a minus
sign; none if it is not a number of the range's words. -/
def number? (range : LevelRange) (value : String) : Option Int :=
  match value.toList with
  | '-' :: rest =>
    if range.signed then
      (digits? rest).bind fun n => if n ≤ range.below then some (-(n : Int)) else none
    else
      none
  | '+' :: rest => (digits? rest).bind fun n => if n ≤ range.above then some n else none
  | cs => (digits? cs).bind fun n => if n ≤ range.above then some n else none

/-- Read a compression level. -/
def readLevel (range : LevelRange) (value : String) : Except ConfigFault Int :=
  match number? range value with
  | none => .error .levelUnreadable
  | some n =>
    if (range.least : Int) ≤ n ∧ n ≤ range.most then
      .ok n
    else
      .error (.levelOutside n range.least range.most)

/-- Apply options in order. -/
def applyOptions (s : CodecSetting) : List (String × String) → Except ConfigFault CodecSetting
  | [] => .ok s
  | (field, value) :: rest =>
    if field = "compression_level" then
      match readLevel (levels s.scheme) value with
      | .error e => .error e
      | .ok level => applyOptions { s with level := level } rest
    else
      .error (.unknownOption field)

/-- The setting of a scheme with options. A scheme without a codec is refused whatever they say. -/
def configure (scheme : Scheme) (options : List (String × String)) : Except Failure CodecSetting :=
  if scheme.supported then
    match applyOptions ⟨scheme, (levels scheme).standard⟩ options with
    | .error e => .error (.invalidConfig e)
    | .ok s => .ok s
  else
    .error (.disabledCompression scheme)

/-- The text of a setting's level. -/
def configText (s : CodecSetting) : String :=
  "Config \x7b compression_level: " ++ toString s.level ++ " \x7d"

/-- The text of a setting with its compressor and decompressor. -/
def text (s : CodecSetting) : String :=
  "Zstd(Codec \x7b config: " ++ s.configText ++ ", comp: ZstdCompressor(" ++ toString s.level ++
    "), decomp: ZstdDecompressor \x7d)"

end CodecSetting

end DedupImage
