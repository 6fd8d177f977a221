import DedupImage.Bytes

/-!
# Names in quotes

A name is a byte string, and mostly text. `quoted` writes it on one line between double quotes, so that
its end can be told: both kinds of quote and the backslash get a backslash, control characters are
written by name or code, and bytes that are not text by their two hexadecimal digits.
-/

namespace DedupImage

/-- A hexadecimal digit, in lower case. -/
def hexDigit (n : Nat) : Char :=
  (n % 16).digitChar

/-- A character inside quotes. Null, tab, line feed and carriage return have names; other control
characters are written by their code, those from the substitute character on in braces. -/
def quotedChar (c : Char) : String :=
  if c = '"' || c = '\'' || c = '\\' then
    String.ofList ['\\', c]
  else if c = '\x00' then "\\0"
  else if c = '\t' then "\\t"
  else if c = '\n' then "\\n"
  else if c = '\r' then "\\r"
  else if c.toNat < 0x1a || c = '\x7f' then
    String.ofList ['\\', 'x', hexDigit (c.toNat / 16), hexDigit c.toNat]
  else if c.toNat < 0x20 then
    String.ofList ['\\', 'u', '\x7b', hexDigit (c.toNat / 16), hexDigit c.toNat, '\x7d']
  else
    c.toString

/-- A byte of a string that is not text. -/
def quotedByte (b : UInt8) : String :=
  if b < 0x80 then
    quotedChar (Char.ofNat b.toNat)
  else
    String.ofList ['\\', 'x', (hexDigit (b.toNat / 16)).toUpper, (hexDigit b.toNat).toUpper]

/-- A name in quotes. -/
def quoted (name : ByteArray) : String :=
  let inner :=
    match String.fromUTF8? name with
    | some text => text.toList.map quotedChar
    | none => name.data.toList.map quotedByte
  "\"" ++ String.join inner ++ "\""

end DedupImage
