import DedupImage.Bytes

/-!
# Digests

Two digests of a byte string, both of the xxHash family with seed zero. `fingerprint` (32 bits) is
the key of the block index; `identity` (64 bits) groups equal blocks over a whole batch. Neither is
ever trusted: equal digests only suggest equal bytes, and every user of them compares the bytes.

The family reads the string in lanes: four accumulators each take one word of every stripe, are
merged, and then take what is left over in ever smaller steps. Arithmetic is modulo the word size.
-/

namespace DedupImage.Digest

/-- The 32-bit word at a position, least significant byte first. -/
def word32 (b : ByteArray) (i : Nat) : UInt32 :=
  (byteAt b i).toUInt32 ||| (byteAt b (i + 1)).toUInt32 <<< 8 |||
    (byteAt b (i + 2)).toUInt32 <<< 16 ||| (byteAt b (i + 3)).toUInt32 <<< 24

/-- The 64-bit word at a position, least significant byte first. -/
def word64 (b : ByteArray) (i : Nat) : UInt64 :=
  (word32 b i).toUInt64 ||| (word32 b (i + 4)).toUInt64 <<< 32

/-- Rotate left by `n` places, `0 < n < 32`. -/
def rotate32 (x : UInt32) (n : UInt32) : UInt32 :=
  x <<< n ||| x >>> (32 - n)

/-- Rotate left by `n` places, `0 < n < 64`. -/
def rotate64 (x : UInt64) (n : UInt64) : UInt64 :=
  x <<< n ||| x >>> (64 - n)

/-- Four lanes of a digest. -/
structure Lanes (α : Type) where
  a : α
  b : α
  c : α
  d : α

namespace Short

def prime1 : UInt32 := 0x9E3779B1
def prime2 : UInt32 := 0x85EBCA77
def prime3 : UInt32 := 0xC2B2AE3D
def prime4 : UInt32 := 0x27D4EB2F
def prime5 : UInt32 := 0x165667B1

/-- One lane takes one word. -/
def round (acc word : UInt32) : UInt32 :=
  rotate32 (acc + word * prime2) 13 * prime1

/-- The lanes take `n` stripes of 16 bytes, the first at `pos`. -/
def stripes (data : ByteArray) (pos : Nat) (v : Lanes UInt32) : Nat → Lanes UInt32
  | 0 => v
  | n + 1 =>
    stripes data (pos + 16)
      { a := round v.a (word32 data pos)
        b := round v.b (word32 data (pos + 4))
        c := round v.c (word32 data (pos + 8))
        d := round v.d (word32 data (pos + 12)) } n

/-- What the whole stripes of the string contribute. -/
def body (data : ByteArray) : UInt32 :=
  if data.size < 16 then
    prime5
  else
    let v := stripes data 0 ⟨prime1 + prime2, prime2, 0, 0 - prime1⟩ (data.size / 16)
    rotate32 v.a 1 + rotate32 v.b 7 + rotate32 v.c 12 + rotate32 v.d 18

/-- Take `n` words of 4 bytes. -/
def words (data : ByteArray) (pos : Nat) (h : UInt32) : Nat → UInt32
  | 0 => h
  | n + 1 => words data (pos + 4) (rotate32 (h + word32 data pos * prime3) 17 * prime4) n

/-- Take `n` single bytes. -/
def bytes (data : ByteArray) (pos : Nat) (h : UInt32) : Nat → UInt32
  | 0 => h
  | n + 1 => bytes data (pos + 1) (rotate32 (h + (byteAt data pos).toUInt32 * prime5) 11 * prime1) n

/-- Spread every bit over the whole word. -/
def finish (h : UInt32) : UInt32 :=
  let h := (h ^^^ h >>> 15) * prime2
  let h := (h ^^^ h >>> 13) * prime3
  h ^^^ h >>> 16

end Short

/-- The 32-bit digest, the key of a block in the index. -/
def fingerprint (data : ByteArray) : UInt32 :=
  let whole := data.size / 16 * 16
  let rest := data.size % 16
  let h := Short.body data + data.size.toUInt32
  let h := Short.words data whole h (rest / 4)
  let h := Short.bytes data (whole + rest / 4 * 4) h (rest % 4)
  Short.finish h

namespace Long

def prime1 : UInt64 := 0x9E3779B185EBCA87
def prime2 : UInt64 := 0xC2B2AE3D27D4EB4F
def prime3 : UInt64 := 0x165667B19E3779F9
def prime4 : UInt64 := 0x85EBCA77C2B2AE63
def prime5 : UInt64 := 0x27D4EB2F165667C5

/-- One lane takes one word. -/
def round (acc word : UInt64) : UInt64 :=
  rotate64 (acc + word * prime2) 31 * prime1

/-- A finished lane joins the digest. -/
def merge (acc lane : UInt64) : UInt64 :=
  (acc ^^^ round 0 lane) * prime1 + prime4

/-- The lanes take `n` stripes of 32 bytes, the first at `pos`. -/
def stripes (data : ByteArray) (pos : Nat) (v : Lanes UInt64) : Nat → Lanes UInt64
  | 0 => v
  | n + 1 =>
    stripes data (pos + 32)
      { a := round v.a (word64 data pos)
        b := round v.b (word64 data (pos + 8))
        c := round v.c (word64 data (pos + 16))
        d := round v.d (word64 data (pos + 24)) } n

/-- What the whole stripes of the string contribute. -/
def body (data : ByteArray) : UInt64 :=
  if data.size < 32 then
    prime5
  else
    let v := stripes data 0 ⟨prime1 + prime2, prime2, 0, 0 - prime1⟩ (data.size / 32)
    let h := rotate64 v.a 1 + rotate64 v.b 7 + rotate64 v.c 12 + rotate64 v.d 18
    merge (merge (merge (merge h v.a) v.b) v.c) v.d

/-- Take `n` words of 8 bytes. -/
def words (data : ByteArray) (pos : Nat) (h : UInt64) : Nat → UInt64
  | 0 => h
  | n + 1 => words data (pos + 8) (rotate64 (h ^^^ round 0 (word64 data pos)) 27 * prime1 + prime4) n

/-- Take at most one word of 4 bytes. -/
def halfWord (data : ByteArray) (pos : Nat) (h : UInt64) : Nat → UInt64
  | 0 => h
  | _ + 1 => rotate64 (h ^^^ (word32 data pos).toUInt64 * prime1) 23 * prime2 + prime3

/-- Take `n` single bytes. -/
def bytes (data : ByteArray) (pos : Nat) (h : UInt64) : Nat → UInt64
  | 0 => h
  | n + 1 => bytes data (pos + 1) (rotate64 (h ^^^ (byteAt data pos).toUInt64 * prime5) 11 * prime1) n

/-- Spread every bit over the whole word. -/
def finish (h : UInt64) : UInt64 :=
  let h := (h ^^^ h >>> 33) * prime2
  let h := (h ^^^ h >>> 29) * prime3
  h ^^^ h >>> 32

end Long

/-- The 64-bit digest, the identity of a block within a batch. -/
def identity (data : ByteArray) : UInt64 :=
  let whole := data.size / 32 * 32
  let rest := data.size % 32
  let h := Long.body data + data.size.toUInt64
  let h := Long.words data whole h (rest / 8)
  let pos := whole + rest / 8 * 8
  let h := Long.halfWord data pos h (rest % 8 / 4)
  let h := Long.bytes data (pos + rest % 8 / 4 * 4) h (rest % 4)
  Long.finish h

end DedupImage.Digest
