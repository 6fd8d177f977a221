import DedupImage.Failure

/-!
# Index segments

The index is made of segments. A segment holds at most one value per 32-bit key and may keep its
entries anywhere, so every operation on it can fail. `Segment` is that interface: an operation that
succeeds returns the segment as it is afterwards (a look-up may have moved entries between storage and
a cache), and one that fails returns nothing, because its caller throws the segment away.

`Segment` has no laws. What the index promises for segments that work is stated for those that answer
like a finite map; what it promises when they fail holds for any segments at all.

Segments that store bytes store records of one width: a tag byte, zero for an absent entry, and the
value. `RecordValue` is what such a value has to say about itself.
-/

namespace DedupImage

/-- A kind of segment `σ` for values `V`. -/
class Segment (σ : Type) (V : outParam Type) where
  get : σ → UInt32 → Except StorageFailure (Option V × σ)
  has : σ → UInt32 → Except StorageFailure (Bool × σ)
  put : σ → UInt32 → V → Except StorageFailure σ
  delete : σ → UInt32 → Except StorageFailure σ
  /-- The number of keys with a value. -/
  entries : σ → Nat

/-- A value with a fixed number of bytes. -/
class RecordValue (V : Type) where
  width : Nat
  /-- The bytes of a value, `width` of them. -/
  bytes : V → ByteArray
  /-- The value whose bytes start at a position. -/
  readAt : ByteArray → Nat → V

instance : RecordValue BlockNum where
  width := 4
  bytes b := numberBytes 4 b.number.toNat
  readAt b i := ⟨(numberAt b i 4).toUInt32⟩

instance : RecordValue Location where
  width := 8
  bytes l := pushNumber (numberBytes 4 l.container.toNat) 4 l.offset.toNat
  readAt b i := ⟨(numberAt b i 4).toUInt32, (numberAt b (i + 4) 4).toUInt32⟩

namespace Record

variable {V : Type} [RecordValue V]

/-- The bytes of one record. -/
def size (V : Type) [RecordValue V] : Nat := 1 + RecordValue.width V

/-- The bytes of a record that holds a value. -/
def present (v : V) : ByteArray :=
  ByteArray.empty.push 1 ++ RecordValue.bytes v

/-- The bytes of a record that holds none. -/
def absent (V : Type) [RecordValue V] : ByteArray := zeros (size V)

/-- The value of the record at a position. -/
def readAt (b : ByteArray) (i : Nat) : Option V :=
  if byteAt b i = 0 then none else some (RecordValue.readAt b (i + 1))

end Record

end DedupImage
