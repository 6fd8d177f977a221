import DedupImage.Codec.Basic

/-!
# Bit strings in byte strings

A Deflate stream is a string of bits; each byte holds eight of them, the lowest first. A position in
it is a bit position in the byte string. Numbers are written into it lowest bit first (`numberBits`).

Reading past the last bit is the failure `unexpectedEof`, the end of the input.
-/

namespace DedupImage.Bits

/-- The number of bits in a byte string. -/
def total (src : ByteArray) : Nat := 8 * src.size

/-- The bit at a position, if there is one. -/
def bit? (src : ByteArray) (pos : Nat) : Option Bool :=
  if pos < total src then
    some ((byteAt src (pos / 8) >>> (pos % 8).toUInt8) &&& 1 == 1)
  else
    none

/-- Read a number of `n` bits, lowest first, and the position behind it. -/
def readNumber (src : ByteArray) (pos : Nat) : (n : Nat) → Except StorageFailure (Nat × Nat)
  | 0 => .ok (0, pos)
  | n + 1 =>
    match bit? src pos with
    | none => .error .unexpectedEof
    | some b =>
      match readNumber src (pos + 1) n with
      | .error e => .error e
      | .ok (v, stop) => .ok (b.toNat + 2 * v, stop)

/-- The `n` lowest bits of a number, lowest first. -/
def numberBits : (n : Nat) → Nat → List Bool
  | 0, _ => []
  | n + 1, v => (v % 2 == 1) :: numberBits n (v / 2)

/-- The number whose bits are these, lowest first. -/
def toNumber : List Bool → Nat
  | [] => 0
  | b :: rest => b.toNat + 2 * toNumber rest

/-- Add bits as bytes; the last byte is filled up with zero bits. -/
def pushBits (out : ByteArray) (bits : List Bool) : ByteArray :=
  if _h : bits = [] then
    out
  else
    pushBits (out.push (toNumber (bits.take 8)).toUInt8) (bits.drop 8)
termination_by bits.length
decreasing_by
  have : 0 < bits.length := List.length_pos_iff.2 _h
  simp only [List.length_drop]
  omega

/-- All bits of a byte string. -/
def ofBytes (b : ByteArray) : List Bool :=
  b.data.toList.flatMap fun byte => numberBits 8 byte.toNat

/-- The bits of a byte string from its end to its beginning. They begin behind the highest one bit of its
last byte. -/
def backward? (b : ByteArray) : Option (List Bool) :=
  match (ofBytes b).reverse.dropWhile (! ·) with
  | true :: bits => if 8 * b.size < bits.length + 9 then some bits else none
  | _ => none

/-- Take a number of `n` bits, highest first, that begins with the bits of `high`. -/
def take? : (n high : Nat) → List Bool → Option (Nat × List Bool)
  | 0, high, bits => some (high, bits)
  | _ + 1, _, [] => none
  | n + 1, high, b :: bits => take? n (2 * high + b.toNat) bits

/-- The first byte that starts at or after a bit position. -/
def byteAfter (pos : Nat) : Nat := (pos + 7) / 8

theorem bit?_eq_some {src : ByteArray} {pos : Nat} {b : Bool} (h : bit? src pos = some b) :
    pos < total src := by
  unfold bit? at h
  split at h
  · assumption
  · simp at h

theorem readNumber_end {src : ByteArray} {pos n v stop : Nat}
    (h : readNumber src pos n = .ok (v, stop)) : stop = pos + n := by
  induction n generalizing pos v stop with
  | zero =>
    simp only [readNumber, Except.ok.injEq, Prod.mk.injEq] at h
    omega
  | succ n ih =>
    simp only [readNumber] at h
    split at h
    · simp at h
    · split at h
      · simp at h
      · next hr =>
        simp only [Except.ok.injEq, Prod.mk.injEq] at h
        have := ih hr
        omega

theorem readNumber_le {src : ByteArray} {pos n v stop : Nat} (hn : 0 < n)
    (h : readNumber src pos n = .ok (v, stop)) : stop ≤ total src := by
  induction n generalizing pos v stop with
  | zero => omega
  | succ n ih =>
    simp only [readNumber] at h
    split at h
    · simp at h
    · next hb =>
      split at h
      · simp at h
      · next hr =>
        simp only [Except.ok.injEq, Prod.mk.injEq] at h
        obtain ⟨_, rfl⟩ := h
        rcases Nat.eq_zero_or_pos n with rfl | hpos
        · have := readNumber_end hr
          have := bit?_eq_some hb
          omega
        · exact ih hpos hr

end DedupImage.Bits
