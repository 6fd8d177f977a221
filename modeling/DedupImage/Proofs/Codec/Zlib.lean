import DedupImage.Codec.Zlib
import DedupImage.Proofs.Codec.DeflateBlocks
import DedupImage.Proofs.Codec.LongerInput

/-!
# Zlib streams come back

What `pack` writes, `unpack` reads (`Zlib.unpack_pack`), because its Deflate stream comes back and the checksum
fits four bytes. A stream is read the same with more room and with anything behind it (`Zlib.read_append`). It is
longer than its text by at most five bytes for every 16 KiB that are begun and six more (`Zlib.size_pack_le`).
-/

namespace DedupImage.Zlib

variable {src packed out tail body : ByteArray} {room room' n : Nat}

/-! ## The checksum -/

theorem adlerFrom_lt (b : ByteArray) (pos n : Nat) {low high : Nat} (hlow : low < modulus)
    (hhigh : high < modulus) :
    (adlerFrom b pos low high n).1 < modulus ∧ (adlerFrom b pos low high n).2 < modulus := by
  have hmodulus : 0 < modulus := by decide
  induction n generalizing pos low high with
  | zero => exact ⟨hlow, hhigh⟩
  | succ n ih => exact ih _ (Nat.mod_lt _ hmodulus) (Nat.mod_lt _ hmodulus)

/-- The checksum takes no more than four bytes. -/
theorem adler_lt (b : ByteArray) : adler b < 2 ^ 32 := by
  have hone : 1 < modulus := by decide
  have hzero : 0 < modulus := by decide
  obtain ⟨hlow, hhigh⟩ := adlerFrom_lt b 0 b.size hone hzero
  unfold modulus at hlow hhigh
  unfold adler
  dsimp only
  omega

@[simp] theorem size_pushBig (out : ByteArray) (n : Nat) : (pushBig out n).size = out.size + 4 := by
  simp [pushBig]

/-- A number that was added, most significant byte first, is read there. -/
theorem bigAt_pushBig (out tail : ByteArray) (hn : n < 2 ^ 32) :
    bigAt (pushBig out n ++ tail) out.size = n := by
  have hbyte : ∀ i < 4, byteAt (pushBig out n ++ tail) (out.size + i) =
      byteAt (pushBig out n) (out.size + i) := by
    intro i hi
    exact byteAt_append_left (by rw [size_pushBig]; omega)
  have hfirst := hbyte 0 (by decide)
  rw [Nat.add_zero] at hfirst
  unfold bigAt
  rw [hfirst, hbyte 1 (by decide), hbyte 2 (by decide), hbyte 3 (by decide)]
  simp [pushBig, byteAt_push, Nat.add_assoc]
  omega

theorem bigAt_append_left {a b : ByteArray} {i : Nat} (h : i + 4 ≤ a.size) :
    bigAt (a ++ b) i = bigAt a i := by
  unfold bigAt
  rw [byteAt_append_left (by omega), byteAt_append_left (by omega), byteAt_append_left (by omega),
    byteAt_append_left (by omega)]

/-- A number is added as its bytes. -/
theorem pushBig_eq (out : ByteArray) (n : Nat) : pushBig out n = out ++ pushBig ByteArray.empty n := by
  ext1
  apply Array.toList_inj.mp
  simp [pushBig]

/-! ## Frames -/

/-- The two bytes that a frame begins with. -/
def header (level : Nat) : ByteArray := (ByteArray.empty.push 0x78).push (flags level)

@[simp] theorem size_header (level : Nat) : (header level).size = 2 := rfl

theorem frame_eq (level : Nat) (src body : ByteArray) :
    frame level src body = pushBig (header level ++ body) (adler src) := rfl

theorem size_frame (level : Nat) (src body : ByteArray) : (frame level src body).size = body.size + 6 := by
  rw [frame_eq, size_pushBig, ByteArray.size_append, size_header]
  omega

theorem byteAt_frame {i : Nat} (hi : i < 2) (level : Nat) (src body : ByteArray) :
    byteAt (frame level src body) i = byteAt (header level) i := by
  rw [frame_eq, pushBig_eq, byteAt_append_left (by rw [ByteArray.size_append, size_header]; omega),
    byteAt_append_left hi]

/-- The header checks, whatever it says about the level. -/
theorem validHeader_header (level : Nat) :
    validHeader (byteAt (header level) 0).toNat (byteAt (header level) 1).toNat = true := by
  show validHeader 0x78 (flags level).toNat = true
  unfold flags
  split
  · rfl
  split
  · rfl
  split <;> rfl

/-- A frame is read if its body is. -/
theorem read_frame {level stop : Nat} (h : Inflate.stream (frame level src body) room 16 = .ok (src, stop))
    (hstop : Bits.byteAfter stop = 2 + body.size) :
    read (frame level src body) room = .ok (src, (frame level src body).size) := by
  have hsize := size_frame level src body
  have hsum : bigAt (frame level src body) (2 + body.size) = adler src := by
    have hread := bigAt_pushBig (header level ++ body) ByteArray.empty (adler_lt src)
    rwa [ByteArray.append_empty, ByteArray.size_append, size_header] at hread
  unfold read
  rw [if_neg (by omega), byteAt_frame (by decide), byteAt_frame (by decide), if_pos (validHeader_header level), h]
  simp only [hstop]
  rw [if_pos (by omega), if_pos hsum, hsize]
  congr 2
  omega

/-- A zlib stream is read the same in a longer input, and with more room. -/
theorem read_append {stop : Nat} (h : read packed room = .ok (out, stop)) (hroom : room ≤ room')
    (tail : ByteArray) :
    read (packed ++ tail) room' = .ok (out, stop) := by
  unfold read at h ⊢
  split at h
  · cases h
  next hshort =>
  rw [if_neg (by rw [ByteArray.size_append]; omega), byteAt_append_left (by omega),
    byteAt_append_left (by omega)]
  split at h
  next hheader =>
    rw [if_pos hheader]
    split at h
    · cases h
    next hstream =>
    simp only [Inflate.stream_append hstream hroom tail]
    dsimp only at h
    split at h
    next hsum =>
      rw [if_pos (by rw [ByteArray.size_append]; omega), bigAt_append_left hsum]
      exact h
    · cases h
  · cases h

/-- The stream ends inside the input, and room is never exceeded. -/
theorem read_bounds {stop : Nat} (h : read packed room = .ok (out, stop)) :
    stop ≤ packed.size ∧ out.size ≤ room := by
  unfold read at h
  split at h
  · cases h
  split at h
  · split at h
    · cases h
    next hstream =>
    dsimp only at h
    split at h
    next hinside =>
      split at h
      · obtain ⟨rfl, rfl⟩ := Prod.mk.inj (Except.ok.inj h)
        exact ⟨hinside, Inflate.stream_size_le hstream⟩
      · cases h
    · cases h
  · cases h

theorem unpack_eq_ok (h : unpack packed room = .ok out) : ∃ stop, read packed room = .ok (out, stop) := by
  unfold unpack at h
  cases hread : read packed room with
  | error e =>
    rw [hread] at h
    cases h
  | ok result =>
    rw [hread] at h
    obtain rfl := Except.ok.inj h
    exact ⟨result.2, rfl⟩

/-! ## Round trips -/

/-- **A packed string comes back.** -/
theorem unpack_pack (level : Nat) (src : ByteArray) : unpack (pack level src) src.size = .ok src := by
  obtain ⟨stop, hlow, hhigh, hstream⟩ := Inflate.stream_deflate level src (header level)
    (pushBig ByteArray.empty (adler src)) (Nat.le_refl src.size)
  rw [← pushBig_eq, ← frame_eq, size_header] at hstream
  rw [size_header] at hlow hhigh
  have hend : Bits.byteAfter stop = 2 + (Deflate.stream level src).size := by
    unfold Bits.byteAfter
    omega
  have hread := read_frame hstream hend
  rw [unpack, pack, hread]
  rfl

/-- **A packed string takes little more than the string**: five bytes for every 16 KiB that are begun, and six. -/
theorem size_pack_le (level : Nat) (src : ByteArray) :
    (pack level src).size ≤ src.size + 5 * (src.size / 16384 + 1) + 6 := by
  have hstream := Deflate.size_stream_le level src
  rw [pack, size_frame]
  omega

end DedupImage.Zlib
