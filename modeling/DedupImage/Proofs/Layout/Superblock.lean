import DedupImage.Layout.Superblock
import DedupImage.Proofs.Bytes

/-!
# The superblock as bytes

What was written as a superblock is read as the same superblock (`Superblock.read_bytes`), and a flag
word that was made from flags has them and no others (`ImageFlags.ofBits?_bits`).

A superblock is a row of numbers, so the first is one fact about rows (`numberAt_pushFields`) at each of
its fields.
-/

namespace DedupImage

theorem ImageFlags.ofBits?_bits (f : ImageFlags) : ofBits? f.bits = some f := by
  obtain ⟨packed, sparse⟩ := f
  cases packed <;> cases sparse <;> rfl

namespace Superblock

/-- The numbers of a superblock with their widths. -/
def fields (s : Superblock) : List (Nat × Nat) :=
  [(4, s.magic.toNat), (2, s.versionMajor.toNat), (2, s.versionMinor.toNat), (4, s.flags.toNat),
    (2, s.compressionId.toNat), (2, 0), (4, s.blockSize.toNat), (4, s.containerSize.toNat),
    (4, s.blockCount.toNat), (4, s.containerCount.toNat), (4, s.modificationTime.toNat), (4, 0),
    (8, s.containerTableStart.toNat), (8, s.blockTableStart.toNat), (8, s.blockTableSize.toNat),
    (8, s.bytesUsed.toNat)]

theorem bytes_eq (s : Superblock) : s.bytes = pushFields ByteArray.empty s.fields := rfl

theorem size_bytes (s : Superblock) : s.bytes.size = size := by
  simp [bytes, size]

/-- What is written as a superblock is read as it. -/
theorem read_bytes (s : Superblock) : read s.bytes = s := by
  have field (i start width : Nat) {n : Nat} (hstart : fieldStart s.fields i = start)
      (h : s.fields[i]? = some (width, n)) : numberAt s.bytes start width = n % 256 ^ width := by
    have := numberAt_pushFields h ByteArray.empty
    rwa [← bytes_eq, ByteArray.size_empty, Nat.zero_add, hstart] at this
  have hmagic := field 0 0 4 (by simp [fields, fieldStart]) rfl
  have hmajor := field 1 4 2 (by simp [fields, fieldStart]) rfl
  have hminor := field 2 6 2 (by simp [fields, fieldStart]) rfl
  have hflags := field 3 8 4 (by simp [fields, fieldStart]) rfl
  have hcompression := field 4 12 2 (by simp [fields, fieldStart]) rfl
  have hblock := field 6 16 4 (by simp [fields, fieldStart]) rfl
  have hcontainer := field 7 20 4 (by simp [fields, fieldStart]) rfl
  have hblocks := field 8 24 4 (by simp [fields, fieldStart]) rfl
  have hcontainers := field 9 28 4 (by simp [fields, fieldStart]) rfl
  have htime := field 10 32 4 (by simp [fields, fieldStart]) rfl
  have hfirst := field 12 40 8 (by simp [fields, fieldStart]) rfl
  have htable := field 13 48 8 (by simp [fields, fieldStart]) rfl
  have htableSize := field 14 56 8 (by simp [fields, fieldStart]) rfl
  have hused := field 15 64 8 (by simp [fields, fieldStart]) rfl
  unfold read
  rw [hmagic, hmajor, hminor, hflags, hcompression, hblock, hcontainer, hblocks, hcontainers, htime,
    hfirst, htable, htableSize, hused]
  simp only [toUInt16_mod, toUInt32_mod, toUInt64_mod]

end Superblock

end DedupImage
