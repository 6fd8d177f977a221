import DedupImage.Layout.BlockWidth
import DedupImage.Proofs.Bytes

/-!
# Block lists there and back

A block list is a row of numbers of one width, so whatever the width is, its groups of bytes are the block
numbers less what does not fit (`numberAt_encode`, `decode_encode`), and a list comes back if and only if
all of its numbers fit (`decode_encode_eq_self_iff`).

The width for a number of blocks fits them all (`lt_capacity_forCount`), and it is the narrowest that does:
in a narrower one the first number that does not fit is stored as zero is (`capacity_lt_of_narrower`).
-/

namespace DedupImage.BlockWidth

variable {w v : BlockWidth} {blocks blocks' : List BlockNum}

/-- The number of block numbers that fit. -/
def capacity (w : BlockWidth) : Nat := 2 ^ (8 * w.bytes)

/-- What is left of a block number in this width. -/
def stored (w : BlockWidth) (b : BlockNum) : BlockNum :=
  ⟨(b.number.toNat % w.capacity).toUInt32⟩

theorem pow_bytes (w : BlockWidth) : 256 ^ w.bytes = w.capacity :=
  (Nat.pow_mul 2 8 w.bytes).symm

theorem stored_eq_self_iff (b : BlockNum) : w.stored b = b ↔ b.number.toNat < w.capacity := by
  have hword : (b.number.toNat % w.capacity).toUInt32.toNat = b.number.toNat % w.capacity :=
    toNat_toUInt32 (Nat.lt_of_le_of_lt (Nat.mod_le _ _) b.number.toNat_lt)
  have hnumber : w.stored b = b ↔ b.number.toNat % w.capacity = b.number.toNat := by
    rw [← hword, UInt32.toNat_inj]
    exact ⟨fun h => congrArg BlockNum.number h, fun h => congrArg BlockNum.mk h⟩
  have hpos : 0 < w.capacity := Nat.two_pow_pos _
  rw [hnumber, Nat.mod_eq_iff_lt (Nat.ne_of_gt hpos)]

/-! ## A row of numbers -/

theorem push_eq (w : BlockWidth) (out : ByteArray) (blocks : List BlockNum) :
    w.push out blocks = out ++ w.encode blocks := by
  induction blocks generalizing out with
  | nil => exact ByteArray.append_empty.symm
  | cons b rest ih =>
    rw [encode, push, push, ih, ih (pushNumber ByteArray.empty _ _), pushNumber_eq,
      pushNumber_eq ByteArray.empty, ByteArray.empty_append, ByteArray.append_assoc]

/-- The first number of a list stands first. -/
theorem encode_cons (w : BlockWidth) (b : BlockNum) (rest : List BlockNum) :
    w.encode (b :: rest) = numberBytes w.bytes b.number.toNat ++ w.encode rest := by
  rw [encode, push, push_eq]
  rfl

theorem size_encode (w : BlockWidth) (blocks : List BlockNum) :
    (w.encode blocks).size = blocks.length * w.bytes := by
  induction blocks with
  | nil => rw [List.length_nil, Nat.zero_mul]; rfl
  | cons b rest ih =>
    rw [encode_cons, ByteArray.size_append, size_numberBytes, ih, List.length_cons, Nat.succ_mul,
      Nat.add_comm]

/-- Every group of bytes is what is left of the block number there. -/
theorem numberAt_encode {i : Nat} {b : BlockNum} (h : blocks[i]? = some b) (before : ByteArray) :
    numberAt (before ++ w.encode blocks) (before.size + i * w.bytes) w.bytes =
      b.number.toNat % w.capacity := by
  induction blocks generalizing i before with
  | nil => cases h
  | cons first rest ih =>
    cases i with
    | zero =>
      obtain rfl := Option.some.inj h
      rw [Nat.zero_mul, Nat.add_zero, encode_cons, ← ByteArray.append_assoc, numberAt_middle, pow_bytes]
    | succ i =>
      have hnext := ih h (before ++ numberBytes w.bytes first.number.toNat)
      rw [ByteArray.size_append, size_numberBytes, ByteArray.append_assoc, ← encode_cons] at hnext
      rw [← hnext, Nat.succ_mul]
      congr 1
      omega

/-- What is read is what was left of the numbers, wherever the list stands. -/
theorem decode_encode (w : BlockWidth) (before : ByteArray) (blocks : List BlockNum) :
    w.decode (before ++ w.encode blocks) before.size blocks.length = blocks.map w.stored := by
  induction blocks generalizing before with
  | nil => rfl
  | cons b rest ih =>
    have hfirst : numberAt (before ++ w.encode (b :: rest)) before.size w.bytes =
        b.number.toNat % w.capacity := by
      rw [encode_cons, ← ByteArray.append_assoc, numberAt_middle, pow_bytes]
    have hrest := ih (before ++ numberBytes w.bytes b.number.toNat)
    rw [ByteArray.size_append, size_numberBytes, ByteArray.append_assoc, ← encode_cons] at hrest
    rw [List.length_cons, decode, hfirst, hrest]
    rfl

/-- **A list comes back if and only if all of its numbers fit.** -/
theorem decode_encode_eq_self_iff (w : BlockWidth) (blocks : List BlockNum) :
    w.decode (w.encode blocks) 0 blocks.length = blocks ↔
      ∀ b ∈ blocks, b.number.toNat < w.capacity := by
  have hback := decode_encode w ByteArray.empty blocks
  rw [ByteArray.empty_append, ByteArray.size_empty] at hback
  have hunchanged : blocks.map w.stored = blocks ↔ ∀ b ∈ blocks, w.stored b = id b := by
    rw [← List.map_inj_left, List.map_id]
  rw [hback, hunchanged]
  exact forall₂_congr fun b _ => stored_eq_self_iff b

/-- Lists of numbers that fit are known by their bytes. -/
theorem eq_of_encode_eq (h : ∀ b ∈ blocks, b.number.toNat < w.capacity)
    (h' : ∀ b ∈ blocks', b.number.toNat < w.capacity) (hbytes : w.encode blocks = w.encode blocks') :
    blocks = blocks' := by
  have hwidth : 0 < w.bytes := by
    cases w <;> exact Nat.succ_pos _
  have hlength : blocks.length = blocks'.length := by
    apply Nat.eq_of_mul_eq_mul_right hwidth
    rw [← size_encode, ← size_encode, hbytes]
  rw [← (decode_encode_eq_self_iff w blocks).mpr h, hbytes, hlength,
    (decode_encode_eq_self_iff w blocks').mpr h']

/-! ## The width for a number of blocks -/

/-- All blocks fit the width that is chosen for their number. -/
theorem lt_capacity_forCount {count : Nat} {b : BlockNum} (h : b.number.toNat < count) :
    b.number.toNat < (forCount count).capacity := by
  unfold forCount
  by_cases h16 : count ≤ UInt16.size
  · rw [if_pos h16]
    exact Nat.lt_of_lt_of_le h h16
  · rw [if_neg h16]
    by_cases h24 : count ≤ 0x1000000
    · rw [if_pos h24]
      exact Nat.lt_of_lt_of_le h h24
    · rw [if_neg h24]
      exact b.number.toNat_lt

/-- A narrower width does not fit all of them, but what it fits is a word. -/
theorem capacity_lt_of_narrower {count : Nat} (h : v.bytes < (forCount count).bytes) :
    v.capacity < count ∧ v.capacity < 2 ^ 32 := by
  unfold forCount at h
  by_cases h16 : count ≤ UInt16.size
  · rw [if_pos h16] at h
    cases v <;> simp [bytes] at h
  · rw [if_neg h16] at h
    by_cases h24 : count ≤ 0x1000000
    · rw [if_pos h24] at h
      cases v with
      | w16 => exact ⟨Nat.not_le.mp h16, by decide⟩
      | w24 => simp [bytes] at h
      | w32 => simp [bytes] at h
    · rw [if_neg h24] at h
      cases v with
      | w16 => exact ⟨Nat.not_le.mp h16, by decide⟩
      | w24 => exact ⟨Nat.not_le.mp h24, by decide⟩
      | w32 => simp [bytes] at h

/-- **In a narrower width two blocks look the same.** -/
theorem encode_eq_of_narrower {count : Nat} (h : v.bytes < (forCount count).bytes) :
    ∃ b b' : BlockNum, b.number.toNat < count ∧ b'.number.toNat < count ∧ b ≠ b' ∧
      v.encode [b] = v.encode [b'] ∧ v.decode (v.encode [b]) 0 1 ≠ [b] := by
  obtain ⟨hcount, hword⟩ := capacity_lt_of_narrower h
  have hpos : 0 < v.capacity := Nat.two_pow_pos _
  have hnumber : v.capacity.toUInt32.toNat = v.capacity := toNat_toUInt32 hword
  have hbytes : v.encode [⟨v.capacity.toUInt32⟩] = v.encode [⟨0⟩] := by
    have hzero : v.capacity % 256 ^ v.bytes = (0 : UInt32).toNat := by
      rw [pow_bytes, Nat.mod_self]
      rfl
    rw [encode_cons, encode_cons, hnumber, ← numberBytes_mod v.bytes v.capacity, hzero]
  refine ⟨⟨v.capacity.toUInt32⟩, ⟨0⟩, ?_, ?_, ?_, hbytes, ?_⟩
  · rwa [hnumber]
  · exact Nat.lt_trans hpos hcount
  · intro heq
    have hzero := congrArg (fun b : BlockNum => b.number.toNat) heq
    rw [hnumber] at hzero
    exact absurd hzero (Nat.ne_of_gt hpos)
  · intro hback
    have hfits := (decode_encode_eq_self_iff v [⟨v.capacity.toUInt32⟩]).mp hback _
      List.mem_cons_self
    rw [hnumber] at hfits
    exact Nat.lt_irrefl _ hfits

/-- **Block lists are stored without loss, in no more bytes than that takes.** -/
theorem block_lists_come_back (count : Nat) :
    -- at the width for the number of blocks
    (∀ blocks : List BlockNum, (∀ b ∈ blocks, b.number.toNat < count) →
      ((forCount count).encode blocks).size = blocks.length * (forCount count).bytes ∧
      (forCount count).decode ((forCount count).encode blocks) 0 blocks.length = blocks) ∧
    (∀ blocks blocks' : List BlockNum, (∀ b ∈ blocks, b.number.toNat < count) →
      (∀ b ∈ blocks', b.number.toNat < count) →
      (forCount count).encode blocks = (forCount count).encode blocks' → blocks = blocks') ∧
    -- no narrower width does for all lists, be it that they come back or that they differ
    (∀ v : BlockWidth, v.bytes < (forCount count).bytes →
      ∃ b b' : BlockNum, b.number.toNat < count ∧ b'.number.toNat < count ∧ b ≠ b' ∧
        v.encode [b] = v.encode [b'] ∧ v.decode (v.encode [b]) 0 1 ≠ [b]) ∧
    -- at any width
    (∀ (w : BlockWidth) (blocks : List BlockNum),
      (w.encode blocks).size = blocks.length * w.bytes ∧
      (∀ i b, blocks[i]? = some b →
        numberAt (w.encode blocks) (i * w.bytes) w.bytes = b.number.toNat % 2 ^ (8 * w.bytes)) ∧
      (w.decode (w.encode blocks) 0 blocks.length = blocks ↔
        ∀ b ∈ blocks, b.number.toNat < 2 ^ (8 * w.bytes))) := by
  refine ⟨?_, ?_, ?_, ?_⟩
  · intro blocks h
    refine ⟨size_encode _ blocks, (decode_encode_eq_self_iff _ blocks).mpr ?_⟩
    intro b hb
    exact lt_capacity_forCount (h b hb)
  · intro blocks blocks' h h' hbytes
    refine eq_of_encode_eq ?_ ?_ hbytes
    · intro b hb
      exact lt_capacity_forCount (h b hb)
    · intro b hb
      exact lt_capacity_forCount (h' b hb)
  · intro v h
    exact encode_eq_of_narrower h
  · intro w blocks
    refine ⟨size_encode w blocks, ?_, decode_encode_eq_self_iff w blocks⟩
    intro i b h
    have hgroup : _ = _ % w.capacity := numberAt_encode h ByteArray.empty
    rwa [ByteArray.empty_append, ByteArray.size_empty, Nat.zero_add] at hgroup

/-- One block more than there are words of 16 bits: the list comes back at the next width, and the width
below mistakes one block for another. -/
theorem block_lists_come_back_above_16_bits :
    (∀ b ∈ [(⟨0⟩ : BlockNum), ⟨0x10000⟩], b.number.toNat < 0x10001) ∧
    (forCount 0x10001).decode ((forCount 0x10001).encode [⟨0⟩, ⟨0x10000⟩]) 0 2 =
      [⟨0⟩, ⟨0x10000⟩] ∧
    ∃ b b' : BlockNum, b ≠ b' ∧ w16.encode [b] = w16.encode [b'] := by
  have hfit : ∀ b ∈ [(⟨0⟩ : BlockNum), ⟨0x10000⟩], b.number.toNat < 0x10001 := by decide
  obtain ⟨hback, -, hnarrower, -⟩ := block_lists_come_back 0x10001
  obtain ⟨b, b', -, -, hdifferent, hsame, -⟩ := hnarrower w16 (by decide)
  exact ⟨hfit, (hback _ hfit).2, b, b', hdifferent, hsame⟩

end DedupImage.BlockWidth
