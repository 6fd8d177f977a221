import DedupImage.Proofs.Codec.ZstdBlocks

/-!
# Zstandard frames come back

What `pack` writes, `unpack` reads if there is room (`Zstd.unpack_pack`). The frame is never longer than the
bound (`Zstd.size_pack_le`).

The reader stands at the end of what was written before a block or a frame header, and reads it from there:
every law here has the string `out` in front and a `tail` behind. The size that a header announces has one
value too few: the greatest number of eight bytes announces nothing.
-/

namespace DedupImage.Zstd

variable {src out tail : ByteArray} {room room' pos n : Nat}

/-! ## Headers -/

theorem contentsWidth_oneSegment (code : Nat) : contentsWidth code true = 1 <<< code := by
  unfold contentsWidth
  split
  next hcode =>
    rw [hcode]
    rfl
  · rfl

/-- A header of one segment, whose size is announced in a width of this code. -/
theorem header?_field (out : ByteArray) (code : Nat) {v : Nat} (hcode : code < 4)
    (hv : v < 256 ^ (1 <<< code)) (htail : 3 ≤ tail.size) :
    header? (pushNumber (out.push (32 + 64 * code).toUInt8) (1 <<< code) v ++ tail) out.size =
      some
        { contents :=
            if 1 <<< code = 0 ∨ v = unannounced then none
            else if 1 <<< code = 2 then some (v + 256)
            else some v
          checksum := false
          stop := out.size + 1 + 1 <<< code } := by
  have hwidth : 0 < 1 <<< code := by
    rw [Nat.one_shiftLeft]
    exact Nat.two_pow_pos code
  have hdescriptor : (byteAt (pushNumber (out.push (32 + 64 * code).toUInt8) (1 <<< code) v ++ tail)
      out.size).toNat = 32 + 64 * code := by
    rw [byteAt_append_left (by rw [size_pushNumber, ByteArray.size_push]; omega),
      byteAt_pushNumber_of_lt (by rw [ByteArray.size_push]; omega), byteAt_push, if_pos rfl]
    exact UInt8.toNat_ofNat_of_lt' (by change 32 + 64 * code < 256; omega)
  have hread : numberAt (pushNumber (out.push (32 + 64 * code).toUInt8) (1 <<< code) v ++ tail)
      (out.size + 1) (1 <<< code) = v := by
    have := numberAt_numberBytes (out.push (32 + 64 * code).toUInt8) tail hv
    rwa [ByteArray.size_push, ← pushNumber_eq] at this
  have hsegment : ((32 + 64 * code) / 32 % 2 == 1) = true := by
    rw [beq_iff_eq]
    omega
  have hdictionary : dictionaryWidth ((32 + 64 * code) % 4) = 0 := by
    rw [show (32 + 64 * code) % 4 = 0 by omega]
    rfl
  have hcontents : (32 + 64 * code) / 64 = code := by omega
  have hchecksum : ((32 + 64 * code) / 4 % 2 == 1) = false := by
    rw [beq_eq_false_iff_ne]
    omega
  unfold header?
  rw [hdescriptor]
  dsimp only
  rw [hsegment, hdictionary, hcontents, contentsWidth_oneSegment, hchecksum, if_pos rfl, Nat.add_zero,
    Nat.add_zero, hread, ByteArray.size_append, size_pushNumber, ByteArray.size_push, if_neg (by omega),
    if_neg (by omega), if_neg (by simp), if_neg (by simp [numberAt])]

/-- The header of a frame is read; the greatest size is not announced. -/
theorem header?_pushHeader (out : ByteArray) (hn : n < UInt64.size) (htail : 3 ≤ tail.size) :
    header? (pushHeader out n ++ tail) out.size =
      some
        { contents := if n = unannounced then none else some n
          checksum := false
          stop := (pushHeader out n).size } := by
  have hgreatest : unannounced = 18446744073709551615 := rfl
  unfold pushHeader
  split
  next hone =>
    refine (header?_field out 0 (by decide) hone htail).trans ?_
    simp
  next hone =>
  split
  next htwo =>
    have hfits : n - 256 < 256 ^ (1 <<< 1) := by
      change n - 256 < 65536
      omega
    refine (header?_field out 1 (by decide) hfits htail).trans ?_
    -- sizes of two bytes are counted from 256
    have hback : n - 256 + 256 = n := by omega
    have hless : n - 256 ≠ unannounced := by omega
    have hannounced : n ≠ unannounced := by omega
    simp [hback, hless, hannounced]
  next htwo =>
  split
  next hfour =>
    refine (header?_field out 2 (by decide) hfour htail).trans ?_
    simp
  next hfour =>
    refine (header?_field out 3 (by decide) hn htail).trans ?_
    simp

/-! ## Frames -/

/-- The number of four bytes and the header before the blocks. -/
def announcement (n : Nat) : ByteArray := pushHeader (pushNumber ByteArray.empty 4 magic) n

/-- The blocks of a string, as tokens. -/
def tokenBlocks (level : Nat) (src : ByteArray) : List (List Token) :=
  cutFrom 0 [] (Repetition.tokens (min level 9) src)

theorem pack_eq (level : Nat) (src : ByteArray) :
    pack level src = announcement src.size ++ pushBlocks src 0 ByteArray.empty (tokenBlocks level src) := by
  rw [← pushBlocks_append, ByteArray.append_empty]
  rfl

/-- What is known of the blocks of a string: there is one at least, they spell the string, none is too long, and
all but the last are nearly as long as they may be. -/
theorem tokenBlocks_spec (level : Nat) (src : ByteArray) :
    tokenBlocks level src ≠ [] ∧ Token.Spelled src 0 (tokenBlocks level src).flatten src.size ∧
      (∀ ts ∈ tokenBlocks level src, (ts.map Token.size).sum ≤ longestBlock) ∧
      ∀ ts ∈ (tokenBlocks level src).dropLast, longestBlock < (ts.map Token.size).sum + 258 := by
  have hspelled := Repetition.spelled_tokens (min level 9) src
  refine ⟨cutFrom_ne_nil _ _ _, ?_, sum_le_of_mem_cutFrom rfl (Nat.zero_le _) hspelled.valid,
    many_of_mem_cutFrom rfl hspelled.valid⟩
  rw [tokenBlocks, flatten_cutFrom]
  exact hspelled

/-- A string that is longer than a block may be takes several. -/
theorem one_lt_length_tokenBlocks (level : Nat) (h : longestBlock < src.size) :
    1 < (tokenBlocks level src).length := by
  obtain ⟨hsome, hspelled, hshort, -⟩ := tokenBlocks_spec level src
  by_contra hone
  obtain ⟨ts, hts⟩ : ∃ ts, tokenBlocks level src = [ts] := by
    have hpos := List.length_pos_iff.mpr hsome
    exact List.length_eq_one_iff.mp (by omega)
  rw [hts] at hspelled hshort
  have hstop := hspelled.stop_eq
  have hlength := hshort ts List.mem_cons_self
  rw [List.flatten_singleton] at hstop
  omega

/-- A header adds at most nine bytes. -/
theorem exists_pushHeader_eq (out : ByteArray) (n : Nat) :
    ∃ field : ByteArray, field.size ≤ 9 ∧ pushHeader out n = out ++ field := by
  have hfield : ∀ (descriptor : UInt8) (width v : Nat), width ≤ 8 → ∃ field : ByteArray,
      field.size ≤ 9 ∧ pushNumber (out.push descriptor) width v = out ++ field := by
    intro descriptor width v hwidth
    refine ⟨ByteArray.empty.push descriptor ++ numberBytes width v, ?_, ?_⟩
    · simp
      omega
    · rw [pushNumber_eq, push_eq_append, ByteArray.append_assoc]
  unfold pushHeader
  split
  · exact hfield _ _ _ (by decide)
  split
  · exact hfield _ _ _ (by decide)
  split
  · exact hfield _ _ _ (by decide)
  · exact hfield _ _ _ (by decide)

/-- **A packed string takes little more than the string**: at most 13 bytes, and three for every block. -/
theorem size_pack_le (level : Nat) (src : ByteArray) :
    (pack level src).size ≤ src.size + 3 * (src.size / 130000 + 1) + 13 := by
  obtain ⟨field, hfield, hheader⟩ := exists_pushHeader_eq (pushNumber ByteArray.empty 4 magic) src.size
  obtain ⟨hsome, hspelled, hshort, hmany⟩ := tokenBlocks_spec level src
  have hblocks := size_pushBlocks_le hsome hshort hmany hspelled ByteArray.empty
  rw [Nat.sub_zero, ByteArray.size_empty] at hblocks
  rw [pack_eq, announcement, hheader, ByteArray.size_append, ByteArray.size_append, size_pushNumber,
    ByteArray.size_empty]
  omega

theorem numberAt_announcement (n : Nat) (tail : ByteArray) :
    numberAt (announcement n ++ tail) 0 4 = magic := by
  obtain ⟨field, -, hheader⟩ := exists_pushHeader_eq (pushNumber ByteArray.empty 4 magic) n
  rw [announcement, hheader, ByteArray.append_assoc, numberAt_append_left (by simp)]
  exact numberAt_pushNumber ByteArray.empty 4 magic

/-- Every frame has a block, whose header takes three bytes. -/
theorem three_le_size_pushBlocks (level : Nat) (src : ByteArray) :
    3 ≤ (pushBlocks src 0 ByteArray.empty (tokenBlocks level src)).size := by
  have hgrows : ∀ (tss : List (List Token)) (pos : Nat) (out : ByteArray),
      out.size ≤ (pushBlocks src pos out tss).size := by
    intro tss
    induction tss with
    | nil => exact fun _ _ => Nat.le_refl _
    | cons ts rest ih =>
      intro pos out
      have := size_pushBlock src out rest.isEmpty (blockOf src pos (ts.map Token.size).sum ts)
      rw [pushBlocks_cons]
      exact Nat.le_trans (by omega) (ih _ _)
  obtain ⟨ts, rest, hblocks⟩ := List.exists_cons_of_ne_nil (tokenBlocks_spec level src).1
  have hfirst := size_pushBlock src ByteArray.empty rest.isEmpty (blockOf src 0 (ts.map Token.size).sum ts)
  rw [hblocks, pushBlocks_cons]
  exact Nat.le_trans (by omega) (hgrows rest _ _)

/-- The frame of a string is read. -/
theorem unpackFrame_pack (level : Nat) (hsize : src.size < UInt64.size) (hroom : src.size ≤ room) :
    unpackFrame (pack level src) room 4 = some (src, (pack level src).size) := by
  obtain ⟨hsome, hspelled, hshort, -⟩ := tokenBlocks_spec level src
  have hheader := header?_pushHeader (pushNumber ByteArray.empty 4 magic) hsize
    (three_le_size_pushBlocks level src)
  have hblocks := unpackBlocks_pushBlocks hsome hshort hspelled hroom (announcement src.size) ByteArray.empty {}
  rw [← announcement, ← pack_eq, size_pushNumber, ByteArray.size_empty, Nat.zero_add] at hheader
  rw [ByteArray.append_empty, slice_zero] at hblocks
  change unpackBlocks (pack level src) room (announcement src.size).size {} ByteArray.empty =
    some (src, (pack level src).size) at hblocks
  -- the size that is announced, if there is one, is that of the contents
  have hagrees : (if src.size = unannounced then none else some src.size).any (· != src.size) = false := by
    split <;> simp
  unfold unpackFrame
  simp only [hheader, hblocks, hagrees]
  rfl

/-- **A packed string comes back** if there is room for it. -/
theorem unpack_pack (level : Nat) (hsize : src.size < UInt64.size) (hroom : src.size ≤ room) :
    unpack (pack level src) room = .ok src := by
  have hframe := unpackFrame_pack level hsize hroom
  have hmagic : numberAt (pack level src) 0 4 = magic := by
    rw [pack_eq, numberAt_announcement]
  have hlong : 5 ≤ (pack level src).size := by
    obtain ⟨field, -, hheader⟩ := exists_pushHeader_eq (pushNumber ByteArray.empty 4 magic) src.size
    have hblocks := three_le_size_pushBlocks level src
    rw [pack_eq, announcement, hheader, ByteArray.size_append, ByteArray.size_append, size_pushNumber]
    omega
  obtain ⟨m, hm⟩ : ∃ m, (pack level src).size = m + 1 := ⟨(pack level src).size - 1, by omega⟩
  unfold unpack
  rw [hm, unpackFrames, if_neg (by omega), if_neg (by omega), hmagic, if_neg (by decide), if_pos rfl]
  rw [ByteArray.size_empty, Nat.sub_zero, Nat.zero_add, hframe]
  dsimp only
  rw [unpackFrames, if_pos (Nat.le_refl _), ByteArray.empty_append]

/-! ## Room -/

section

variable {packed : ByteArray}

/-- Blocks that find room find more room too. -/
theorem unpackBlocks_of_le {memory : Memory} {result : ByteArray × Nat}
    (h : unpackBlocks packed room pos memory out = some result) (hroom : room ≤ room') :
    unpackBlocks packed room' pos memory out = some result := by
  fun_induction unpackBlocks packed room pos memory out with
  | case1 | case2 | case3 => cases h
  | case4 pos memory out hheader head kind out' memory' hblock stop hfits hlast =>
    rw [unpackBlocks, if_neg hheader]
    simp only [head, kind] at hblock hlast
    simp only [hblock]
    rw [if_neg (by omega), if_pos hlast]
    exact h
  | case5 pos memory out hheader head kind out' memory' hblock stop hfits hlast ih =>
    rw [unpackBlocks, if_neg hheader]
    simp only [head, kind] at hblock hlast
    simp only [hblock]
    rw [if_neg (by omega), if_neg hlast]
    exact ih h

/-- Blocks never exceed the room. -/
theorem unpackBlocks_size_le {memory : Memory} {result : ByteArray × Nat}
    (h : unpackBlocks packed room pos memory out = some result) : result.1.size ≤ room := by
  fun_induction unpackBlocks packed room pos memory out with
  | case1 | case2 | case3 => cases h
  | case4 pos memory out hheader head kind out' memory' hblock stop hfits hlast =>
    obtain rfl := Option.some.inj h
    exact Nat.not_lt.mp hfits
  | case5 pos memory out hheader head kind out' memory' hblock stop hfits hlast ih => exact ih h

/-- What a frame's reader gets from its blocks. -/
theorem unpackBlocks_of_unpackFrame {result : ByteArray × Nat}
    (h : unpackFrame packed room pos = some result) :
    ∃ header stop, header? packed pos = some header ∧
      unpackBlocks packed room header.stop {} ByteArray.empty = some (result.1, stop) := by
  unfold unpackFrame at h
  split at h
  · cases h
  next header hheader =>
  split at h
  · cases h
  next bytes stop hblocks =>
  refine ⟨header, stop, hheader, ?_⟩
  split at h
  · cases h
  split at h
  · split at h
    · obtain rfl := Option.some.inj h
      exact hblocks
    · cases h
  · obtain rfl := Option.some.inj h
    exact hblocks

theorem unpackFrame_of_le {result : ByteArray × Nat}
    (h : unpackFrame packed room pos = some result) (hroom : room ≤ room') :
    unpackFrame packed room' pos = some result := by
  obtain ⟨header, stop, hheader, hblocks⟩ := unpackBlocks_of_unpackFrame h
  unfold unpackFrame at h ⊢
  simp only [hheader, hblocks, unpackBlocks_of_le hblocks hroom] at h ⊢
  exact h

theorem unpackFrame_size_le {result : ByteArray × Nat}
    (h : unpackFrame packed room pos = some result) : result.1.size ≤ room := by
  obtain ⟨header, stop, -, hblocks⟩ := unpackBlocks_of_unpackFrame h
  have hsize := unpackBlocks_size_le hblocks
  exact hsize

theorem unpackFrames_of_le {result : ByteArray} (h : unpackFrames packed room pos out n = some result)
    (hroom : room ≤ room') : unpackFrames packed room' pos out n = some result := by
  induction n generalizing pos out with
  | zero => cases h
  | succ n ih =>
    rw [unpackFrames] at h ⊢
    split at h
    next hend =>
      rw [if_pos hend]
      exact h
    next hend =>
    rw [if_neg hend]
    split at h
    · cases h
    next hshort =>
    rw [if_neg hshort]
    split at h
    next hskipped =>
      rw [if_pos hskipped]
      dsimp only at h ⊢
      split at h
      · cases h
      next hinside =>
      rw [if_neg hinside]
      exact ih h
    next hskipped =>
    rw [if_neg hskipped]
    split at h
    next hmagic =>
      rw [if_pos hmagic]
      split at h
      · cases h
      next hframe =>
      simp only [unpackFrame_of_le hframe (Nat.sub_le_sub_right hroom out.size)]
      exact ih h
    · cases h

theorem unpackFrames_size_le {result : ByteArray} (h : unpackFrames packed room pos out n = some result)
    (hout : out.size ≤ room) : result.size ≤ room := by
  induction n generalizing pos out with
  | zero => cases h
  | succ n ih =>
    rw [unpackFrames] at h
    split at h
    · obtain rfl := Option.some.inj h
      exact hout
    split at h
    · cases h
    split at h
    · dsimp only at h
      split at h
      · cases h
      · exact ih h hout
    split at h
    · split at h
      · cases h
      next bytes stop hframe =>
        have hbytes := unpackFrame_size_le hframe
        dsimp only at hbytes
        exact ih h (by rw [ByteArray.size_append]; omega)
    · cases h

/-- A sequence of frames is read the same with more room. -/
theorem unpack_of_le (h : unpack packed room = .ok out) (hroom : room ≤ room') :
    unpack packed room' = .ok out := by
  unfold unpack at h ⊢
  split at h
  next hframes =>
    simp only [unpackFrames_of_le hframes hroom]
    exact h
  · cases h

/-- Room is never exceeded. -/
theorem unpack_size_le (h : unpack packed room = .ok out) : out.size ≤ room := by
  unfold unpack at h
  split at h
  next hframes =>
    obtain rfl := Except.ok.inj h
    exact unpackFrames_size_le hframes (Nat.zero_le room)
  · cases h

end

end DedupImage.Zstd
