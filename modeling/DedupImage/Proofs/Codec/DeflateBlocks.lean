import DedupImage.Codec.Deflate
import DedupImage.Proofs.Codec.Repetitions
import DedupImage.Proofs.Codec.TransmittedCodes

/-!
# Deflate streams come back

A reader that stands at the beginning of a block and has the text before it gets through the block and has the
text up to the end of it (`Inflate.Passes`), in whichever of the three forms the block is written
(`Inflate.passes_bits`). So by the recursion of the writer it gets through all blocks
(`Inflate.passes_blockBits`), and the stream gives the text (`Inflate.stream_deflate`).

No form is chosen that is longer than the stored one. Since a block that is not the last stands for more than
31744 bytes, a stream is longer than its text by at most five bytes for every 16 KiB that are begun
(`Deflate.size_stream_le`).
-/

namespace DedupImage

variable {src text out out' data : ByteArray} {room pos stop n : Nat} {final : Bool}

/-! ## Passing blocks -/

/-- The bits of the first block, and those of the others. -/
theorem Deflate.blockBits_cons (text : ByteArray) (bit pos : Nat) (ts : List Token) (rest : List (List Token)) :
    Deflate.blockBits text bit pos (ts :: rest) =
      Block.bits bit rest.isEmpty (slice text pos (ts.map Token.size).sum) ts ++
        Deflate.blockBits text
          (bit + (Block.bits bit rest.isEmpty (slice text pos (ts.map Token.size).sum) ts).length)
          (pos + (ts.map Token.size).sum) rest := by
  rw [Deflate.blockBits, ← List.sum_eq_foldl_nat]

namespace Inflate

/-- Whether a reader that is at `pos` and has produced `out` gets through blocks up to `stop` and has produced
`out'` then. It is done if the blocks were `final`, and else reads on. -/
def Passes (src : ByteArray) (room pos : Nat) (out : ByteArray) (final : Bool) (stop : Nat) (out' : ByteArray) :
    Prop :=
  ∃ k, pos + k ≤ stop ∧
    ∀ n, blocks src room pos out (n + k) = if final then .ok (out', stop) else blocks src room stop out' n

theorem Passes.trans {middle : Nat} {between : ByteArray} (hfirst : Passes src room pos out false middle between)
    (hrest : Passes src room middle between final stop out') : Passes src room pos out final stop out' := by
  obtain ⟨k, hk, hfirst⟩ := hfirst
  obtain ⟨l, hl, hrest⟩ := hrest
  refine ⟨l + k, by omega, fun n => ?_⟩
  rw [← Nat.add_assoc, hfirst, if_neg (by decide), hrest]

/-- One block: its header of three bits, and its contents. -/
theorem passes_block {first second : Bool} (hheader : Bits.Holds src pos [final, first, second])
    (hblock : block src (first.toNat + 2 * second.toNat) room (pos + 3) out = .ok (out', stop))
    (hstop : pos < stop) : Passes src room pos out final stop out' := by
  refine ⟨1, hstop, fun n => ?_⟩
  have hbits : [final, first, second] =
      Bits.numberBits 3 (final.toNat + 2 * (first.toNat + 2 * second.toNat)) := by
    cases final <;> cases first <;> cases second <;> rfl
  rw [hbits] at hheader
  have hnumber := hheader.readNumber
    (by have := final.toNat_lt; have := first.toNat_lt; have := second.toNat_lt; omega)
  have hkind : (final.toNat + 2 * (first.toNat + 2 * second.toNat)) / 2 = first.toNat + 2 * second.toNat := by
    have := final.toNat_lt
    omega
  have hfinal : (final.toNat + 2 * (first.toNat + 2 * second.toNat)) % 2 = final.toNat := by
    have := final.toNat_lt
    omega
  rw [blocks, hnumber]
  simp only [hkind, hblock, hfinal]
  cases final <;> rfl

/-! ## Stored blocks -/

theorem length_storedBits (pos : Nat) (final : Bool) (data : ByteArray) :
    pos + (Block.storedBits pos final data).length = Block.storedStop pos data.size := by
  simp only [Block.storedBits, Block.storedStop, List.length_append, List.length_cons, List.length_nil,
    List.length_replicate, Bits.length_numberBits, Bits.length_ofBytes]
  unfold Bits.byteAfter
  omega

/-- **A stored block is copied as it was written.** Whole bytes in front of the stream do not matter. -/
theorem passes_storedBits (b : Nat) (hdata : data.size ≤ Block.longestStored)
    (hroom : out.size + data.size ≤ room) (h : Bits.Holds src (8 * b + pos) (Block.storedBits pos final data)) :
    Passes src room (8 * b + pos) out final (8 * b + Block.storedStop pos data.size) (out ++ data) := by
  have hstart : Bits.byteAfter (8 * b + pos + 3) = b + Bits.byteAfter (pos + 3) := by
    unfold Bits.byteAfter
    omega
  have hpad : pos + 3 ≤ 8 * Bits.byteAfter (pos + 3) := by
    unfold Bits.byteAfter
    omega
  have hbytes := h.right
  have hother := h.left.right
  have hsize := h.left.left.right
  simp only [List.length_append, List.length_cons, List.length_nil, List.length_replicate,
    Bits.length_numberBits] at hbytes hother hsize
  rw [show 8 * b + pos + (0 + 1 + 1 + 1 + (8 * Bits.byteAfter (pos + 3) - (pos + 3))) =
    8 * (b + Bits.byteAfter (pos + 3)) by omega] at hsize
  rw [show 8 * b + pos + (0 + 1 + 1 + 1 + (8 * Bits.byteAfter (pos + 3) - (pos + 3)) + 16) =
    8 * (b + Bits.byteAfter (pos + 3) + 2) by omega] at hother
  rw [show 8 * b + pos + (0 + 1 + 1 + 1 + (8 * Bits.byteAfter (pos + 3) - (pos + 3)) + 16 + 16) =
    8 * (b + Bits.byteAfter (pos + 3) + 4) by omega] at hbytes
  have hend := hother.le_total (by simp [Bits.numberBits])
  rw [Bits.length_numberBits, Bits.total] at hend
  have hsum : data.size + (Block.longestStored - data.size) = 65535 := Nat.add_sub_cancel' hdata
  have hlength := hsize.numberAt (w := 2) (by omega)
  have hcomplement := hother.numberAt (w := 2) (by omega)
  obtain ⟨hslice, hinside⟩ := hbytes.slice
  have hfits : b + Bits.byteAfter (pos + 3) + 4 + data.size ≤ src.size := by
    rcases Nat.eq_zero_or_pos data.size with hzero | hpos
    · omega
    · exact hinside hpos
  have hkind : Bits.Holds src (8 * b + pos) [final, false, false] := h.left.left.left.left
  refine passes_block hkind ?_ (by
    unfold Block.storedStop
    omega)
  change storedBlock src room (8 * b + pos + 3) out = _
  unfold storedBlock
  dsimp only
  rw [hstart, if_pos (by omega), hlength, hcomplement, if_pos hsum, if_pos ⟨hfits, hroom⟩, hslice]
  congr 2
  unfold Block.storedStop
  omega

/-- **Bytes come back from stored blocks**, as many as there are. -/
theorem passes_stored (b : Nat) {start : Nat} (hroom : out.size + (data.size - start) ≤ room)
    (h : Bits.Holds src (8 * b + pos) (Block.stored pos final data start)) :
    Passes src room (8 * b + pos) out final (8 * b + (pos + (Block.stored pos final data start).length))
      (out ++ slice data start (data.size - start)) := by
  fun_induction Block.stored pos final data start generalizing out with
  | case1 pos start hmore ih =>
    have hpiece := Block.size_piece data start
    have hstop := length_storedBits pos false (Block.piece data start)
    have hall : Block.piece data start ++ slice data (start + (Block.piece data start).size)
        (data.size - (start + (Block.piece data start).size)) = slice data start (data.size - start) := by
      rw [hpiece] at hmore ⊢
      rw [Block.piece, slice_add]
      congr 1
      omega
    have hnow : out.size + (Block.piece data start).size ≤ room := by omega
    have hfirst := passes_storedBits b (by omega) hnow h.left
    have hrest := h.right
    rw [Nat.add_assoc, hstop] at hrest
    have hmoreRoom : (out ++ Block.piece data start).size +
        (data.size - (start + (Block.piece data start).size)) ≤ room := by
      rw [ByteArray.size_append]
      omega
    rw [← hall, ← ByteArray.append_assoc, List.length_append, ← Nat.add_assoc pos, hstop]
    exact hfirst.trans (ih hmoreRoom hrest)
  | case2 pos start hlast =>
    have hpiece := Block.size_piece data start
    have hall : Block.piece data start = slice data start (data.size - start) := by
      rw [hpiece] at hlast
      rw [Block.piece]
      congr 1
      omega
    rw [← hall, length_storedBits]
    exact passes_storedBits b (by omega) (by omega) h

/-! ## Coded blocks -/

variable {symbols distances : CodeTree} {ts : List Token} {bit : Nat}

/-- Every symbol of the fixed code has a word. -/
theorem hasWord_fixed {strict : Bool} {lengths : List Nat}
    (hfilled : WordLengths.taken lengths = 2 ^ WordLengths.levels)
    (hlengths : ∀ l ∈ lengths, 0 < l ∧ l ≤ CodeTree.longestWord) {s : Nat} (hs : s < lengths.length) :
    ((CodeTree.ofLengths? strict lengths).getD .hole).HasWord s := by
  obtain ⟨t, htree, hwords⟩ := CodeTree.ofLengths?_of_filled strict hfilled fun l hl => (hlengths l hl).2
  rw [htree, Option.getD_some]
  apply hwords
  rw [List.getD_eq_getElem?_getD, List.getElem?_eq_getElem hs, Option.getD_some]
  exact (hlengths _ (List.getElem_mem hs)).1

theorem taken_replicate (n l : Nat) : WordLengths.taken (List.replicate n l) = n * WordLengths.share l := by
  simp [WordLengths.taken]

theorem hasWord_fixedSymbols {s : Nat} (hs : s < 288) : Token.fixedSymbols.HasWord s := by
  apply hasWord_fixed
  · simp only [Token.fixedSymbolLengths, WordLengths.taken_append, taken_replicate]
    decide
  · intro l hl
    rcases List.mem_append.mp hl with hl | hl
    · rcases List.mem_append.mp hl with hl | hl
      · rcases List.mem_append.mp hl with hl | hl
        all_goals
          obtain rfl := List.eq_of_mem_replicate hl
          decide
      · obtain rfl := List.eq_of_mem_replicate hl
        decide
    · obtain rfl := List.eq_of_mem_replicate hl
      decide
  · simpa only [Token.fixedSymbolLengths, List.length_append, List.length_replicate] using hs

theorem hasWord_fixedDistances {s : Nat} (hs : s < 32) : Token.fixedDistances.HasWord s := by
  apply hasWord_fixed
  · rw [Token.fixedDistanceLengths, taken_replicate]
    decide
  · intro l hl
    obtain rfl := List.eq_of_mem_replicate hl
    decide
  · rwa [Token.fixedDistanceLengths, List.length_replicate]

/-- A block in the fixed code. -/
theorem passes_fixedBits (hspelled : Token.Spelled text pos ts stop) (hroom : stop ≤ room)
    (h : Bits.Holds src bit (final :: Block.fixedBits ts)) :
    Passes src room bit (slice text 0 pos) final (bit + (final :: Block.fixedBits ts).length)
      (slice text 0 stop) := by
  have hwords : ∀ t ∈ ts, t.Worded Token.fixedSymbols Token.fixedDistances := by
    intro t ht
    have hvalid := hspelled.valid t ht
    exact ⟨hasWord_fixedSymbols (Nat.lt_trans (Token.symbol_lt hvalid) (by decide)), fun d hd =>
      hasWord_fixedDistances (Nat.lt_trans (Token.distanceSymbol_lt hvalid hd) (by decide))⟩
  have hbits : final :: Block.fixedBits ts =
      [final, true, false] ++ Block.tokenBits Token.fixedSymbols Token.fixedDistances ts := rfl
  rw [hbits] at h ⊢
  have hcontents := codedBlock_tokenBits hspelled hwords (hasWord_fixedSymbols (by decide)) h.right hroom
  have hheader : [final, true, false].length = 3 := rfl
  refine passes_block h.left ?_ (by simp)
  rw [hheader] at hcontents
  rw [block, if_neg (by decide), if_pos (by decide), hcontents, List.length_append, hheader, Nat.add_assoc]

/-- A block in a code that it transmits. -/
theorem passes_transmittedBits (hspelled : Token.Spelled text pos ts stop) (hroom : stop ≤ room)
    (h : Bits.Holds src bit (final :: Block.transmittedBits ts)) :
    Passes src room bit (slice text 0 pos) final (bit + (final :: Block.transmittedBits ts).length)
      (slice text 0 stop) := by
  obtain ⟨symbols, hsymbols, hwords⟩ := hasWord_of_occurs (Token.endSymbol :: ts.map Token.symbol) false
    (by decide : 2 ≤ Token.symbolCount) (by decide : Token.symbolCount ≤ 2 ^ CodeTree.longestWord) (by decide)
  obtain ⟨distances, hdistances, hdistanceWords⟩ := hasWord_of_occurs (ts.filterMap Token.distanceSymbol?) false
    (by decide : 2 ≤ Token.distanceCount) (by decide : Token.distanceCount ≤ 2 ^ CodeTree.longestWord) (by decide)
  change CodeTree.ofLengths? false (Block.symbolLengths ts) = some symbols at hsymbols
  change CodeTree.ofLengths? false (Block.distanceLengths ts) = some distances at hdistances
  have hworded : ∀ t ∈ ts, t.Worded symbols distances := by
    intro t ht
    have hvalid := hspelled.valid t ht
    exact ⟨hwords _ (List.mem_cons_of_mem _ (List.mem_map_of_mem ht)) (Token.symbol_lt hvalid), fun d hd =>
      hdistanceWords d (List.mem_filterMap.mpr ⟨t, ht, hd⟩) (Token.distanceSymbol_lt hvalid hd)⟩
  have hend := hwords Token.endSymbol List.mem_cons_self (by decide)
  have hshort : ∀ l ∈ Block.symbolLengths ts ++ Block.distanceLengths ts, l < 16 := by
    intro l hl
    rcases List.mem_append.mp hl with hl | hl
    all_goals exact Nat.lt_succ_of_le (WordLengths.le_of_mem_ofCounts hl)
  have hbits : final :: Block.transmittedBits ts =
      [final, false, true] ++ (LengthRun.headerBits (Block.symbolLengths ts) (Block.distanceLengths ts) ++
        Block.tokenBits symbols distances ts) := by
    rw [Block.transmittedBits, hsymbols, hdistances, Option.getD_some, Option.getD_some, List.append_assoc]
    rfl
  rw [hbits] at h ⊢
  have hcode := transmittedCode_headerBits (by rw [Block.symbolLengths, WordLengths.length_ofCounts,
    LengthRun.length_occurrences]) (by rw [Block.distanceLengths, WordLengths.length_ofCounts,
    LengthRun.length_occurrences]) hshort hsymbols hdistances h.right.left
  have hcontents := codedBlock_tokenBits hspelled hworded hend h.right.right hroom
  refine passes_block h.left ?_ (by simp)
  rw [block, if_neg (by decide), if_neg (by decide), if_pos (by decide)]
  have hheader : [final, false, true].length = 3 := rfl
  rw [hheader] at hcode hcontents
  simp only [hcode, hcontents, List.length_append, hheader, ← Nat.add_assoc]

/-! ## All blocks -/

/-- **A block comes back**, in whichever form it is written. -/
theorem passes_bits (b : Nat) (hspelled : Token.Spelled text pos ts stop) (hroom : stop ≤ room)
    (hstop : stop ≤ text.size)
    (h : Bits.Holds src (8 * b + bit) (Block.bits bit final (slice text pos (stop - pos)) ts)) :
    Passes src room (8 * b + bit) (slice text 0 pos) final
      (8 * b + (bit + (Block.bits bit final (slice text pos (stop - pos)) ts).length)) (slice text 0 stop) := by
  have hpos := hspelled.stop_eq
  unfold Block.bits at h ⊢
  dsimp only at h ⊢
  split at h
  next hcoded =>
    rw [if_pos hcoded, ← Nat.add_assoc]
    unfold Block.codedBits at h ⊢
    dsimp only at h ⊢
    split at h
    next htransmitted =>
      rw [if_pos htransmitted]
      exact passes_transmittedBits hspelled hroom h
    next hfixed =>
      rw [if_neg hfixed]
      exact passes_fixedBits hspelled hroom h
  next hstored =>
    rw [if_neg hstored]
    have hfront : (slice text 0 pos).size = pos := size_slice_of_le (by omega)
    have hdata : (slice text pos (stop - pos)).size = stop - pos := size_slice_of_le (by omega)
    have hfits : (slice text 0 pos).size + ((slice text pos (stop - pos)).size - 0) ≤ room := by omega
    have hread := passes_stored b hfits h
    have hall : slice text 0 pos ++ slice text pos (stop - pos) = slice text 0 stop := by
      have hadd := slice_add (b := text) 0 pos (stop - pos)
      rwa [Nat.zero_add, Nat.add_sub_cancel' (by omega)] at hadd
    rwa [Nat.sub_zero, slice_all, hall] at hread

/-- **Blocks come back**, one after the other. -/
theorem passes_blockBits (b : Nat) {blocks : List (List Token)} (hsome : blocks ≠ [])
    (hspelled : Token.Spelled text pos blocks.flatten text.size) (hroom : text.size ≤ room)
    (h : Bits.Holds src (8 * b + bit) (Deflate.blockBits text bit pos blocks)) :
    Passes src room (8 * b + bit) (slice text 0 pos) true
      (8 * b + (bit + (Deflate.blockBits text bit pos blocks).length)) text := by
  induction blocks generalizing bit pos with
  | nil => exact absurd rfl hsome
  | cons ts rest ih =>
    rw [List.flatten_cons] at hspelled
    obtain ⟨hfirst, hrest⟩ := hspelled.split
    have hstop := hrest.stop_eq
    have hsize : (ts.map Token.size).sum = pos + (ts.map Token.size).sum - pos := by omega
    rw [Deflate.blockBits_cons] at h ⊢
    have hblock := h.left
    rw [hsize] at hblock
    have hfits : pos + (ts.map Token.size).sum ≤ room := by omega
    have hpassed := passes_bits b hfirst hfits (by omega) hblock
    rw [← hsize] at hpassed
    cases rest with
    | nil =>
      have hall : pos + (ts.map Token.size).sum = text.size := hrest
      rw [hall, slice_all] at hpassed
      rwa [Deflate.blockBits, List.append_nil]
    | cons next rest =>
      have hlater := h.right
      rw [Nat.add_assoc] at hlater
      have hpassedLater := ih (List.cons_ne_nil _ _) hrest hlater
      rw [List.length_append, ← Nat.add_assoc bit]
      exact hpassed.trans hpassedLater

end Inflate

namespace Deflate

variable {f : Filling} {block ts : List Token}

/-! ## Cutting tokens into blocks -/

theorem blocksFrom_ne_nil (f : Filling) (block ts : List Token) : blocksFrom f block ts ≠ [] := by
  fun_induction blocksFrom f block ts with
  | case1 => exact List.cons_ne_nil _ _
  | case2 => exact List.cons_ne_nil _ _
  | case3 f block t ts f' hends ih => exact ih

/-- Nothing is lost when tokens are cut into blocks. -/
theorem flatten_blocksFrom (f : Filling) (block ts : List Token) :
    (blocksFrom f block ts).flatten = block.reverse ++ ts := by
  fun_induction blocksFrom f block ts with
  | case1 f block => simp
  | case2 f block t ts f' hends ih => simp [ih]
  | case3 f block t ts f' hends ih => simp [ih]

/-- Whether the filling counts what it should of the tokens of a block: all bytes that they produce, and no
more space or tokens than bytes. -/
def Filling.Counts (f : Filling) (block : List Token) : Prop :=
  f.bytes = (block.map Token.size).sum ∧ f.space ≤ f.bytes ∧ f.tokens ≤ f.space

theorem Filling.Counts.add {t : Token} (h : f.Counts block) (hvalid : t.Valid) :
    (f.add t).Counts (t :: block) := by
  obtain ⟨hbytes, hspace, htokens⟩ := h
  cases t with
  | literal byte =>
    simp only [Filling.Counts, Filling.add, Token.size, List.map_cons, List.sum_cons]
    omega
  | copy length distance =>
    have hlength := hvalid.1.1
    unfold Token.shortestCopy at hlength
    simp only [Filling.Counts, Filling.add, Token.size, List.map_cons, List.sum_cons]
    omega

/-- A block that ends before the last token stands for many bytes. -/
theorem Filling.Counts.many (h : f.Counts block) (hends : f.ends = true) :
    31744 < (block.map Token.size).sum := by
  obtain ⟨hbytes, hspace, htokens⟩ := h
  rw [Filling.ends, Bool.or_eq_true, Bool.and_eq_true, decide_eq_true_eq, decide_eq_true_eq,
    Filling.used] at hends
  omega

/-- All blocks but the last stand for many bytes. -/
theorem many_of_mem_dropLast (hcounts : f.Counts block) (hvalid : ∀ t ∈ ts, t.Valid) :
    ∀ b ∈ (blocksFrom f block ts).dropLast, 31744 < (b.map Token.size).sum := by
  fun_induction blocksFrom f block ts with
  | case1 => exact fun b hb => by cases hb
  | case2 f block t ts f' hends ih =>
    intro b hb
    rw [List.dropLast_cons_of_ne_nil (blocksFrom_ne_nil _ _ _)] at hb
    rcases List.mem_cons.mp hb with rfl | hb
    · rw [List.map_reverse, List.sum_reverse]
      exact (hcounts.add (hvalid t List.mem_cons_self)).many hends
    · exact ih ⟨rfl, Nat.le_refl 0, Nat.le_refl 0⟩ (fun t ht => hvalid t (List.mem_cons_of_mem _ ht)) b hb
  | case3 f block t ts f' hends ih =>
    exact ih (hcounts.add (hvalid t List.mem_cons_self)) fun t ht => hvalid t (List.mem_cons_of_mem _ ht)

/-! ## Sizes -/

variable {bit : Nat}

/-- Stored blocks cost five bytes each. -/
theorem length_stored_le (bit : Nat) (final : Bool) (data : ByteArray) (start : Nat) :
    bit + (Block.stored bit final data start).length ≤
      8 * (Bits.byteAfter bit + (data.size - start) + 5 * ((data.size - start) / Block.longestStored + 1)) := by
  fun_induction Block.stored bit final data start with
  | case1 bit start hmore ih =>
    have hpiece := Block.size_piece data start
    have hstop := Inflate.length_storedBits bit false (Block.piece data start)
    rw [List.length_append, ← Nat.add_assoc, hstop]
    refine Nat.le_trans ih ?_
    unfold Block.storedStop Bits.byteAfter
    unfold Block.longestStored at hpiece ⊢
    omega
  | case2 bit start hlast =>
    have hpiece := Block.size_piece data start
    rw [Inflate.length_storedBits]
    unfold Block.storedStop Bits.byteAfter
    unfold Block.longestStored at hpiece ⊢
    omega

theorem length_bits_le (bit : Nat) (final : Bool) (data : ByteArray) (ts : List Token) :
    bit + (Block.bits bit final data ts).length ≤
      8 * (Bits.byteAfter bit + data.size + 5 * (data.size / Block.longestStored + 1)) := by
  have hstored := length_stored_le bit final data 0
  rw [Nat.sub_zero] at hstored
  unfold Block.bits
  dsimp only
  split <;> omega

/-- **Blocks cost five bytes for every 31744 bytes of the text** that are begun. -/
theorem length_blockBits_le {text : ByteArray} (bit : Nat) {pos : Nat} {blocks : List (List Token)}
    (hsome : blocks ≠ []) (hmany : ∀ b ∈ blocks.dropLast, 31744 < (b.map Token.size).sum)
    (hspelled : Token.Spelled text pos blocks.flatten text.size) :
    bit + (blockBits text bit pos blocks).length ≤
      8 * (Bits.byteAfter bit + (text.size - pos) + 5 * ((text.size - pos) / 31744 + 1)) := by
  induction blocks generalizing bit pos with
  | nil => exact absurd rfl hsome
  | cons ts rest ih =>
    rw [List.flatten_cons] at hspelled
    obtain ⟨hfirst, hrest⟩ := hspelled.split
    have hstop := hrest.stop_eq
    have hdata : (slice text pos (ts.map Token.size).sum).size = (ts.map Token.size).sum :=
      size_slice_of_le (by omega)
    have hblock := length_bits_le bit rest.isEmpty (slice text pos (ts.map Token.size).sum) ts
    rw [hdata] at hblock
    rw [blockBits_cons]
    cases rest with
    | nil =>
      have hall : pos + (ts.map Token.size).sum = text.size := hrest
      rw [blockBits, List.append_nil]
      unfold Block.longestStored at hblock
      omega
    | cons next rest =>
      have hlong := hmany ts (by simp)
      have hlater := ih (bit + (Block.bits bit (next :: rest).isEmpty
        (slice text pos (ts.map Token.size).sum) ts).length) (List.cons_ne_nil _ _)
        (fun b hb => hmany b (List.mem_cons_of_mem _ hb))
        hrest
      rw [List.length_append, ← Nat.add_assoc]
      refine Nat.le_trans hlater ?_
      unfold Block.longestStored at hblock
      unfold Bits.byteAfter at hblock ⊢
      omega

/-- The blocks of a text spell it. -/
theorem spelled_blocks (level : Nat) (text : ByteArray) :
    Token.Spelled text 0 (blocksFrom {} [] (Repetition.tokens level text)).flatten text.size := by
  rw [flatten_blocksFrom, List.reverse_nil, List.nil_append]
  exact Repetition.spelled_tokens level text

/-- **A stream is longer than its text by at most five bytes for every 16 KiB that are begun**, whatever the
text and the level. -/
theorem size_stream_le (level : Nat) (text : ByteArray) :
    (stream level text).size ≤ text.size + 5 * (text.size / 16384 + 1) := by
  have hlength := length_blockBits_le 0 (blocksFrom_ne_nil {} [] (Repetition.tokens level text))
    (many_of_mem_dropLast ⟨rfl, Nat.le_refl 0, Nat.le_refl 0⟩ (Repetition.spelled_tokens level text).valid)
    (spelled_blocks level text)
  rw [stream, Bits.size_pushBits, ByteArray.size_empty]
  unfold Bits.byteAfter at hlength ⊢
  omega

end Deflate

/-- **A stream gives its text**, wherever it stands and whatever follows it. -/
theorem Inflate.stream_deflate (level : Nat) (text before tail : ByteArray) (hroom : text.size ≤ room) :
    ∃ stop, stop ≤ 8 * (before.size + (Deflate.stream level text).size) ∧
      8 * (before.size + (Deflate.stream level text).size) < stop + 8 ∧
      stream (before ++ Deflate.stream level text ++ tail) room (8 * before.size) = .ok (text, stop) := by
  have hspelled := Deflate.spelled_blocks level text
  have hsome := Deflate.blocksFrom_ne_nil {} [] (Repetition.tokens level text)
  obtain ⟨packed, hpacked⟩ : ∃ packed, packed = Deflate.stream level text := ⟨_, rfl⟩
  rw [← hpacked]
  rw [Deflate.stream] at hpacked
  generalize Deflate.blocksFrom {} [] (Repetition.tokens level text) = blocks at hspelled hsome hpacked
  have hholds := Bits.holds_pushBits ByteArray.empty (Deflate.blockBits text 0 0 blocks)
  have hsize := Bits.size_pushBits ByteArray.empty (Deflate.blockBits text 0 0 blocks)
  rw [← hpacked, ByteArray.size_empty, Nat.zero_add] at hsize
  rw [← hpacked, ByteArray.size_empty, Nat.mul_zero] at hholds
  obtain ⟨k, hk, hread⟩ :=
    passes_blockBits before.size hsome hspelled hroom ((hholds.append_right before).append tail)
  have htotal : Bits.total (before ++ packed ++ tail) = 8 * (before.size + packed.size + tail.size) := by
    rw [Bits.total, ByteArray.size_append, ByteArray.size_append]
  unfold Bits.byteAfter at hsize
  rw [Nat.zero_add] at hk hread
  refine ⟨8 * before.size + (Deflate.blockBits text 0 0 blocks).length, by omega, by omega, ?_⟩
  have hfuel := hread (Bits.total (before ++ packed ++ tail) - k)
  rw [Nat.sub_add_cancel (by omega), slice_zero, if_pos rfl] at hfuel
  exact hfuel

end DedupImage
