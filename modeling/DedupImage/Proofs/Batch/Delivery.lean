import DedupImage.Batch.Reader
import DedupImage.Proofs.Bytes

/-!
# What readers deliver

Whatever a reader does, the blocks it delivers are not empty and not longer than asked for
(`Reader.mem_blocks`).

A reader delivers a string if it ends there without a failure and none of its reads returns nothing
early (`Reader.Delivers`). Such a reader delivers the pieces of the string, and neither the sizes of its
reads nor interruptions can be seen in them (`Reader.Delivers.blocks_eq`).
-/

namespace DedupImage

/-! ## Pieces -/

/-- `n` stretches of `size` bytes one behind the other, the first from `start` on; those at the end of
the string may be shorter. -/
def piecesFrom (data : ByteArray) (size start : Nat) : (n : Nat) → List ByteArray
  | 0 => []
  | n + 1 => slice data start size :: piecesFrom data size (start + size) n

/-- The number of pieces of a string. -/
def pieceCount (length size : Nat) : Nat := (length + size - 1) / size

/-- A string cut into pieces of `size` bytes, the last of which may be shorter. -/
def pieces (data : ByteArray) (size : Nat) : List ByteArray :=
  piecesFrom data size 0 (pieceCount data.size size)

theorem pieceCount_zero {size : Nat} (h : 0 < size) : pieceCount 0 size = 0 :=
  Nat.div_eq_of_lt (by omega)

/-- What is not longer than one piece is one piece. -/
theorem pieceCount_of_le {length size : Nat} (hpos : 0 < length) (hle : length ≤ size) :
    pieceCount length size = 1 := by
  unfold pieceCount
  rw [Nat.div_eq_iff (by omega)]
  omega

/-- Behind the first piece there is one piece less. -/
theorem pieceCount_of_ge {length size : Nat} (hsize : 0 < size) (hle : size ≤ length) :
    pieceCount length size = pieceCount (length - size) size + 1 := by
  unfold pieceCount
  rw [← Nat.add_div_right _ hsize]
  congr 1
  omega

/-- Behind a piece there is one piece less, even if it was the last. -/
theorem pieceCount_pos {length size : Nat} (hsize : 0 < size) (hpos : 0 < length) :
    pieceCount length size = pieceCount (length - size) size + 1 := by
  by_cases hle : size ≤ length
  · exact pieceCount_of_ge hsize hle
  · rw [pieceCount_of_le hpos (by omega), Nat.sub_eq_zero_of_le (by omega), pieceCount_zero hsize]

namespace Reader

/-! ## Any reader -/

/-- Reading goes no further than asked, and from inside the content it gets on, and not behind its end. -/
theorem reach_bounds {r : Reader} {stop pos pos' : Nat} {steps rest : List ReadStep} (hpos : pos ≤ stop)
    (h : r.reach stop pos steps = .ok (pos', rest)) :
    pos' ≤ stop ∧ (pos ≤ r.content.size → pos ≤ pos' ∧ pos' ≤ r.content.size) := by
  have hend {rest rest' : List ReadStep} (h : r.atEnd rest = .ok (pos', rest')) :
      pos' = r.content.size := by
    unfold atEnd at h
    split at h
    · exact (Prod.mk.inj (Except.ok.inj h)).1.symm
    · cases h
  induction steps generalizing pos with
  | nil =>
    unfold reach at h
    split at h
    · obtain ⟨rfl, -⟩ := Prod.mk.inj (Except.ok.inj h)
      omega
    · have := hend h
      omega
  | cons step steps ih =>
    cases step with
    | interrupted =>
      unfold reach at h
      split at h
      · obtain ⟨rfl, -⟩ := Prod.mk.inj (Except.ok.inj h)
        omega
      · exact ih hpos h
    | most n =>
      unfold reach at h
      split at h
      · obtain ⟨rfl, -⟩ := Prod.mk.inj (Except.ok.inj h)
        omega
      · split at h
        · have := hend h
          omega
        · split at h
          · obtain ⟨rfl, -⟩ := Prod.mk.inj (Except.ok.inj h)
            omega
          · have := ih (by omega) h
            omega

theorem readBlock_size_le {r r' : Reader} {size : Nat} {data : ByteArray}
    (h : r.readBlock size = .ok (data, r')) : data.size ≤ size := by
  unfold readBlock at h
  split at h
  · cases h
  · rename_i stop steps hreach
    obtain ⟨rfl, -⟩ := Prod.mk.inj (Except.ok.inj h)
    have := (reach_bounds (Nat.le_add_right _ _) hreach).1
    rw [ByteArray.size_extract]
    omega

theorem mem_blocksFrom {r : Reader} {size : Nat} {out : Array ByteArray} {b : ByteArray}
    (h : b ∈ (r.blocksFrom size out).1) : b ∈ out ∨ (0 < b.size ∧ b.size ≤ size) := by
  induction r, out using blocksFrom.induct size with
  | case1 r out e hread =>
    rw [blocksFrom, hread] at h
    exact .inl h
  | case2 r out data r' hread hempty =>
    rw [blocksFrom, hread] at h
    simp only [hempty, ↓reduceDIte] at h
    exact .inl h
  | case3 r out data r' hread hempty hshort =>
    rw [blocksFrom, hread] at h
    simp only [hempty, ↓reduceDIte, hshort, ↓reduceIte] at h
    rcases Array.mem_push.mp h with h | rfl
    · exact .inl h
    · exact .inr ⟨Nat.pos_of_ne_zero hempty, readBlock_size_le hread⟩
  | case4 r out data r' hread hempty hlong ih =>
    rw [blocksFrom, hread] at h
    simp only [hempty, ↓reduceDIte, hlong, ↓reduceIte] at h
    rcases ih h with h | h
    · rcases Array.mem_push.mp h with h | rfl
      · exact .inl h
      · exact .inr ⟨Nat.pos_of_ne_zero hempty, readBlock_size_le hread⟩
    · exact .inr h

/-- Blocks are not empty, and not longer than asked for. -/
theorem mem_blocks {r : Reader} {size : Nat} {b : ByteArray} (h : b ∈ (r.blocks size).1) :
    0 < b.size ∧ b.size ≤ size :=
  (mem_blocksFrom h).resolve_left (Array.not_mem_empty b)

/-! ## Readers that deliver a string -/

/-- A reader that goes on to the end of its content: it does not fail there, and no read before it
returns nothing. -/
structure Steady (r : Reader) : Prop where
  inside : r.position ≤ r.content.size
  ending : r.ending = none
  steps : .most 0 ∉ r.steps

/-- A reader that delivers a string from its first byte on, in reads of any sizes and with any
interruptions. -/
structure Delivers (r : Reader) (data : ByteArray) : Prop where
  content : r.content = data
  position : r.position = 0
  ending : r.ending = none
  steps : .most 0 ∉ r.steps

theorem Delivers.steady {r : Reader} {data : ByteArray} (h : r.Delivers data) : r.Steady :=
  ⟨by rw [h.position]; exact Nat.zero_le _, h.ending, h.steps⟩

/-- Where no read returns nothing, a reader gets where it is asked to, or to the end of its content. -/
theorem reach_cases {r : Reader} {stop pos : Nat} {steps : List ReadStep} (hsteps : .most 0 ∉ steps)
    (hstop : pos ≤ stop) (hpos : pos ≤ r.content.size) :
    ∃ rest, .most 0 ∉ rest ∧
      r.reach stop pos steps = if stop ≤ r.content.size then .ok (stop, rest) else r.atEnd rest := by
  induction steps generalizing pos with
  | nil => exact ⟨[], hsteps, rfl⟩
  | cons step steps ih =>
    have hrest : .most 0 ∉ steps := fun h => hsteps (List.mem_cons_of_mem step h)
    by_cases hthere : stop ≤ pos
    · obtain rfl := Nat.le_antisymm hthere hstop
      refine ⟨step :: steps, hsteps, ?_⟩
      cases step <;> rw [reach, if_pos hthere, if_pos hpos]
    · cases step with
      | interrupted =>
        rw [reach, if_neg hthere]
        exact ih hrest hstop hpos
      | most n =>
        have hn : n ≠ 0 := by
          rintro rfl
          exact hsteps List.mem_cons_self
        rw [reach, if_neg hthere, if_neg hn]
        by_cases hend : r.content.size ≤ pos
        · exact ⟨steps, hrest, by rw [if_pos hend, if_neg (by omega)]⟩
        · rw [if_neg hend]
          exact ih hrest (by omega) (by omega)

/-- Such a reader gets where it is asked to, or to the end. -/
theorem reach_eq {r : Reader} (hending : r.ending = none) {stop pos : Nat} {steps : List ReadStep}
    (hsteps : .most 0 ∉ steps) (hstop : pos ≤ stop) (hpos : pos ≤ r.content.size) :
    ∃ rest, r.reach stop pos steps = .ok (min stop r.content.size, rest) ∧ .most 0 ∉ rest := by
  obtain ⟨rest, hrest, hreach⟩ := reach_cases hsteps hstop hpos
  refine ⟨rest, hreach.trans ?_, hrest⟩
  split
  · rw [Nat.min_eq_left ‹_›]
  · rw [atEnd, hending, Nat.min_eq_right (by omega)]

/-- Such a reader reads the next stretch, and stays what it is. -/
theorem Steady.readBlock_eq {r : Reader} (h : r.Steady) (size : Nat) :
    ∃ r', r.readBlock size = .ok (slice r.content r.position size, r') ∧ r'.Steady ∧
      r'.content = r.content ∧ r'.position = min (r.position + size) r.content.size := by
  obtain ⟨rest, hreach, hrest⟩ :=
    reach_eq h.ending h.steps (Nat.le_add_right r.position size) h.inside
  refine ⟨{ r with position := min (r.position + size) r.content.size, steps := rest }, ?_,
    ⟨Nat.min_le_right _ _, h.ending, hrest⟩, rfl, rfl⟩
  unfold readBlock
  rw [hreach]
  simp only [extract_min_size, slice]

/-- The blocks of the rest of such a reader are the pieces of the rest of its content. -/
theorem Steady.blocksFrom_eq {size : Nat} (hsize : 0 < size) {r : Reader} (h : r.Steady)
    (out : Array ByteArray) :
    r.blocksFrom size out =
      (out ++ (piecesFrom r.content size r.position
        (pieceCount (r.content.size - r.position) size)).toArray, none) := by
  induction r, out using blocksFrom.induct size with
  | case1 r out e hread =>
    obtain ⟨next, hnext, -⟩ := h.readBlock_eq size
    rw [hread] at hnext
    cases hnext
  | case2 r out data r' hread hempty =>
    obtain ⟨next, hnext, -⟩ := h.readBlock_eq size
    obtain ⟨rfl, rfl⟩ := Prod.mk.inj (Except.ok.inj (hread.symm.trans hnext))
    have hend : r.content.size - r.position = 0 := by
      rw [size_slice] at hempty
      omega
    rw [blocksFrom, hread]
    simp only [hempty, ↓reduceDIte]
    rw [hend, pieceCount_zero hsize]
    exact congrArg (·, none) Array.append_empty.symm
  | case3 r out data r' hread hempty hshort =>
    obtain ⟨next, hnext, -⟩ := h.readBlock_eq size
    obtain ⟨rfl, rfl⟩ := Prod.mk.inj (Except.ok.inj (hread.symm.trans hnext))
    have hlast : pieceCount (r.content.size - r.position) size = 1 := by
      rw [size_slice] at hempty hshort
      exact pieceCount_of_le (by omega) (by omega)
    rw [blocksFrom, hread]
    simp only [hempty, ↓reduceDIte, hshort, ↓reduceIte]
    rw [hlast]
    exact congrArg (·, none) Array.push_eq_append
  | case4 r out data r' hread hempty hlong ih =>
    obtain ⟨next, hnext, hsteady, hcontent, hposition⟩ := h.readBlock_eq size
    obtain ⟨rfl, rfl⟩ := Prod.mk.inj (Except.ok.inj (hread.symm.trans hnext))
    have hlong' : size ≤ r.content.size - r.position := by
      rw [size_slice] at hlong
      omega
    have hnextPos : r'.position = r.position + size := by omega
    rw [blocksFrom, hread]
    simp only [hempty, ↓reduceDIte, hlong, ↓reduceIte]
    rw [ih hsteady, hcontent, hnextPos, pieceCount_of_ge hsize hlong', Nat.sub_sub]
    refine congrArg (·, none) ?_
    rw [Array.push_eq_append, Array.append_assoc]
    exact congrArg (out ++ ·) (List.append_toArray [_] _)

/-- **Cutting a source into blocks.** The blocks of a reader that delivers a string are the pieces of
the string, in whatever reads it came. -/
theorem Delivers.blocks_eq {r : Reader} {data : ByteArray} (h : r.Delivers data) {size : Nat}
    (hsize : 0 < size) : r.blocks size = ((pieces data size).toArray, none) := by
  unfold blocks pieces
  rw [h.steady.blocksFrom_eq hsize, h.position, h.content, Nat.sub_zero, Array.empty_append]

end Reader

end DedupImage
