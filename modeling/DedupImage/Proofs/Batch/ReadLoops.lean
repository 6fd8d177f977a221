import DedupImage.Proofs.Batch.Delivery

/-!
# Reading blocks into a buffer

`Reader.readBlock` takes a block out of the content of a reader. A program has a buffer: it asks for as
many bytes as the block still lacks, puts what it gets behind what it has, asks again when it was
interrupted, and stops when the block is full or a read gives nothing (`Reader.fill`). Both come to the
same block and the same reader (`Reader.fill_eq_readBlock`), and the buffer holds the block at its front;
what else is in the buffer, from blocks before, is not looked at.

The loops over the blocks of an item are one loop with different visits (`Reader.visitBlocks`): fill the
buffer, stop if nothing came, visit what came, stop if it was short. It visits the blocks of the reader in
order, until a visit fails, and then reports the failure of the reader, if it has one
(`Reader.visitBlocks_eq`).
-/

namespace DedupImage

/-! ## Buffers -/

/-- What is put behind what was put is put as one. -/
theorem overwrite_overwrite {b first : ByteArray} {start : Nat} (h : start + first.size ≤ b.size)
    (second : ByteArray) :
    overwrite (overwrite b start first) (start + first.size) second =
      overwrite b start (first ++ second) := by
  have hfirst : (overwrite b start first).size = max b.size (start + first.size) :=
    size_overwrite (by omega)
  apply eq_of_byteAt
  · rw [size_overwrite (by omega), hfirst, size_overwrite (by omega), ByteArray.size_append]
    omega
  · intro i hi
    rw [byteAt_overwrite (by omega), byteAt_overwrite (by omega), byteAt_overwrite (by omega), byteAt_append,
      ByteArray.size_append]
    by_cases hbefore : start ≤ i ∧ i < start + first.size
    · rw [if_neg (by omega), if_pos hbefore, if_pos (by omega), if_pos (by omega)]
    · by_cases hbehind : start + first.size ≤ i ∧ i < start + first.size + second.size
      · rw [if_pos hbehind, if_pos (by omega), if_neg (by omega)]
        congr 1
        omega
      · rw [if_neg hbehind, if_neg hbefore, if_neg (by omega)]

/-- Two stretches of a string, one behind the other, are put as one stretch. -/
theorem overwrite_slices {b data : ByteArray} {start pos n : Nat} (hin : pos + n ≤ data.size)
    (h : start + n ≤ b.size) (more : Nat) :
    overwrite (overwrite b start (slice data pos n)) (start + n) (slice data (pos + n) more) =
      overwrite b start (slice data pos (n + more)) := by
  have hsize : (slice data pos n).size = n := size_slice_of_le hin
  have hput := overwrite_overwrite (show start + (slice data pos n).size ≤ b.size by omega)
    (slice data (pos + n) more)
  rwa [hsize, slice_add] at hput

theorem overwrite_of_size_eq_zero {b piece : ByteArray} {start : Nat} (hstart : start ≤ b.size)
    (hpiece : piece.size = 0) : overwrite b start piece = b := by
  apply eq_of_byteAt
  · rw [size_overwrite hstart, hpiece]
    omega
  · intro i _
    rw [byteAt_overwrite hstart, if_neg (by omega)]

/-- What one read gives. -/
inductive ReadAnswer where
  | bytes (data : ByteArray)
  | interrupted
  | failed (e : StorageFailure)

namespace Reader

/-! ## Single reads -/

/-- A read that gives at most `n` bytes. -/
def answer (r : Reader) (n : Nat) (steps : List ReadStep) : ReadAnswer × Reader :=
  if r.content.size ≤ r.position then
    match r.ending with
    | none => (.bytes ByteArray.empty, { r with steps })
    | some e => (.failed e, { r with steps })
  else
    let n := min n (r.content.size - r.position)
    (.bytes (slice r.content r.position n), { r with position := r.position + n, steps })

/-- Ask for `asked` bytes once. -/
def read (r : Reader) (asked : Nat) : ReadAnswer × Reader :=
  match r.steps with
  | [] => r.answer asked []
  | .interrupted :: rest => (.interrupted, { r with steps := rest })
  | .most n :: rest => r.answer (min n asked) rest

/-- What is left of a reader: its script and its bytes. -/
def left (r : Reader) : Nat := r.steps.length + (r.content.size - r.position)

variable {r r' : Reader} {stop pos size : Nat} {steps rest : List ReadStep}

/-- Where a read gets to does not depend on where the reader is. -/
theorem reach_congr (hcontent : r'.content = r.content) (hending : r'.ending = r.ending) :
    r'.reach stop pos steps = r.reach stop pos steps := by
  have hend (rest : List ReadStep) : r'.atEnd rest = r.atEnd rest := by
    unfold atEnd
    rw [hcontent, hending]
  induction steps generalizing pos with
  | nil => rw [reach, reach, hcontent, hend]
  | cons step rest ih =>
    cases step with
    | interrupted => rw [reach, reach, ih]
    | most n => rw [reach, reach, ih, hcontent, hend]

/-- What one read of `asked` bytes is to the way that far. -/
inductive OneRead (r : Reader) (asked : Nat) : Prop where
  | interrupted (rest : List ReadStep)
      (read : r.read asked = (.interrupted, { r with steps := rest }))
      (less : rest.length < r.steps.length)
      (reach : r.reach (r.position + asked) r.position r.steps =
        r.reach (r.position + asked) r.position rest)
  | failed (e : StorageFailure) (rest : List ReadStep)
      (read : r.read asked = (.failed e, { r with steps := rest }))
      (reach : r.reach (r.position + asked) r.position r.steps = .error e)
  | nothing (data : ByteArray) (rest : List ReadStep) (empty : data.size = 0)
      (read : r.read asked = (.bytes data, { r with steps := rest }))
      (reach : r.reach (r.position + asked) r.position r.steps = .ok (r.position, rest))
  | something (n : Nat) (rest : List ReadStep) (pos : 0 < n) (le : n ≤ asked)
      (inside : r.position + n ≤ r.content.size) (less : rest.length ≤ r.steps.length)
      (read : r.read asked =
        (.bytes (slice r.content r.position n), { r with position := r.position + n, steps := rest }))
      (reach : r.reach (r.position + asked) r.position r.steps =
        r.reach (r.position + asked) (r.position + n) rest)

/-- A read at the end of the content. -/
theorem answer_atEnd (hinside : r.position ≤ r.content.size) (hend : r.content.size ≤ r.position)
    (n : Nat) (rest : List ReadStep) :
    (∃ e, r.answer n rest = (.failed e, { r with steps := rest }) ∧ r.atEnd rest = .error e) ∨
      (r.answer n rest = (.bytes ByteArray.empty, { r with steps := rest }) ∧
        r.atEnd rest = .ok (r.position, rest)) := by
  unfold answer atEnd
  rw [if_pos hend]
  cases r.ending with
  | none => exact .inr ⟨rfl, by rw [Nat.le_antisymm hinside hend]⟩
  | some e => exact .inl ⟨e, rfl, rfl⟩

theorem oneRead {asked : Nat} (hinside : r.position ≤ r.content.size) (hasked : 0 < asked) :
    OneRead r asked := by
  cases hsteps : r.steps with
  | nil =>
    have hread : r.read asked = r.answer asked [] := by rw [read, hsteps]
    by_cases hend : r.content.size ≤ r.position
    · have hreach : r.reach (r.position + asked) r.position r.steps = r.atEnd [] := by
        rw [hsteps, reach, if_neg (by omega)]
      rcases answer_atEnd hinside hend asked [] with ⟨e, hanswer, hatEnd⟩ | ⟨hanswer, hatEnd⟩
      · exact .failed e [] (hread.trans hanswer) (hreach.trans hatEnd)
      · exact .nothing _ [] ByteArray.size_empty (hread.trans hanswer) (hreach.trans hatEnd)
    · rw [answer, if_neg hend] at hread
      refine .something (min asked (r.content.size - r.position)) [] (by omega) (by omega) (by omega)
        (Nat.zero_le _) hread ?_
      rw [hsteps, reach, reach]
  | cons step rest =>
    cases step with
    | interrupted =>
      refine .interrupted rest (by rw [read, hsteps]) (by rw [hsteps]; exact Nat.lt_succ_self _) ?_
      rw [hsteps, reach, if_neg (by omega)]
    | most n =>
      have hread : r.read asked = r.answer (min n asked) rest := by rw [read, hsteps]
      have hless : rest.length ≤ r.steps.length := by
        rw [hsteps]
        exact Nat.le_succ _
      by_cases hend : r.content.size ≤ r.position
      · have hreach : r.reach (r.position + asked) r.position r.steps = r.atEnd rest := by
          rw [hsteps, reach, if_neg (by omega), if_pos hend]
        rcases answer_atEnd hinside hend (min n asked) rest with ⟨e, hanswer, hatEnd⟩ | ⟨hanswer, hatEnd⟩
        · exact .failed e rest (hread.trans hanswer) (hreach.trans hatEnd)
        · exact .nothing _ rest ByteArray.size_empty (hread.trans hanswer) (hreach.trans hatEnd)
      · rw [answer, if_neg hend] at hread
        by_cases hn : n = 0
        · subst hn
          simp only [Nat.zero_min, Nat.add_zero] at hread
          refine .nothing _ rest (size_slice_of_le (by omega)) hread ?_
          rw [hsteps, reach, if_neg (by omega), if_neg hend, if_pos rfl]
        · refine .something (min (min n asked) (r.content.size - r.position)) rest (by omega) (by omega)
            (by omega) hless hread ?_
          rw [hsteps, reach, if_neg (by omega), if_neg hend, if_neg hn]
          congr 1
          omega

/-! ## Filling a buffer -/

theorem left_of_interrupted {asked : Nat} (h : r.read asked = (.interrupted, r')) :
    r'.left < r.left := by
  unfold read at h
  unfold left
  split at h
  · unfold answer at h
    split at h
    · split at h <;> cases h
    · cases h
  · obtain ⟨-, rfl⟩ := Prod.mk.inj h
    rename_i hsteps
    rw [hsteps, List.length_cons]
    dsimp only
    omega
  · unfold answer at h
    split at h
    · split at h <;> cases h
    · cases h

theorem left_of_answer {n : Nat} {data : ByteArray} (h : r.answer n rest = (.bytes data, r'))
    (hdata : data.size ≠ 0) (hrest : rest.length ≤ r.steps.length) :
    r'.left < r.left ∧ r'.content = r.content ∧ r'.position = r.position + data.size ∧
      r.position < r.content.size := by
  unfold answer at h
  split at h
  · split at h
    · obtain ⟨hbytes, -⟩ := Prod.mk.inj h
      obtain rfl := ReadAnswer.bytes.inj hbytes
      exact absurd ByteArray.size_empty hdata
    · cases h
  · obtain ⟨hbytes, rfl⟩ := Prod.mk.inj h
    obtain rfl := ReadAnswer.bytes.inj hbytes
    rw [size_slice_of_le (by omega)] at hdata ⊢
    unfold left
    exact ⟨by dsimp only; omega, rfl, rfl, by omega⟩

theorem left_of_bytes {asked : Nat} {data : ByteArray} (h : r.read asked = (.bytes data, r'))
    (hdata : data.size ≠ 0) :
    r'.left < r.left ∧ r'.content = r.content ∧ r'.position = r.position + data.size ∧
      r.position < r.content.size := by
  unfold read at h
  split at h
  · exact left_of_answer h hdata (Nat.zero_le _)
  · cases h
  · rename_i hsteps
    exact left_of_answer h hdata (by rw [hsteps]; exact Nat.le_succ _)

/-- Read into a buffer that already holds `filled` bytes of a block of `size` bytes, until the block is
full or a read gives nothing: the bytes it holds then, the buffer and the reader. -/
def fill (r : Reader) (size : Nat) (buffer : ByteArray) (filled : Nat) :
    Except StorageFailure (Nat × ByteArray × Reader) :=
  if filled < size then
    match _h : r.read (size - filled) with
    | (.interrupted, r') => fill r' size buffer filled
    | (.failed e, _) => .error e
    | (.bytes data, r') =>
      if _hd : data.size = 0 then
        .ok (filled, buffer, r')
      else
        fill r' size (overwrite buffer filled data) (filled + data.size)
  else
    .ok (filled, buffer, r)
termination_by r.left
decreasing_by
  · exact left_of_interrupted _h
  · exact (left_of_bytes _h _hd).1

/-- The way to where the reader is takes no step. -/
theorem reach_self (hinside : pos ≤ r.content.size) : r.reach pos pos steps = .ok (pos, steps) := by
  rcases steps with _ | ⟨_ | _, rest⟩ <;> rw [reach] <;> simp [hinside]

/-- Filling a buffer gets where the way to the end of the block gets, and puts the bytes of that way into the
buffer. -/
theorem fill_eq {buffer : ByteArray} {filled : Nat} (hinside : r.position ≤ r.content.size)
    (hfilled : filled ≤ size) (hbuffer : size ≤ buffer.size) :
    r.fill size buffer filled =
      match r.reach (r.position + (size - filled)) r.position r.steps with
      | .error e => .error e
      | .ok (stop, rest) =>
        .ok (filled + (stop - r.position),
          overwrite buffer filled (slice r.content r.position (stop - r.position)),
          { r with position := stop, steps := rest }) := by
  -- by induction on what is left of the reader, which every read but the last makes less
  induction hleft : r.left using Nat.strongRecOn generalizing r buffer filled with
  | ind left ih =>
    subst hleft
    by_cases hlt : filled < size
    · cases oneRead hinside (Nat.sub_pos_of_lt hlt) with
      | interrupted rest hread hless hreach =>
        have hrest := @ih _ (left_of_interrupted hread) { r with steps := rest } buffer filled hinside
          hfilled hbuffer rfl
        have hsame : ({ r with steps := rest } : Reader).reach (r.position + (size - filled)) r.position
            rest = r.reach (r.position + (size - filled)) r.position rest := reach_congr rfl rfl
        dsimp only at hrest
        rw [hsame] at hrest
        rw [fill, if_pos hlt, hread, hreach]
        exact hrest
      | failed e rest hread hreach =>
        rw [fill, if_pos hlt, hread, hreach]
      | nothing data rest hempty hread hreach =>
        rw [fill, if_pos hlt, hread, hreach]
        dsimp only
        rw [dif_pos hempty, Nat.sub_self, Nat.add_zero, overwrite_of_size_eq_zero (by omega)
          (size_slice_of_le hinside)]
      | something n rest hpos hle hin hless hread hreach =>
        have hsize : (slice r.content r.position n).size = n := size_slice_of_le hin
        have hrest := @ih _ (left_of_bytes hread (by omega)).1
          { r with position := r.position + n, steps := rest }
          (overwrite buffer filled (slice r.content r.position n)) (filled + n)
          hin (by omega) (by rw [size_overwrite (by omega)]; omega) rfl
        have hsame : ({ r with position := r.position + n, steps := rest } : Reader).reach
            (r.position + n + (size - (filled + n))) (r.position + n) rest =
              r.reach (r.position + (size - filled)) (r.position + n) rest := by
          rw [show r.position + n + (size - (filled + n)) = r.position + (size - filled) by omega]
          exact reach_congr rfl rfl
        dsimp only at hrest
        rw [hsame] at hrest
        rw [fill, if_pos hlt, hread, hreach]
        dsimp only
        rw [dif_neg (by omega), hsize, hrest]
        cases hway : r.reach (r.position + (size - filled)) (r.position + n) rest with
        | error e => rfl
        | ok way =>
          obtain ⟨stop, rest'⟩ := way
          have hbounds := (reach_bounds (by omega) hway).2 hin
          dsimp only
          rw [overwrite_slices hin (by omega),
            show n + (stop - (r.position + n)) = stop - r.position by omega,
            show filled + n + (stop - (r.position + n)) = filled + (stop - r.position) by omega]
    -- a full buffer: the way to where the reader is
    · rw [fill, if_neg hlt, show r.position + (size - filled) = r.position by omega, reach_self hinside]
      dsimp only
      rw [Nat.sub_self, Nat.add_zero, overwrite_of_size_eq_zero (by omega) (size_slice_of_le hinside)]

/-- **A block is read into the front of a buffer.** -/
theorem fill_eq_readBlock {buffer : ByteArray} (hinside : r.position ≤ r.content.size)
    (hbuffer : size ≤ buffer.size) :
    r.fill size buffer 0 =
      match r.readBlock size with
      | .error e => .error e
      | .ok (data, r') => .ok (data.size, overwrite buffer 0 data, r') := by
  rw [fill_eq hinside (Nat.zero_le _) hbuffer, Nat.sub_zero, readBlock]
  cases hway : r.reach (r.position + size) r.position r.steps with
  | error e => rfl
  | ok way =>
    obtain ⟨stop, rest⟩ := way
    have hbounds := (reach_bounds (Nat.le_add_right _ _) hway).2 hinside
    have hstretch : r.content.extract r.position stop = slice r.content r.position (stop - r.position) := by
      rw [slice, Nat.add_sub_cancel' hbounds.1]
    dsimp only
    rw [hstretch, size_slice_of_le (by omega), Nat.zero_add]

/-! ## Visiting blocks -/

variable {σ ε : Type}

/-- A read does not change the content, and does not go back. -/
theorem read_onward (r : Reader) (asked : Nat) :
    (r.read asked).2.content = r.content ∧ r.position ≤ (r.read asked).2.position := by
  have hanswer (n : Nat) (rest : List ReadStep) :
      (r.answer n rest).2.content = r.content ∧ r.position ≤ (r.answer n rest).2.position := by
    unfold answer
    split
    · split <;> exact ⟨rfl, Nat.le_refl _⟩
    · exact ⟨rfl, Nat.le_add_right _ _⟩
  unfold read
  split
  · exact hanswer _ _
  · exact ⟨rfl, Nat.le_refl _⟩
  · exact hanswer _ _

/-- A buffer that was filled: the reader got on, if anything came. -/
theorem fill_onward {buffer buffer' : ByteArray} {filled n : Nat}
    (h : r.fill size buffer filled = .ok (n, buffer', r')) :
    r'.content = r.content ∧ r.position ≤ r'.position ∧
      (n ≠ filled → r.position < r.content.size ∧ r.position < r'.position) := by
  induction r, buffer, filled using fill.induct size with
  | case1 r buffer filled hlt next hread ih =>
    rw [fill, if_pos hlt, hread] at h
    have honward := r.read_onward (size - filled)
    rw [hread] at honward
    obtain ⟨hcontent, hle, hsome⟩ := ih h
    refine ⟨hcontent.trans honward.1, Nat.le_trans honward.2 hle, fun hn => ?_⟩
    have hgot := hsome hn
    rw [honward.1] at hgot
    exact ⟨Nat.lt_of_le_of_lt honward.2 hgot.1, Nat.lt_of_le_of_lt honward.2 hgot.2⟩
  | case2 r buffer filled hlt e next hread =>
    rw [fill, if_pos hlt, hread] at h
    cases h
  | case3 r buffer filled hlt data next hread hempty =>
    rw [fill, if_pos hlt, hread] at h
    dsimp only at h
    rw [dif_pos hempty] at h
    have honward := r.read_onward (size - filled)
    rw [hread] at honward
    obtain ⟨rfl, -, rfl⟩ : filled = n ∧ buffer = buffer' ∧ next = r' := by simpa using h
    exact ⟨honward.1, honward.2, fun hn => absurd rfl hn⟩
  | case4 r buffer filled hlt data next hread hsome ih =>
    rw [fill, if_pos hlt, hread] at h
    dsimp only at h
    rw [dif_neg hsome] at h
    obtain ⟨-, hcontent, hposition, hin⟩ := left_of_bytes hread hsome
    obtain ⟨hcontent', hle, -⟩ := ih h
    exact ⟨hcontent'.trans hcontent, by omega, fun _ => ⟨hin, by omega⟩⟩
  | case5 r buffer filled hfull =>
    rw [fill, if_neg hfull] at h
    obtain ⟨rfl, -, rfl⟩ : filled = n ∧ buffer = buffer' ∧ r = r' := by simpa using h
    exact ⟨rfl, Nat.le_refl _, fun hn => absurd rfl hn⟩

/-- Read the blocks of a reader into a buffer, and visit each, until one is short or empty, or a read or a
visit fails. -/
def visitBlocks (r : Reader) (lift : StorageFailure → ε) (visit : σ → ByteArray → Except ε Unit × σ)
    (size : Nat) (buffer : ByteArray) (s : σ) : Except ε Unit × σ × ByteArray :=
  match _h : r.fill size buffer 0 with
  | .error e => (.error (lift e), s, buffer)
  | .ok (n, buffer, r') =>
    if _hn : n = 0 then
      (.ok (), s, buffer)
    else
      match visit s (slice buffer 0 n) with
      | (.error e, s) => (.error e, s, buffer)
      | (.ok (), s) => if n < size then (.ok (), s, buffer) else visitBlocks r' lift visit size buffer s
termination_by r.content.size - r.position
decreasing_by
  obtain ⟨hcontent, -, hgot⟩ := fill_onward _h
  have := hgot _hn
  rw [hcontent]
  omega

/-- Visit in order, until a visit fails. -/
def visitEach (visit : σ → ByteArray → Except ε Unit × σ) (s : σ) :
    List ByteArray → Except ε Unit × σ
  | [] => (.ok (), s)
  | data :: rest =>
    match visit s data with
    | (.error e, s) => (.error e, s)
    | (.ok (), s) => visitEach visit s rest

/-- Visit all blocks that were delivered, then report the failure that ended them. -/
def visitDelivered (lift : StorageFailure → ε) (visit : σ → ByteArray → Except ε Unit × σ) (s : σ)
    (blocks : List ByteArray) (ending : Option StorageFailure) : Except ε Unit × σ :=
  match visitEach visit s blocks with
  | (.error e, s) => (.error e, s)
  | (.ok (), s) =>
    match ending with
    | some e => (.error (lift e), s)
    | none => (.ok (), s)

theorem visitDelivered_cons (lift : StorageFailure → ε) (visit : σ → ByteArray → Except ε Unit × σ) (s : σ)
    (data : ByteArray) (rest : List ByteArray) (ending : Option StorageFailure) :
    visitDelivered lift visit s (data :: rest) ending =
      match visit s data with
      | (.error e, s) => (.error e, s)
      | (.ok (), s) => visitDelivered lift visit s rest ending := by
  rw [visitDelivered, visitEach]
  rcases visit s data with ⟨e | ⟨⟩, s'⟩ <;> rfl

/-- Blocks that were read before stay in front. -/
theorem blocksFrom_eq (r : Reader) (size : Nat) (out : Array ByteArray) :
    r.blocksFrom size out = (out ++ (r.blocks size).1, (r.blocks size).2) := by
  -- for all that was read before, since it is more after every block, on both sides
  have hall : ∀ out, r.blocksFrom size out = (out ++ (r.blocks size).1, (r.blocks size).2) := by
    unfold blocks
    induction r, out using blocksFrom.induct size with
    | case1 r _ e hread =>
      intro out
      rw [blocksFrom, blocksFrom, hread]
      simp
    | case2 r _ data r' hread hempty =>
      intro out
      rw [blocksFrom, blocksFrom, hread]
      simp [hempty]
    | case3 r _ data r' hread hempty hshort =>
      intro out
      rw [blocksFrom, blocksFrom, hread]
      simp [hempty, hshort]
    | case4 r _ data r' hread hempty hlong ih =>
      intro out
      rw [blocksFrom, blocksFrom, hread]
      simp only [hempty, ↓reduceDIte, hlong, ↓reduceIte]
      rw [ih (out.push data), ih (#[].push data)]
      simp
  exact hall out

/-- The blocks of a reader, of which the first is read first. -/
theorem blocks_eq (r : Reader) (size : Nat) :
    r.blocks size =
      match r.readBlock size with
      | .error e => (#[], some e)
      | .ok (data, r') =>
        if data.size = 0 then (#[], none)
        else if data.size < size then (#[data], none)
        else (#[data] ++ (r'.blocks size).1, (r'.blocks size).2) := by
  rw [blocks, blocksFrom]
  cases hread : r.readBlock size with
  | error e => rfl
  | ok next =>
    obtain ⟨data, r'⟩ := next
    dsimp only
    by_cases hempty : data.size = 0
    · rw [dif_pos hempty, if_pos hempty]
    · rw [dif_neg hempty, if_neg hempty, blocksFrom_eq]
      rfl

/-- A block that was read: where the reader is then. -/
theorem position_of_readBlock {data : ByteArray} (hinside : r.position ≤ r.content.size)
    (h : r.readBlock size = .ok (data, r')) :
    r'.content = r.content ∧ r'.position = r.position + data.size ∧ r'.position ≤ r.content.size := by
  unfold readBlock at h
  split at h
  · cases h
  · rename_i stop rest hway
    obtain ⟨rfl, rfl⟩ := Prod.mk.inj (Except.ok.inj h)
    have hbounds := (reach_bounds (Nat.le_add_right _ _) hway).2 hinside
    refine ⟨rfl, ?_, hbounds.2⟩
    rw [ByteArray.size_extract]
    dsimp only
    omega

/-- **The loop sees the blocks of the reader**, whatever is left in the buffer. -/
theorem visitBlocks_eq (lift : StorageFailure → ε) (visit : σ → ByteArray → Except ε Unit × σ)
    {buffer : ByteArray} (hinside : r.position ≤ r.content.size) (hbuffer : size ≤ buffer.size) (s : σ) :
    ∃ buffer', buffer'.size = buffer.size ∧
      r.visitBlocks lift visit size buffer s =
        ((visitDelivered lift visit s (r.blocks size).1.toList (r.blocks size).2).1,
          (visitDelivered lift visit s (r.blocks size).1.toList (r.blocks size).2).2, buffer') := by
  -- by induction on what is left of the content, which every full block makes less
  induction hleft : r.content.size - r.position using Nat.strongRecOn generalizing r buffer s with
  | ind left ih =>
    subst hleft
    rw [visitBlocks, fill_eq_readBlock hinside hbuffer, blocks_eq]
    cases hread : r.readBlock size with
    | error e => exact ⟨buffer, rfl, rfl⟩
    | ok next =>
      obtain ⟨data, r'⟩ := next
      have hle := readBlock_size_le hread
      have hkept : (overwrite buffer 0 data).size = buffer.size := by
        rw [size_overwrite (Nat.zero_le _)]
        omega
      dsimp only
      by_cases hempty : data.size = 0
      · rw [dif_pos hempty, if_pos hempty]
        exact ⟨_, hkept, rfl⟩
      · rw [dif_neg hempty, if_neg hempty, slice_overwrite_zero]
        by_cases hshort : data.size < size
        · rw [if_pos hshort]
          simp only [visitDelivered_cons, if_pos hshort]
          rcases visit s data with ⟨e | ⟨⟩, s'⟩ <;> exact ⟨_, hkept, rfl⟩
        · obtain ⟨hcontent, hposition, hin⟩ := position_of_readBlock hinside hread
          rw [if_neg hshort]
          simp only [if_neg hshort, Array.toList_append, List.cons_append, List.nil_append,
            visitDelivered_cons]
          rcases visit s data with ⟨e | ⟨⟩, s'⟩
          · exact ⟨_, hkept, rfl⟩
          · obtain ⟨buffer', hsize, heq⟩ := @ih _ (by rw [hcontent]; omega) r' (overwrite buffer 0 data)
              (hcontent ▸ hin) (hkept ▸ hbuffer) s' rfl
            exact ⟨buffer', hsize.trans hkept, heq⟩

end Reader

end DedupImage
