import DedupImage.Proofs.Batch.Checkpoint
import DedupImage.Proofs.Batch.ReadLoops

/-!
# What the loops over blocks see

A reader that yields a string, in reads of any sizes that are not zero and with any interruptions, yields it
in its pieces, and if it fails at the end of the string, in those of its pieces that are full
(`Reader.Yields.blocks_eq`, `Reader.Yields.blocks_of_failing`). The pieces are the consecutive stretches of
the block size, and make up the string (`joined_pieces`).

Two loops go over the blocks of an item, the one that places them and the one of the pass that only takes
their identities. Both are written down here as a program runs them, the first with one buffer for the whole
batch, which is as large as the largest block and keeps what blocks before left in it
(`BatchState.placeAllThrough`, `Repeats.passOverThrough`), and both come to what placing and passing over a
batch come to. So neither depends on how a reader delivers its bytes
(`blocks_do_not_depend_on_reads`).
-/

namespace DedupImage

/-! ## Pieces -/

/-- Strings, one behind the other. -/
def joined : List ByteArray → ByteArray
  | [] => ByteArray.empty
  | first :: rest => first ++ joined rest

theorem getElem?_piecesFrom {data : ByteArray} {size start n i : Nat} (h : i < n) :
    (piecesFrom data size start n)[i]? = some (slice data (start + i * size) size) := by
  induction n generalizing start i with
  | zero => exact absurd h (Nat.not_lt_zero i)
  | succ n ih =>
    cases i with
    | zero => rw [piecesFrom, List.getElem?_cons_zero, Nat.zero_mul, Nat.add_zero]
    | succ i =>
      rw [piecesFrom, List.getElem?_cons_succ, ih (Nat.lt_of_succ_lt_succ h), Nat.succ_mul]
      congr 2
      omega

theorem take_piecesFrom (data : ByteArray) (size start : Nat) {k n : Nat} (h : k ≤ n) :
    (piecesFrom data size start n).take k = piecesFrom data size start k := by
  induction n generalizing start k with
  | zero =>
    obtain rfl := Nat.le_zero.mp h
    rfl
  | succ n ih =>
    cases k with
    | zero => rfl
    | succ k => rw [piecesFrom, piecesFrom, List.take_succ_cons, ih _ (Nat.le_of_succ_le_succ h)]

theorem joined_piecesFrom (data : ByteArray) (size start n : Nat) :
    joined (piecesFrom data size start n) = slice data start (n * size) := by
  induction n generalizing start with
  | zero =>
    apply eq_of_byteAt
    · rw [size_slice, piecesFrom, joined, ByteArray.size_empty]
      omega
    · intro i hi
      cases hi
  | succ n ih =>
    rw [piecesFrom, joined, ih, slice_add, Nat.succ_mul]
    congr 1
    omega

section Pieces

variable {data : ByteArray} {size : Nat}

@[simp] theorem length_pieces : (pieces data size).length = pieceCount data.size size :=
  length_piecesFrom _ _ _ _

/-- The pieces reach to the end of the string, and the last begins inside it. -/
theorem pieceCount_bounds (hsize : 0 < size) (length : Nat) :
    length ≤ pieceCount length size * size ∧ pieceCount length size * size < length + size := by
  have hdiv := Nat.div_add_mod (length + size - 1) size
  have hmod := Nat.mod_lt (length + size - 1) hsize
  unfold pieceCount
  rw [Nat.mul_comm]
  omega

theorem getElem?_pieces {i : Nat} (h : i < pieceCount data.size size) :
    (pieces data size)[i]? = some (slice data (i * size) size) := by
  rw [pieces, getElem?_piecesFrom h, Nat.zero_add]

/-- A piece is full, unless it is the last, and is not empty. -/
theorem size_piece (hsize : 0 < size) {i : Nat} (h : i < pieceCount data.size size) :
    0 < (slice data (i * size) size).size ∧ (slice data (i * size) size).size ≤ size ∧
      (i + 1 < pieceCount data.size size → (slice data (i * size) size).size = size) := by
  have hbounds := pieceCount_bounds hsize data.size
  have hthis : (i + 1) * size ≤ pieceCount data.size size * size := Nat.mul_le_mul_right _ h
  rw [Nat.succ_mul] at hthis
  rw [size_slice]
  refine ⟨by omega, by omega, fun hnext => ?_⟩
  have hnext : (i + 1 + 1) * size ≤ pieceCount data.size size * size := Nat.mul_le_mul_right _ hnext
  rw [Nat.succ_mul, Nat.succ_mul] at hnext
  omega

/-- The pieces make up the string. -/
theorem joined_pieces (hsize : 0 < size) : joined (pieces data size) = data := by
  have hbounds := pieceCount_bounds hsize data.size
  rw [pieces, joined_piecesFrom, slice, Nat.zero_add, ← extract_min_size, Nat.min_eq_right hbounds.1,
    ByteArray.extract_zero_size]

/-- The pieces that are full are the first ones. -/
theorem take_pieces (hsize : 0 < size) :
    (pieces data size).take (data.size / size) = piecesFrom data size 0 (data.size / size) := by
  refine take_piecesFrom _ _ _ ?_
  unfold pieceCount
  exact Nat.div_le_div_right (by omega)

end Pieces

namespace Reader

variable {r : Reader} {data : ByteArray} {size : Nat}

/-! ## Readers that fail -/

/-- A reader that yields a string from its first byte on, in reads that give something, with any
interruptions. What it does at the end is open. -/
structure Yields (r : Reader) (data : ByteArray) : Prop where
  content : r.content = data
  position : r.position = 0
  steps : .most 0 ∉ r.steps

/-- Of the rest of a reader that fails at the end of its content there are the full blocks, then the
failure. -/
theorem blocks_of_failing {e : StorageFailure} (hsize : 0 < size) (hinside : r.position ≤ r.content.size)
    (hending : r.ending = some e) (hsteps : .most 0 ∉ r.steps) :
    r.blocks size =
      ((piecesFrom r.content size r.position ((r.content.size - r.position) / size)).toArray, some e) := by
  induction hleft : r.content.size - r.position using Nat.strongRecOn generalizing r with
  | ind left ih =>
    subst hleft
    obtain ⟨rest, hrest, hreach⟩ := reach_cases hsteps (Nat.le_add_right r.position size) hinside
    rw [blocks_eq, readBlock]
    by_cases hfull : r.position + size ≤ r.content.size
    · rw [if_pos hfull] at hreach
      have hdata : (r.content.extract r.position (r.position + size)).size = size := size_slice_of_le hfull
      have hnext := @ih _ (by dsimp only; omega) { r with position := r.position + size, steps := rest }
        hfull hending hrest rfl
      rw [hreach]
      dsimp only at hnext ⊢
      rw [if_neg (by omega), if_neg (by omega), hnext,
        Nat.div_eq_sub_div hsize (show size ≤ r.content.size - r.position by omega), piecesFrom,
        Nat.sub_sub]
      simp [slice]
    · rw [if_neg hfull, atEnd, hending] at hreach
      rw [hreach, Nat.div_eq_of_lt (by omega)]
      rfl

namespace Yields

theorem inside (h : r.Yields data) : r.position ≤ r.content.size := by
  rw [h.position]
  exact Nat.zero_le _

theorem blocks_eq (h : r.Yields data) (hsize : 0 < size) (hending : r.ending = none) :
    r.blocks size = ((pieces data size).toArray, none) :=
  Delivers.blocks_eq ⟨h.content, h.position, hending, h.steps⟩ hsize

theorem blocks_of_failing {e : StorageFailure} (h : r.Yields data) (hsize : 0 < size)
    (hending : r.ending = some e) :
    r.blocks size = (((pieces data size).take (data.size / size)).toArray, some e) := by
  rw [Reader.blocks_of_failing hsize h.inside hending h.steps, h.content, h.position, Nat.sub_zero,
    take_pieces hsize]

end Yields

/-! ## Identities of blocks -/

/-- The identities and lengths of the blocks of a reader, read into a buffer of one block. -/
def identities (r : Reader) (identity : ByteArray → UInt64) (size : Nat) :
    Except StorageFailure (Array (UInt64 × Nat)) :=
  match r.visitBlocks id (fun ids data => (.ok (), ids.push (identity data, data.size))) size
    (zeros size) #[] with
  | (.error e, _, _) => .error e
  | (.ok (), ids, _) => .ok ids

theorem identities_eq (hinside : r.position ≤ r.content.size) (identity : ByteArray → UInt64) (size : Nat) :
    r.identities identity size =
      match r.blocks size with
      | (_, some e) => .error e
      | (blocks, none) => .ok (blocks.map fun data => (identity data, data.size)) := by
  have heach (datas : List ByteArray) (ids : Array (UInt64 × Nat)) :
      visitEach (ε := StorageFailure)
          (fun (ids : Array (UInt64 × Nat)) data => (.ok (), ids.push (identity data, data.size))) ids datas =
        (.ok (), ids ++ (datas.map fun data => (identity data, data.size)).toArray) := by
    induction datas generalizing ids with
    | nil => simp [visitEach]
    | cons data rest ih =>
      rw [visitEach]
      dsimp only
      rw [ih]
      simp
  have hbuffer : size ≤ (zeros size).size := Nat.le_of_eq (size_zeros size).symm
  obtain ⟨buffer, -, hvisit⟩ := visitBlocks_eq id
    (fun ids data => (.ok (), ids.push (identity data, data.size))) hinside hbuffer #[]
  rw [identities, hvisit, visitDelivered, heach]
  rcases r.blocks size with ⟨blocks, _ | e⟩
  · simp [← Array.toList_map]
  · rfl

end Reader

/-- The readers of items have not gone behind the end of their content. -/
def ReadersInside (opening : Nat) (items : List ScheduledItem) : Prop :=
  ∀ item ∈ items, ∀ r, item.source.reader opening = .ok r → r.position ≤ r.content.size

namespace Repeats

/-- Take in the identity and the length of the next block. -/
def Sighting.nextSight (s : Sighting) (sight : UInt64 × Nat) : Sighting :=
  let position := s.repeats.blockCount
  let key := sightingKey sight.1 sight.2
  match s.firstSeen[key]? with
  | some first => { s with repeats := ⟨position + 1, s.repeats.pairs.insert position first⟩ }
  | none =>
    { repeats := { s.repeats with blockCount := position + 1 }
      firstSeen := s.firstSeen.insert key position }

/-- `passOver` by the identities of the blocks of each item. -/
def passOverThrough (identity : ByteArray → UInt64) (s : Sighting) :
    List ScheduledItem → Except StorageFailure Sighting
  | [] => .ok s
  | item :: rest =>
    match item.source.reader 0 with
    | .error e => .error e
    | .ok reader =>
      match reader.identities identity item.blockSize with
      | .error e => .error e
      | .ok ids => passOverThrough identity (ids.foldl Sighting.nextSight s) rest

theorem passOverThrough_eq (identity : ByteArray → UInt64) (s : Sighting) {items : List ScheduledItem}
    (hinside : ReadersInside 0 items) : passOverThrough identity s items = passOver identity s items := by
  induction items generalizing s with
  | nil => rfl
  | cons item rest ih =>
    rw [passOverThrough, passOver]
    cases hreader : item.source.reader 0 with
    | error e => rfl
    | ok reader =>
      have hids := Reader.identities_eq (hinside item List.mem_cons_self reader hreader) identity
        item.blockSize
      dsimp only
      rw [hids]
      rcases reader.blocks item.blockSize with ⟨blocks, _ | e⟩
      · dsimp only
        rw [Array.foldl_map]
        exact ih _ fun i hi => hinside i (List.mem_cons_of_mem item hi)
      · rfl

end Repeats

/-! ## Placing blocks -/

namespace BatchState

variable {ι : Type} [Catalog ι] {s t : BatchState ι} {repeats : Repeats} {opening : Nat}

/-- Place the next block, and add its number to the list of its item. -/
def placeVisit (repeats : Repeats) (s : BatchState ι × Array BlockNum) (data : ByteArray) :
    Except Failure Unit × BatchState ι × Array BlockNum :=
  match s.1.placeNext repeats data with
  | (.error e, t) => (.error e, t, s.2)
  | (.ok b, t) => (.ok (), t, s.2.push b)

/-- Place the blocks of an item as they come through a buffer. -/
def placeItemThrough (s : BatchState ι) (repeats : Repeats) (opening : Nat) (buffer : ByteArray)
    (item : ScheduledItem) : Except Failure Unit × BatchState ι × ByteArray :=
  match item.source.reader opening with
  | .error e => (.error (.storage e), s, buffer)
  | .ok reader =>
    match reader.visitBlocks Failure.storage (placeVisit repeats) item.blockSize buffer (s, #[]) with
    | (.error e, (t, _), buffer) => (.error e, t, buffer)
    | (.ok (), (t, list), buffer) =>
      (.ok (), { t with lists := t.lists.setIfInBounds item.slot list }, buffer)

/-- Place items through one buffer. -/
def placeAllThrough (s : BatchState ι) (repeats : Repeats) (opening : Nat) (buffer : ByteArray) :
    List ScheduledItem → Except Failure Unit × BatchState ι × ByteArray
  | [] => (.ok (), s, buffer)
  | item :: rest =>
    match s.placeItemThrough repeats opening buffer item with
    | (.error e, t, buffer) => (.error e, t, buffer)
    | (.ok (), t, buffer) => placeAllThrough t repeats opening buffer rest

/-- Visiting blocks to place them is placing them. -/
theorem visitEach_placeVisit (s : BatchState ι) (repeats : Repeats) (list : Array BlockNum)
    (datas : List ByteArray) :
    ∃ list', Reader.visitEach (placeVisit repeats) (s, list) datas =
        ((s.placeBlocks repeats list datas).1.map fun _ => (), (s.placeBlocks repeats list datas).2, list') ∧
      ∀ numbers, (s.placeBlocks repeats list datas).1 = .ok numbers → list' = numbers := by
  induction datas generalizing s list with
  | nil => exact ⟨list, rfl, fun _ h => Except.ok.inj h⟩
  | cons data rest ih =>
    rw [Reader.visitEach, placeBlocks, placeVisit]
    dsimp only
    rcases s.placeNext repeats data with ⟨e | b, t⟩
    · exact ⟨list, rfl, fun numbers h => by cases h⟩
    · exact ih t (list.push b)

theorem placeItemThrough_eq (s : BatchState ι) (repeats : Repeats) {buffer : ByteArray}
    {item : ScheduledItem}
    (hinside : ∀ r, item.source.reader opening = .ok r → r.position ≤ r.content.size)
    (hbuffer : item.blockSize ≤ buffer.size) :
    ∃ buffer', buffer'.size = buffer.size ∧
      s.placeItemThrough repeats opening buffer item =
        ((s.placeItem repeats opening item).1, (s.placeItem repeats opening item).2, buffer') := by
  rw [placeItemThrough, placeItem]
  cases hreader : item.source.reader opening with
  | error e => exact ⟨buffer, rfl, rfl⟩
  | ok reader =>
    obtain ⟨buffer', hsize, hvisit⟩ := Reader.visitBlocks_eq Failure.storage (placeVisit repeats)
      (hinside reader hreader) hbuffer (s, #[])
    refine ⟨buffer', hsize, ?_⟩
    obtain ⟨list', heach, hlist⟩ := s.visitEach_placeVisit repeats #[] (reader.blocks item.blockSize).1.toList
    dsimp only
    rw [hvisit, Reader.visitDelivered, heach]
    rcases hblocks : s.placeBlocks repeats #[] (reader.blocks item.blockSize).1.toList with ⟨e | numbers, t⟩
    · rfl
    · rw [hblocks] at hlist
      obtain rfl := hlist numbers rfl
      cases (reader.blocks item.blockSize).2 <;> rfl

/-- **Placing a batch through one buffer is placing it.** -/
theorem placeAllThrough_eq (s : BatchState ι) (repeats : Repeats) {buffer : ByteArray}
    {items : List ScheduledItem} (hinside : ReadersInside opening items)
    (hbuffer : ∀ item ∈ items, item.blockSize ≤ buffer.size) :
    ∃ buffer', s.placeAllThrough repeats opening buffer items =
      ((s.placeAll repeats opening items).1, (s.placeAll repeats opening items).2, buffer') := by
  induction items generalizing s buffer with
  | nil => exact ⟨buffer, rfl⟩
  | cons item rest ih =>
    obtain ⟨buffer', hsize, hitem⟩ := s.placeItemThrough_eq repeats (hinside item List.mem_cons_self)
      (hbuffer item List.mem_cons_self)
    rw [placeAllThrough, placeAll, hitem]
    rcases s.placeItem repeats opening item with ⟨e | ⟨⟩, t⟩
    · exact ⟨buffer', rfl⟩
    · exact ih t (fun i hi => hinside i (List.mem_cons_of_mem item hi))
        fun i hi => hsize ▸ hbuffer i (List.mem_cons_of_mem item hi)

/-- Items behind others are placed after them, unless these failed. -/
theorem placeAll_append (s : BatchState ι) (repeats : Repeats) (opening : Nat)
    (before after : List ScheduledItem) :
    s.placeAll repeats opening (before ++ after) =
      match s.placeAll repeats opening before with
      | (.error e, t) => (.error e, t)
      | (.ok (), t) => t.placeAll repeats opening after := by
  induction before generalizing s with
  | nil => rfl
  | cons item before ih =>
    rw [List.cons_append, placeAll, placeAll]
    rcases s.placeItem repeats opening item with ⟨e | ⟨⟩, t⟩
    · rfl
    · exact ih t

variable {before after : List ScheduledItem} {item : ScheduledItem} {r : Reader} {data : ByteArray}

/-- An item whose reader yields a string and ends there. -/
theorem placeAll_of_yields (h : r.Yields data) (hending : r.ending = none)
    (hreader : item.source.reader opening = .ok r) (hsize : 0 < item.blockSize)
    (hbefore : s.placeAll repeats opening before = (.ok (), t)) :
    s.placeAll repeats opening (before ++ item :: after) =
      match t.placeBlocks repeats #[] (pieces data item.blockSize) with
      | (.error e, u) => (.error e, u)
      | (.ok list, u) =>
        { u with lists := u.lists.setIfInBounds item.slot list }.placeAll repeats opening after := by
  rw [placeAll_append, hbefore]
  dsimp only
  rw [placeAll, placeItem, hreader]
  dsimp only
  rw [h.blocks_eq hsize hending]
  dsimp only
  rcases t.placeBlocks repeats #[] (pieces data item.blockSize) with ⟨e | list, u⟩ <;> rfl

/-- An item whose reader yields a string and fails there: no list is delivered any more. -/
theorem placeAll_of_failing {e : StorageFailure} (h : r.Yields data) (hending : r.ending = some e)
    (hreader : item.source.reader opening = .ok r) (hsize : 0 < item.blockSize)
    (hbefore : s.placeAll repeats opening before = (.ok (), t)) :
    s.placeAll repeats opening (before ++ item :: after) =
        (match t.placeBlocks repeats #[]
          ((pieces data item.blockSize).take (data.size / item.blockSize)) with
        | (.error e', u) => (.error e', u)
        | (.ok _, u) => (.error (.storage e), u)) ∧
      (s.placeAll repeats opening (before ++ item :: after)).2.lists = t.lists := by
  have hlists := t.placeBlocks_lists repeats #[]
    ((pieces data item.blockSize).take (data.size / item.blockSize))
  rw [placeAll_append, hbefore]
  dsimp only
  rw [placeAll, placeItem, hreader]
  dsimp only
  rw [h.blocks_of_failing hsize hending]
  dsimp only
  rcases hblocks : t.placeBlocks repeats #[]
    ((pieces data item.blockSize).take (data.size / item.blockSize)) with ⟨e' | list, u⟩ <;>
    rw [hblocks] at hlists <;> exact ⟨rfl, hlists⟩

end BatchState

open Reader BatchState

/-- **Blocks do not depend on how a reader delivers its bytes.** -/
theorem blocks_do_not_depend_on_reads {ι : Type} [Catalog ι] (identity : ByteArray → UInt64)
    {data : ByteArray} {size : Nat} {r : Reader} (hsize : 0 < size) (h : r.Yields data) :
    -- the pieces are the consecutive stretches of the string, as many as it takes
    ((pieces data size).length = (data.size + size - 1) / size ∧
      (∀ i < (pieces data size).length, ∃ piece,
        (pieces data size)[i]? = some piece ∧ piece = slice data (i * size) size ∧
          0 < piece.size ∧ piece.size ≤ size ∧
          (i + 1 < (pieces data size).length → piece.size = size)) ∧
      joined (pieces data size) = data) ∧
    -- a reader that ends: every loop visits the pieces, whatever is in its buffer
    (r.ending = none →
      (∀ (σ ε : Type) (lift : StorageFailure → ε) (visit : σ → ByteArray → Except ε Unit × σ) (s : σ)
        (buffer : ByteArray), size ≤ buffer.size →
        ∃ buffer', r.visitBlocks lift visit size buffer s =
          ((visitEach visit s (pieces data size)).1, (visitEach visit s (pieces data size)).2, buffer')) ∧
      r.identities identity size = .ok ((pieces data size).map fun b => (identity b, b.size)).toArray ∧
      ∀ (s t : BatchState ι) repeats opening before item after,
        item.source.reader opening = .ok r → item.blockSize = size →
        s.placeAll repeats opening before = (.ok (), t) →
        s.placeAll repeats opening (before ++ item :: after) =
          match t.placeBlocks repeats #[] (pieces data size) with
          | (.error e, u) => (.error e, u)
          | (.ok list, u) =>
            { u with lists := u.lists.setIfInBounds item.slot list }.placeAll repeats opening after) ∧
    -- a reader that fails: every loop visits the full pieces and returns the failure
    (∀ e, r.ending = some e →
      (∀ (σ ε : Type) (lift : StorageFailure → ε) (visit : σ → ByteArray → Except ε Unit × σ) (s : σ)
        (buffer : ByteArray), size ≤ buffer.size →
        ∃ buffer', r.visitBlocks lift visit size buffer s =
          match visitEach visit s ((pieces data size).take (data.size / size)) with
          | (.error e', s') => (.error e', s', buffer')
          | (.ok (), s') => (.error (lift e), s', buffer')) ∧
      r.identities identity size = .error e ∧
      ∀ (s t : BatchState ι) repeats opening before item after,
        item.source.reader opening = .ok r → item.blockSize = size →
        s.placeAll repeats opening before = (.ok (), t) →
        s.placeAll repeats opening (before ++ item :: after) =
            (match t.placeBlocks repeats #[] ((pieces data size).take (data.size / size)) with
            | (.error e', u) => (.error e', u)
            | (.ok _, u) => (.error (.storage e), u)) ∧
          (s.placeAll repeats opening (before ++ item :: after)).2.lists = t.lists) ∧
    -- placing and passing over a batch are such loops
    (∀ (s : BatchState ι) repeats opening buffer items, ReadersInside opening items →
      (∀ item ∈ items, item.blockSize ≤ buffer.size) →
      ∃ buffer', s.placeAllThrough repeats opening buffer items =
        ((s.placeAll repeats opening items).1, (s.placeAll repeats opening items).2, buffer')) ∧
    (∀ s items, ReadersInside 0 items →
      Repeats.passOverThrough identity s items = Repeats.passOver identity s items) := by
  refine ⟨⟨length_pieces, fun i hi => ?_, joined_pieces hsize⟩, fun hending => ⟨?_, ?_, ?_⟩,
    fun e hending => ⟨?_, ?_, ?_⟩, fun s repeats opening buffer items => placeAllThrough_eq s repeats,
    fun s items => Repeats.passOverThrough_eq identity s⟩
  · rw [length_pieces] at hi
    obtain ⟨hpos, hle, hfull⟩ := size_piece hsize hi
    exact ⟨_, getElem?_pieces hi, rfl, hpos, hle, by rwa [length_pieces]⟩
  · intro σ ε lift visit s buffer hbuffer
    obtain ⟨buffer', -, hvisit⟩ := visitBlocks_eq lift visit h.inside hbuffer s
    refine ⟨buffer', ?_⟩
    rw [hvisit, h.blocks_eq hsize hending, visitDelivered]
    rcases visitEach visit s (pieces data size) with ⟨e | ⟨⟩, s'⟩ <;> rfl
  · rw [identities_eq h.inside, h.blocks_eq hsize hending]
    simp
  · rintro s t repeats opening before item after hreader rfl hbefore
    exact placeAll_of_yields h hending hreader hsize hbefore
  · intro σ ε lift visit s buffer hbuffer
    obtain ⟨buffer', -, hvisit⟩ := visitBlocks_eq lift visit h.inside hbuffer s
    refine ⟨buffer', ?_⟩
    rw [hvisit, h.blocks_of_failing hsize hending, visitDelivered]
    rcases visitEach visit s ((pieces data size).take (data.size / size)) with ⟨e' | ⟨⟩, s'⟩ <;> rfl
  · rw [identities_eq h.inside, h.blocks_of_failing hsize hending]
  · rintro s t repeats opening before item after hreader rfl hbefore
    exact placeAll_of_failing h hending hreader hsize hbefore

/-- Five bytes in blocks of two, whose first read gives one byte and whose second is interrupted: three blocks
come, and if the reader fails at the end, the two full ones, over what was in the buffer before. -/
theorem halting_reads_give_pieces :
    let data : ByteArray := ⟨#[1, 2, 3, 4, 5]⟩
    let r : Reader := { content := data, steps := [.most 1, .interrupted, .most 3] }
    let broken : Reader := { r with ending := some .connectionReset }
    let identity : ByteArray → UInt64 := fun b => (numberAt b 0 2).toUInt64
    let collect (seen : List ByteArray) (b : ByteArray) : Except StorageFailure Unit × List ByteArray :=
      (.ok (), seen ++ [b])
    r.identities identity 2 = .ok #[(513, 2), (1027, 2), (5, 1)] ∧
      broken.identities identity 2 = .error .connectionReset ∧
      ∃ buffer, broken.visitBlocks id collect 2 ⟨#[9, 9, 9]⟩ [] =
        (.error .connectionReset, [⟨#[1, 2]⟩, ⟨#[3, 4]⟩], buffer) := by
  intro data r broken identity collect
  have hyields : r.Yields data := ⟨rfl, rfl, by decide⟩
  have hbroken : broken.Yields data := ⟨rfl, rfl, by decide⟩
  obtain ⟨-, hends, -⟩ := blocks_do_not_depend_on_reads
    (ι := BlockIndex (TableSegment BlockNum) (TableSegment Location)) identity (by decide : 0 < 2) hyields
  obtain ⟨-, -, hfails, -⟩ := blocks_do_not_depend_on_reads
    (ι := BlockIndex (TableSegment BlockNum) (TableSegment Location)) identity (by decide : 0 < 2) hbroken
  obtain ⟨-, hids, -⟩ := hends rfl
  obtain ⟨hvisits, hfailure, -⟩ := hfails .connectionReset rfl
  obtain ⟨buffer, hvisit⟩ := hvisits _ _ id collect [] ⟨#[9, 9, 9]⟩ (by decide)
  have hfull : (pieces data 2).take (data.size / 2) = [⟨#[1, 2]⟩, ⟨#[3, 4]⟩] := by decide +kernel
  rw [hfull] at hvisit
  exact ⟨hids.trans (by decide +kernel), hfailure, buffer, hvisit⟩

end DedupImage
