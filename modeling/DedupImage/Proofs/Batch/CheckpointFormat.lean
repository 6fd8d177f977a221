import DedupImage.Proofs.Batch.Checkpoint
import DedupImage.Proofs.Image.CheckedOpening

/-!
# What a checkpoint is

A checkpoint is a magic number, a number of blocks, a number of pairs, and just so many pairs behind
them (`Checkpoint.HasLayout`). Reading one is two steps that this module takes apart. Any string that is
long enough, begins right and has the length that its number of pairs asks for is laid out so, in one way
only (`hasLayout_of_size`, `HasLayout.unique`); and whatever is laid out so is read by entering its pairs
in order (`HasLayout.parse_eq`, `enter`).

Entering stops at the first pair that is not in order or not in range, so that pair alone decides the
failure, and the number of blocks is compared only after all pairs went in. A later position may stand in
several pairs, and the pairs need not be sorted: the last pair of a position is the one that counts.
Writing sorts the pairs and writes each position once, so a checkpoint that was read is written as it was
if and only if it was sorted (`parse_accepts_exactly_the_format`).

The length is checked with a product of a number out of the file. In words of 64 bits that product may be
none, and then no length fits; it never wraps into one that does.
-/

namespace DedupImage

/-! ## Entries that are made in order -/

section Entering

/-- Enter pairs in order, later ones over earlier ones. -/
def enterAll (known : Std.TreeMap Nat Nat) (pairs : List (Nat × Nat)) : Std.TreeMap Nat Nat :=
  pairs.foldl (fun known p => known.insert p.1 p.2) known

/-- What is entered last is what is found. -/
theorem getElem?_enterAll (known : Std.TreeMap Nat Nat) (pairs : List (Nat × Nat)) (k : Nat) :
    (enterAll known pairs)[k]? = (pairs.reverse.lookup k).or known[k]? := by
  induction pairs generalizing known with
  | nil => rfl
  | cons p rest ih =>
    have hrest := ih (known.insert p.1 p.2)
    rw [enterAll, List.foldl_cons, ← enterAll, hrest, getElem?_insert, List.reverse_cons,
      List.lookup_append, List.lookup_cons, List.lookup_nil, Option.or_assoc]
    congr 1
    by_cases hk : k = p.1
    · simp [hk]
    · rw [if_neg hk, beq_eq_false_iff_ne.mpr hk, Option.none_or]

/-- Entering what a map holds makes the map. -/
theorem enterAll_toList (m : Std.TreeMap Nat Nat) : (enterAll ∅ m.toList).Equiv m := by
  refine Std.TreeMap.Equiv.of_forall_constGet?_eq fun k => ?_
  have hsorted : m.toList.Pairwise fun a b => a.1 < b.1 :=
    Std.TreeMap.ordered_keys_toList.imp Nat.compare_eq_lt.mp
  rw [getElem?_enterAll, Std.TreeMap.getElem?_emptyc, Option.or_none]
  cases hk : m[k]? with
  | none =>
    refine List.lookup_eq_none_iff.mpr fun p hp => ?_
    have hheld := Std.TreeMap.mem_toList_iff_getElem?_eq_some.mp (List.mem_reverse.mp hp)
    rw [bne_iff_ne]
    rintro rfl
    rw [hk] at hheld
    cases hheld
  | some v =>
    obtain ⟨before, after, hsplit⟩ :=
      List.append_of_mem (Std.TreeMap.mem_toList_iff_getElem?_eq_some.mpr hk)
    rw [hsplit] at hsorted ⊢
    refine List.lookup_eq_some_iff.mpr ⟨after.reverse, before.reverse, by simp, fun p hp => ?_⟩
    have hlater := List.rel_of_pairwise_cons (List.pairwise_append.mp hsorted).2.1
      (List.mem_reverse.mp hp)
    rw [bne_iff_ne]
    exact Nat.ne_of_lt hlater

/-- Pairs that ascend are found again as they were entered. -/
theorem toList_enterAll {pairs : List (Nat × Nat)} (h : pairs.Pairwise fun a b => a.1 < b.1) :
    (enterAll ∅ pairs).toList = pairs := by
  induction pairs using List.reverseRecOn with
  | nil => rfl
  | append_singleton front last ih =>
    obtain ⟨hfront, -, hlast⟩ := List.pairwise_append.mp h
    have hheld := ih hfront
    have hsplit : enterAll ∅ (front ++ [last]) = (enterAll ∅ front).insert last.1 last.2 :=
      List.foldl_append
    rw [hsplit, toList_insert_last, hheld]
    intro e he
    rw [hheld] at he
    exact hlast e he last (List.mem_singleton_self last)

end Entering

namespace Checkpoint

/-! ## Rows of pairs -/

/-- The bytes of pairs, one behind the other. -/
def pairsBytes : List (Nat × Nat) → ByteArray
  | [] => ByteArray.empty
  | (later, earlier) :: rest => numberBytes 8 later ++ numberBytes 8 earlier ++ pairsBytes rest

/-- The `n` pairs that are read from `start` on. -/
def pairsAt (data : ByteArray) (start : Nat) : (n : Nat) → List (Nat × Nat)
  | 0 => []
  | n + 1 => (numberAt data start 8, numberAt data (start + 8) 8) :: pairsAt data (start + pairSize) n

/-- Both positions of a pair are words. -/
def IsWords (p : Nat × Nat) : Prop :=
  p.1 < 2 ^ 64 ∧ p.2 < 2 ^ 64

@[simp] theorem size_pairsBytes (pairs : List (Nat × Nat)) :
    (pairsBytes pairs).size = pairs.length * pairSize := by
  induction pairs with
  | nil => simp [pairsBytes]
  | cons p rest ih =>
    simp only [pairsBytes, ByteArray.size_append, size_numberBytes, ih, List.length_cons, pairSize]
    omega

theorem pushPairs_eq_append (out : ByteArray) (pairs : List (Nat × Nat)) :
    pushPairs out pairs = out ++ pairsBytes pairs := by
  induction pairs generalizing out with
  | nil => simp [pushPairs, pairsBytes]
  | cons p rest ih =>
    rw [pushPairs, ih, pushNumber_eq, pushNumber_eq, pairsBytes, ByteArray.append_assoc,
      ByteArray.append_assoc, ByteArray.append_assoc]

@[simp] theorem length_pairsAt (data : ByteArray) (start n : Nat) :
    (pairsAt data start n).length = n := by
  induction n generalizing start with
  | zero => rfl
  | succ n ih => rw [pairsAt, List.length_cons, ih]

theorem isWords_of_mem_pairsAt {data : ByteArray} {start n : Nat} {p : Nat × Nat}
    (h : p ∈ pairsAt data start n) : IsWords p := by
  induction n generalizing start with
  | zero => cases h
  | succ n ih =>
    rcases List.mem_cons.mp h with rfl | h
    · exact ⟨numberAt_lt data start 8, numberAt_lt data (start + 8) 8⟩
    · exact ih h

/-- Pairs that were read are written as the bytes that they were read from. -/
theorem pairsBytes_pairsAt {data : ByteArray} {start n : Nat} (h : start + n * pairSize ≤ data.size) :
    pairsBytes (pairsAt data start n) = slice data start (n * pairSize) := by
  unfold pairSize at h ⊢
  induction n generalizing start with
  | zero =>
    apply eq_of_byteAt
    · rw [size_slice_of_le h, size_pairsBytes]
      rfl
    · intro i hi
      cases hi
  | succ n ih =>
    rw [pairsAt, pairsBytes, ih (by simp only [pairSize]; omega), numberBytes_numberAt (by omega),
      numberBytes_numberAt (by omega), slice_add, pairSize, slice_add]
    congr 1
    omega

/-- Pairs that were written are read as they were. -/
theorem pairsAt_pairsBytes {pairs : List (Nat × Nat)} (h : ∀ p ∈ pairs, IsWords p)
    (before : ByteArray) :
    pairsAt (before ++ pairsBytes pairs) before.size pairs.length = pairs := by
  induction pairs generalizing before with
  | nil => rfl
  | cons p rest ih =>
    obtain ⟨hlater, hearlier⟩ := h p List.mem_cons_self
    have hsplit : before ++ pairsBytes (p :: rest) =
        before ++ numberBytes 8 p.1 ++ numberBytes 8 p.2 ++ pairsBytes rest := by
      rw [pairsBytes, ByteArray.append_assoc, ByteArray.append_assoc, ByteArray.append_assoc]
    have hfirst : numberAt (before ++ pairsBytes (p :: rest)) before.size 8 = p.1 := by
      rw [hsplit, ByteArray.append_assoc]
      exact numberAt_numberBytes before _ hlater
    have hsecond : numberAt (before ++ pairsBytes (p :: rest)) (before.size + 8) 8 = p.2 := by
      have hread := numberAt_numberBytes (before ++ numberBytes 8 p.1) (pairsBytes rest)
        (show p.2 < 256 ^ 8 from hearlier)
      rwa [← hsplit, ByteArray.size_append, size_numberBytes] at hread
    have hrest := ih (fun q hq => h q (List.mem_cons_of_mem p hq))
      (before ++ numberBytes 8 p.1 ++ numberBytes 8 p.2)
    rw [← hsplit, ByteArray.size_append, ByteArray.size_append, size_numberBytes,
      size_numberBytes] at hrest
    rw [List.length_cons, pairsAt, hfirst, hsecond, pairSize, hrest]

/-! ## The layout -/

/-- A string is a checkpoint of some number of blocks with some pairs, all of them words. -/
structure HasLayout (data : ByteArray) (blockCount : Nat) (pairs : List (Nat × Nat)) : Prop where
  count_lt : blockCount < 2 ^ 64
  length_lt : pairs.length < 2 ^ 64
  words : ∀ p ∈ pairs, IsWords p
  eq : data = magic ++ numberBytes 8 blockCount ++ numberBytes 8 pairs.length ++ pairsBytes pairs

namespace HasLayout

variable {data : ByteArray} {n taken : Nat} {pairs : List (Nat × Nat)}

theorem size_eq (h : HasLayout data taken pairs) :
    data.size = headerSize + pairs.length * pairSize := by
  rw [h.eq]
  simp only [ByteArray.size_append, size_numberBytes, size_pairsBytes]
  rfl

theorem begins (h : HasLayout data taken pairs) : holdsAt data 0 magic = true := by
  rw [h.eq]
  apply holdsAt_append
  apply holdsAt_append
  apply holdsAt_append
  decide

theorem taken_eq (h : HasLayout data taken pairs) : numberAt data 8 8 = taken := by
  have hread := numberAt_numberBytes magic (numberBytes 8 pairs.length ++ pairsBytes pairs)
    (show taken < 256 ^ 8 from h.count_lt)
  rwa [← ByteArray.append_assoc, ← h.eq] at hread

theorem length_eq (h : HasLayout data taken pairs) : numberAt data 16 8 = pairs.length := by
  have hread := numberAt_numberBytes (magic ++ numberBytes 8 taken) (pairsBytes pairs)
    (show pairs.length < 256 ^ 8 from h.length_lt)
  rwa [← h.eq, ByteArray.size_append, size_numberBytes] at hread

theorem pairs_eq (h : HasLayout data taken pairs) :
    pairsAt data headerSize pairs.length = pairs := by
  have hread := pairsAt_pairsBytes h.words
    (magic ++ numberBytes 8 taken ++ numberBytes 8 pairs.length)
  rwa [← h.eq] at hread

/-- A string is laid out in one way only. -/
theorem unique {taken' : Nat} {pairs' : List (Nat × Nat)} (h : HasLayout data taken pairs)
    (h' : HasLayout data taken' pairs') : taken = taken' ∧ pairs = pairs' := by
  refine ⟨h.taken_eq.symm.trans h'.taken_eq, ?_⟩
  have hlength := h.length_eq.symm.trans h'.length_eq
  rw [← h.pairs_eq, ← h'.pairs_eq, hlength]

end HasLayout

/-- What is long enough, begins right and has the length that its number of pairs asks for is laid out
as a checkpoint. -/
theorem hasLayout_of_size {data : ByteArray} (hmagic : holdsAt data 0 magic = true)
    (hsize : data.size = headerSize + numberAt data 16 8 * pairSize) :
    HasLayout data (numberAt data 8 8) (pairsAt data headerSize (numberAt data 16 8)) where
  count_lt := numberAt_lt data 8 8
  length_lt := by
    rw [length_pairsAt]
    exact numberAt_lt data 16 8
  words p hp := isWords_of_mem_pairsAt hp
  eq := by
    have hheader : 24 ≤ data.size := Nat.le_trans (Nat.le_add_right _ _) (Nat.le_of_eq hsize.symm)
    have hbegins : magic = slice data 0 8 := (holdsAt_iff_slice.mp hmagic).2.symm
    have hwhole : slice data 0 (headerSize + numberAt data 16 8 * pairSize) = data := by
      rw [← hsize, slice, Nat.zero_add, ByteArray.extract_zero_size]
    rw [length_pairsAt, numberBytes_numberAt (by omega), numberBytes_numberAt (by omega),
      pairsBytes_pairsAt (Nat.le_of_eq hsize.symm), hbegins, slice_add 0 8 8, slice_add 0 16 8]
    exact ((slice_add 0 headerSize _).trans hwhole).symm

/-! ## Reading the pairs -/

/-- The pair may stand in a checkpoint of `n` blocks. -/
def Fits (n : Nat) (p : Nat × Nat) : Prop :=
  p.2 < p.1 ∧ p.1 < n

instance (n : Nat) (p : Nat × Nat) : Decidable (Fits n p) :=
  inferInstanceAs (Decidable (_ ∧ _))

/-- What a pair that may not stand there is reported as. -/
def refusal (n : Nat) (p : Nat × Nat) : Failure :=
  if n ≤ p.1 then .resumeOutOfRange p.1 n else .corruption (.resumeOrder p.1 p.2)

/-- Enter pairs in order, up to the first that may not stand in a checkpoint of `n` blocks. -/
def enter (n : Nat) (known : Std.TreeMap Nat Nat) :
    List (Nat × Nat) → Except Failure (Std.TreeMap Nat Nat)
  | [] => .ok known
  | p :: rest =>
    if Fits n p then enter n (known.insert p.1 p.2) rest else .error (refusal n p)

/-- Reading pairs is entering the pairs that are there. -/
theorem readPairs_eq (data : ByteArray) (n start : Nat) (known : Std.TreeMap Nat Nat) (count : Nat) :
    readPairs data n start known count = enter n known (pairsAt data start count) := by
  induction count generalizing start known with
  | zero => rfl
  | succ count ih =>
    have hfits : Fits n (numberAt data start 8, numberAt data (start + 8) 8) ↔
        numberAt data (start + 8) 8 < numberAt data start 8 ∧ numberAt data start 8 < n := Iff.rfl
    rw [readPairs, pairsAt, enter, ih]
    simp only [refusal, hfits]
    by_cases hrange : n ≤ numberAt data start 8
    · rw [if_pos hrange, if_neg (by omega), if_pos hrange]
    · by_cases horder : numberAt data start 8 ≤ numberAt data (start + 8) 8
      · rw [if_neg hrange, if_pos horder, if_neg (by omega), if_neg hrange]
      · rw [if_neg hrange, if_neg horder, if_pos (by omega)]

variable {data : ByteArray} {n taken : Nat} {pairs : List (Nat × Nat)} {r : Repeats}

theorem enter_of_fits (h : ∀ p ∈ pairs, Fits n p) (known : Std.TreeMap Nat Nat) :
    enter n known pairs = .ok (enterAll known pairs) := by
  induction pairs generalizing known with
  | nil => rfl
  | cons p rest ih =>
    have hrest := ih (fun q hq => h q (List.mem_cons_of_mem p hq)) (known.insert p.1 p.2)
    rw [enter, if_pos (h p List.mem_cons_self), hrest]
    rfl

/-- The first pair that may not stand there decides. -/
theorem enter_of_first {before rest : List (Nat × Nat)} {p : Nat × Nat}
    (hbefore : ∀ q ∈ before, Fits n q) (hp : ¬ Fits n p) (known : Std.TreeMap Nat Nat) :
    enter n known (before ++ p :: rest) = .error (refusal n p) := by
  induction before generalizing known with
  | nil => rw [List.nil_append, enter, if_neg hp]
  | cons q before ih =>
    rw [List.cons_append, enter, if_pos (hbefore q List.mem_cons_self)]
    exact ih (fun q' hq' => hbefore q' (List.mem_cons_of_mem q hq')) _

/-- If all pairs go in, all of them may stand there. -/
theorem fits_of_enter {known m : Std.TreeMap Nat Nat} (h : enter n known pairs = .ok m) :
    ∀ p ∈ pairs, Fits n p := by
  induction pairs generalizing known with
  | nil => exact fun p hp => absurd hp List.not_mem_nil
  | cons p rest ih =>
    rw [enter] at h
    split at h
    · exact List.forall_mem_cons.mpr ⟨‹_›, ih h⟩
    · cases h

/-! ## Reading a checkpoint -/

/-- Once the pairs went in, compare the number of blocks with that of the batch. -/
def compareCounts (taken n : Nat) : Except Failure (Std.TreeMap Nat Nat) → Except Failure Repeats
  | .error e => .error e
  | .ok m => if taken = n then .ok ⟨n, m⟩ else .error (.corruption (.resumeCount taken n))

/-- What is laid out as a checkpoint is read by entering its pairs; the number of blocks is compared
last. -/
theorem HasLayout.parse_eq (h : HasLayout data taken pairs) (n : Nat) :
    parse data n = compareCounts taken n (enter n ∅ pairs) := by
  have hsize := h.size_eq
  unfold parse
  rw [if_neg (by omega), if_pos h.begins]
  dsimp only
  rw [h.taken_eq, h.length_eq, if_pos (by omega), readPairs_eq, h.pairs_eq]
  cases enter n ∅ pairs <;> rfl

theorem HasLayout.parse_of_fits (h : HasLayout data n pairs) (hfits : ∀ p ∈ pairs, Fits n p) :
    parse data n = .ok ⟨n, enterAll ∅ pairs⟩ := by
  rw [h.parse_eq, enter_of_fits hfits]
  exact if_pos rfl

/-- What is laid out as a checkpoint and read without a failure is one of the batch. -/
theorem HasLayout.of_parse (h : HasLayout data taken pairs) (hr : parse data n = .ok r) :
    taken = n ∧ (∀ p ∈ pairs, Fits n p) ∧ r = ⟨n, enterAll ∅ pairs⟩ := by
  rw [h.parse_eq] at hr
  cases henter : enter n ∅ pairs with
  | error e =>
    rw [henter] at hr
    cases hr
  | ok m =>
    have hfits := fits_of_enter henter
    rw [enter_of_fits hfits] at hr
    unfold compareCounts at hr
    dsimp only at hr
    split at hr
    · exact ⟨‹_›, hfits, (Except.ok.inj hr).symm⟩
    · cases hr

/-- Whatever is read without a failure is laid out as a checkpoint. -/
theorem exists_layout_of_parse (h : parse data n = .ok r) :
    ∃ taken pairs, HasLayout data taken pairs := by
  unfold parse at h
  by_cases hsize : data.size < headerSize
  · rw [if_pos hsize] at h
    cases h
  by_cases hmagic : holdsAt data 0 magic = true
  · rw [if_neg hsize, if_pos hmagic] at h
    dsimp only at h
    by_cases hheld : numberAt data 16 8 * pairSize = data.size - headerSize
    · exact ⟨_, _, hasLayout_of_size hmagic (by omega)⟩
    · rw [if_neg hheld] at h
      cases h
  · rw [if_neg hsize, if_neg hmagic] at h
    cases h

/-- What is found again was among the pairs that were entered. -/
theorem fits_of_enterAll (hfits : ∀ p ∈ pairs, Fits n p) {p : Nat × Nat}
    (hheld : (enterAll ∅ pairs)[p.1]? = some p.2) : Fits n p := by
  rw [getElem?_enterAll, Std.TreeMap.getElem?_emptyc, Option.or_none] at hheld
  obtain ⟨before, after, hsplit, -⟩ := List.lookup_eq_some_iff.mp hheld
  refine hfits p (List.mem_reverse.mp ?_)
  rw [hsplit]
  exact List.mem_append_right _ List.mem_cons_self

/-! ## Writing a checkpoint -/

/-- What is written is laid out as a checkpoint. -/
theorem hasLayout_bytes (h : ∀ p ∈ r.toList, Fits r.blockCount p) (hcount : r.blockCount < 2 ^ 64) :
    HasLayout (bytes r) r.blockCount r.toList where
  count_lt := hcount
  length_lt := Nat.lt_of_le_of_lt (Repeats.length_toList_le fun p hp => (h p hp).2) hcount
  words p hp := by
    obtain ⟨hearlier, hlater⟩ := h p hp
    exact ⟨by omega, by omega⟩
  eq := by
    unfold bytes
    dsimp only
    rw [pushPairs_eq_append, pushNumber_eq, pushNumber_eq]

/-- A checkpoint that was read is written as it was if and only if its pairs ascend. -/
theorem HasLayout.bytes_eq_iff (h : HasLayout data n pairs) (hfits : ∀ p ∈ pairs, Fits n p) :
    bytes ⟨n, enterAll ∅ pairs⟩ = data ↔ pairs.Pairwise fun a b => a.1 < b.1 := by
  constructor
  · intro hbytes
    have hentered : ∀ p ∈ (enterAll ∅ pairs).toList, Fits n p := fun p hp =>
      fits_of_enterAll hfits (Std.TreeMap.mem_toList_iff_getElem?_eq_some.mp hp)
    have hwritten := hasLayout_bytes (r := ⟨n, enterAll ∅ pairs⟩) hentered h.count_lt
    rw [hbytes] at hwritten
    rw [(h.unique hwritten).2]
    exact Std.TreeMap.ordered_keys_toList.imp Nat.compare_eq_lt.mp
  · intro hsorted
    have hheld : Repeats.toList ⟨n, enterAll ∅ pairs⟩ = pairs := toList_enterAll hsorted
    rw [h.eq]
    unfold bytes
    dsimp only
    rw [hheld, pushPairs_eq_append, pushNumber_eq, pushNumber_eq]

/-- What is written is read as it was. -/
theorem parse_bytes_of_fits (h : ∀ p ∈ r.toList, Fits r.blockCount p) (hcount : r.blockCount < 2 ^ 64) :
    ∃ m, parse (bytes r) r.blockCount = .ok ⟨r.blockCount, m⟩ ∧ m.Equiv r.pairs :=
  ⟨enterAll ∅ r.toList, (hasLayout_bytes h hcount).parse_of_fits h, enterAll_toList r.pairs⟩

/-- The length check in words of 64 bits: a product that is no word is no length. -/
theorem product?_eq_some_iff {count held : Nat} (hcount : count < 2 ^ 64) (hheld : held < 2 ^ 64) :
    ImageReader.product? count.toUInt64 pairSize.toUInt64 = some held.toUInt64 ↔
      count * pairSize = held := by
  have hpair : pairSize.toUInt64.toNat = pairSize := rfl
  have hword : count.toUInt64.toNat = count := toNat_toUInt64 hcount
  by_cases hfit : count * pairSize < 2 ^ 64
  · obtain ⟨w, hw, hvalue⟩ := ImageReader.product?_eq (a := count.toUInt64) (b := pairSize.toUInt64)
      (by rw [hword, hpair]; exact hfit)
    rw [hword, hpair] at hvalue
    rw [hw, Option.some_inj, ← UInt64.toNat_inj, hvalue, toNat_toUInt64 hheld]
  · have hnone : ImageReader.product? count.toUInt64 pairSize.toUInt64 = none := by
      unfold ImageReader.product?
      rw [hword, hpair, if_neg hfit]
    rw [hnone]
    constructor
    · intro h
      cases h
    · omega

/-- **Reading accepts the format and nothing else, and it undoes writing.** -/
theorem parse_accepts_exactly_the_format :
    -- accepted is what has the format and nothing but pairs in order and in range
    (∀ data n, (∃ r, parse data n = .ok r) ↔
      ∃ pairs, HasLayout data n pairs ∧ ∀ p ∈ pairs, p.2 < p.1 ∧ p.1 < n) ∧
    -- of several pairs of one later position the last counts
    (∀ data n r pairs, parse data n = .ok r → HasLayout data n pairs →
      r.blockCount = n ∧ ∀ later, r.earlier? later = pairs.reverse.lookup later) ∧
    -- the first bad pair decides the failure, whatever the number of blocks
    (∀ data n taken before p rest, HasLayout data taken (before ++ p :: rest) →
      (∀ q ∈ before, q.2 < q.1 ∧ q.1 < n) → ¬ (p.2 < p.1 ∧ p.1 < n) →
      parse data n = .error
        (if n ≤ p.1 then .resumeOutOfRange p.1 n else .corruption (.resumeOrder p.1 p.2))) ∧
    -- the number of blocks is compared last
    (∀ data n taken pairs, HasLayout data taken pairs → (∀ p ∈ pairs, p.2 < p.1 ∧ p.1 < n) →
      taken ≠ n → parse data n = .error (.corruption (.resumeCount taken n))) ∧
    -- a string has the layout if it begins right and its length is that of its pairs, also in words
    (∀ data, (∃ taken pairs, HasLayout data taken pairs) ↔
      headerSize ≤ data.size ∧ holdsAt data 0 magic = true ∧
        numberAt data 16 8 * pairSize = data.size - headerSize) ∧
    (∀ data : ByteArray, data.size < 2 ^ 64 →
      (ImageReader.product? (numberAt data 16 8).toUInt64 pairSize.toUInt64 =
          some (data.size - headerSize).toUInt64 ↔
        numberAt data 16 8 * pairSize = data.size - headerSize)) ∧
    -- what is written is read as it was
    (∀ r : Repeats, r.blockCount < 2 ^ 64 →
      (∀ later earlier, r.earlier? later = some earlier → earlier < later ∧ later < r.blockCount) →
      ∃ r', parse (bytes r) r.blockCount = .ok r' ∧ r'.blockCount = r.blockCount ∧
        r'.pairs.Equiv r.pairs) ∧
    -- what is read is written as it was only if it was sorted
    (∀ data n r pairs, parse data n = .ok r → HasLayout data n pairs →
      (bytes r = data ↔ pairs.Pairwise fun a b => a.1 < b.1)) := by
  refine ⟨fun data n => ⟨?_, ?_⟩, ?_, ?_, ?_, fun data => ⟨?_, ?_⟩, ?_, ?_, ?_⟩
  · rintro ⟨r, hr⟩
    obtain ⟨taken, pairs, hlaid⟩ := exists_layout_of_parse hr
    obtain ⟨rfl, hfits, -⟩ := hlaid.of_parse hr
    exact ⟨pairs, hlaid, hfits⟩
  · rintro ⟨pairs, hlaid, hfits⟩
    exact ⟨_, hlaid.parse_of_fits hfits⟩
  · intro data n r pairs hr hlaid
    obtain ⟨-, -, rfl⟩ := hlaid.of_parse hr
    refine ⟨rfl, fun later => ?_⟩
    rw [Repeats.earlier?, getElem?_enterAll, Std.TreeMap.getElem?_emptyc, Option.or_none]
  · intro data n taken before p rest hlaid hbefore hp
    rw [hlaid.parse_eq, enter_of_first hbefore hp]
    rfl
  · intro data n taken pairs hlaid hfits htaken
    rw [hlaid.parse_eq, enter_of_fits hfits]
    exact if_neg htaken
  · rintro ⟨taken, pairs, hlaid⟩
    have hsize := hlaid.size_eq
    refine ⟨by omega, hlaid.begins, ?_⟩
    rw [hlaid.length_eq]
    omega
  · rintro ⟨hheader, hmagic, hsize⟩
    exact ⟨_, _, hasLayout_of_size hmagic (by omega)⟩
  · intro data hsize
    exact product?_eq_some_iff (numberAt_lt data 16 8) (by omega)
  · intro r hcount hordered
    have hfits : ∀ p ∈ r.toList, Fits r.blockCount p := fun p hp =>
      hordered p.1 p.2 (Std.TreeMap.mem_toList_iff_getElem?_eq_some.mp hp)
    obtain ⟨m, hm, hequiv⟩ := parse_bytes_of_fits hfits hcount
    exact ⟨_, hm, rfl, hequiv⟩
  · intro data n r pairs hr hlaid
    obtain ⟨-, hfits, rfl⟩ := hlaid.of_parse hr
    exact hlaid.bytes_eq_iff hfits

/-- A checkpoint of four blocks whose pairs are not sorted, and one of whose positions stands in two of
them. -/
def unsorted : ByteArray :=
  magic ++ numberBytes 8 4 ++ numberBytes 8 3 ++ pairsBytes [(3, 1), (2, 0), (3, 2)]

theorem hasLayout_unsorted : HasLayout unsorted 4 [(3, 1), (2, 0), (3, 2)] where
  count_lt := by decide
  length_lt := by decide
  words := by unfold IsWords; decide
  eq := rfl

/-- It is accepted, the last pair counts, and it is not written so again. For three blocks its first pair
is out of range, and for five it is of the wrong batch. -/
theorem unsorted_is_accepted :
    (∃ r, parse unsorted 4 = .ok r ∧ r.blockCount = 4 ∧ r.earlier? 3 = some 2 ∧ bytes r ≠ unsorted) ∧
    parse unsorted 3 = .error (.resumeOutOfRange 3 3) ∧
    parse unsorted 5 = .error (.corruption (.resumeCount 4 5)) ∧
    (∃ r, parse (bytes ⟨4, (∅ : Std.TreeMap Nat Nat).insert 3 1⟩) 4 = .ok r ∧ r.blockCount = 4) := by
  obtain ⟨haccepts, hlast, hfirst, hcount, -, -, hundoes, hsorted⟩ := parse_accepts_exactly_the_format
  obtain ⟨r, hr⟩ := (haccepts unsorted 4).mpr ⟨_, hasLayout_unsorted, by decide⟩
  obtain ⟨hblocks, hearlier⟩ := hlast _ _ _ _ hr hasLayout_unsorted
  refine ⟨⟨r, hr, hblocks, (hearlier 3).trans rfl, ?_⟩, ?_, ?_, ?_⟩
  · rw [Ne, hsorted _ _ _ _ hr hasLayout_unsorted]
    decide
  · exact hfirst unsorted 3 4 [] (3, 1) _ hasLayout_unsorted (by decide) (by decide)
  · exact hcount unsorted 5 4 _ hasLayout_unsorted (by decide) (by decide)
  · obtain ⟨r', hr', hsame, -⟩ := hundoes ⟨4, (∅ : Std.TreeMap Nat Nat).insert 3 1⟩ (by decide) (by
      intro later earlier h
      rw [Repeats.earlier?, getElem?_insert, Std.TreeMap.getElem?_emptyc] at h
      split at h
      · subst later
        obtain rfl := Option.some.inj h
        decide
      · cases h)
    exact ⟨r', hr', hsame⟩

end Checkpoint

end DedupImage
