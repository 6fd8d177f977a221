import DedupImage.Batch.Checkpoint
import DedupImage.Proofs.Batch.Lists
import Mathlib.Data.List.Pairwise

/-!
# Checkpoints are read as they were written

The pass over a batch meets the blocks in order, so every pair that it finds has a later position than
all pairs before it, an earlier one that is really earlier, and both inside the batch (`Repeats.Forward`,
`Repeats.forward_of_find`). These are the checks that a checkpoint has to stand, and the pairs come back
in the order in which they were found: a checkpoint of what a pass found is read as the very same repeats
(`Checkpoint.parse_bytes`).

How many blocks there are is counted twice, from the lengths that the sources claim and from what they
deliver. The counts agree for sources that deliver what they claim (`ScheduledItem.size_delivery`,
`Repeats.find_of_steady`).
-/

namespace DedupImage

/-! ## Repeats that were found in order -/

section Ascending

variable {m : Std.TreeMap Nat Nat} {k v : Nat}

/-- What is found after one entry more. -/
theorem getElem?_insert (i : Nat) : (m.insert k v)[i]? = if i = k then some v else m[i]? := by
  rw [Std.TreeMap.getElem?_insert]
  simp only [Nat.compare_eq_eq, @eq_comm _ k i]

/-- What is entered behind all keys is the last entry. -/
theorem toList_insert_last (h : ∀ e ∈ m.toList, e.1 < k) :
    (m.insert k v).toList = m.toList ++ [(k, v)] := by
  have hothers : (m.toList.filter fun e => decide ¬(k == e.1) = true) = m.toList := by
    refine List.filter_eq_self.mpr fun e he => ?_
    have := h e he
    simp only [beq_iff_eq, decide_eq_true_eq]
    omega
  have hperm := Std.TreeMap.toList_insert_perm (t := m) (k := k) (v := v)
  rw [hothers] at hperm
  have hsorted {m : Std.TreeMap Nat Nat} : m.toList.Pairwise fun a b => a.1 < b.1 :=
    Std.TreeMap.ordered_keys_toList.imp Nat.compare_eq_lt.mp
  refine (hperm.trans (List.perm_append_singleton _ _).symm).eq_of_pairwise ?_ hsorted ?_
  · intro a b _ _ hab hba
    exact absurd hab (Nat.lt_asymm hba)
  · refine List.pairwise_append.mpr ⟨hsorted, List.pairwise_singleton _ _, ?_⟩
    intro e he last hlast
    obtain rfl := List.mem_singleton.mp hlast
    exact h e he

end Ascending

namespace Repeats

variable {r : Repeats} {identity : ByteArray → UInt64}

/-- Repeats as a pass finds them: entering the pairs in order makes the same map, every position repeats
one before it, and all are positions of the batch. -/
structure Forward (r : Repeats) : Prop where
  rebuilt : r.toList.foldl (fun pairs p => pairs.insert p.1 p.2) ∅ = r.pairs
  ordered : ∀ p ∈ r.toList, p.2 < p.1 ∧ p.1 < r.blockCount

/-- There are not more repeats than blocks. -/
theorem length_toList_le (h : ∀ p ∈ r.toList, p.1 < r.blockCount) :
    r.toList.length ≤ r.blockCount := by
  have hnodup : (r.toList.map Prod.fst).Nodup := by
    refine List.pairwise_map.mpr (Std.TreeMap.ordered_keys_toList.imp ?_)
    intro a b hab
    exact Nat.ne_of_lt (Nat.compare_eq_lt.mp hab)
  have hsub : r.toList.map Prod.fst ⊆ List.range r.blockCount := by
    intro later hlater
    obtain ⟨p, hp, rfl⟩ := List.mem_map.mp hlater
    exact List.mem_range.mpr (h p hp)
  simpa using (hnodup.subperm hsub).length_le

/-- What a pass knows: repeats as it found them, and first positions of blocks that it has met. -/
structure Sighting.Forward (s : Sighting) : Prop where
  repeats : s.repeats.Forward
  firstSeen : ∀ key first : Nat, s.firstSeen[key]? = some first → first < s.repeats.blockCount

theorem Sighting.forward_start : Sighting.Forward {} where
  repeats := ⟨rfl, fun _ hp => absurd hp List.not_mem_nil⟩
  firstSeen key first h := by
    rw [Std.TreeMap.getElem?_emptyc] at h
    cases h

/-- The next block repeats a block before it, or none. -/
theorem Sighting.Forward.next {s : Sighting} (h : s.Forward) (identity : ByteArray → UInt64)
    (block : ByteArray) :
    (s.next identity block).Forward ∧
      (s.next identity block).repeats.blockCount = s.repeats.blockCount + 1 := by
  unfold Sighting.next
  dsimp only
  cases hfirst : s.firstSeen[sightingKey (identity block) block.size]? with
  | some first =>
    have hlast : (s.repeats.pairs.insert s.repeats.blockCount first).toList =
        s.repeats.toList ++ [(s.repeats.blockCount, first)] :=
      toList_insert_last fun p hp => (h.repeats.ordered p hp).2
    refine ⟨⟨⟨?_, ?_⟩, ?_⟩, rfl⟩
    · unfold toList
      dsimp only
      rw [hlast, List.foldl_append, h.repeats.rebuilt]
      rfl
    · intro p hp
      unfold toList at hp
      dsimp only at hp
      rw [hlast] at hp
      rcases List.mem_append.mp hp with hp | hp
      · have := h.repeats.ordered p hp
        exact ⟨this.1, Nat.lt_succ_of_lt this.2⟩
      · obtain rfl := List.mem_singleton.mp hp
        exact ⟨h.firstSeen _ first hfirst, Nat.lt_succ_self _⟩
    · intro key first' hkey
      exact Nat.lt_succ_of_lt (h.firstSeen key first' hkey)
  | none =>
    refine ⟨⟨⟨h.repeats.rebuilt, ?_⟩, ?_⟩, rfl⟩
    · intro p hp
      have := h.repeats.ordered p hp
      exact ⟨this.1, Nat.lt_succ_of_lt this.2⟩
    · intro key first' hkey
      dsimp only at hkey ⊢
      rw [Std.TreeMap.getElem?_insert] at hkey
      split at hkey
      · obtain rfl := Option.some.inj hkey
        exact Nat.lt_succ_self _
      · exact Nat.lt_succ_of_lt (h.firstSeen key first' hkey)

theorem Sighting.Forward.nextAll {s : Sighting} (h : s.Forward) (identity : ByteArray → UInt64)
    (blocks : List ByteArray) :
    (blocks.foldl (fun s block => s.next identity block) s).Forward ∧
      (blocks.foldl (fun s block => s.next identity block) s).repeats.blockCount =
        s.repeats.blockCount + blocks.length := by
  induction blocks generalizing s with
  | nil => exact ⟨h, rfl⟩
  | cons block rest ih =>
    obtain ⟨hnext, hcount⟩ := h.next identity block
    obtain ⟨hall, hsum⟩ := ih hnext
    refine ⟨hall, ?_⟩
    rw [List.foldl_cons, hsum, hcount, List.length_cons]
    omega

/-- Taking in an item, going by what it delivers. -/
theorem passOver_cons (s : Sighting) (item : ScheduledItem) (rest : List ScheduledItem) :
    passOver identity s (item :: rest) =
      match item.delivery 0 with
      | .error e => .error e
      | .ok (_, some e) => .error e
      | .ok (blocks, none) =>
        passOver identity (blocks.foldl (fun s block => s.next identity block) s) rest := by
  rw [passOver]
  unfold ScheduledItem.delivery
  cases item.source.reader 0 with
  | error e => rfl
  | ok reader =>
    dsimp only
    rcases reader.blocks item.blockSize with ⟨blocks, _ | e⟩ <;> rfl

theorem Sighting.Forward.passOver {s t : Sighting} (h : s.Forward) {items : List ScheduledItem}
    (hpass : passOver identity s items = .ok t) : t.Forward := by
  induction items generalizing s with
  | nil =>
    obtain rfl := Except.ok.inj hpass
    exact h
  | cons item rest ih =>
    rw [passOver_cons] at hpass
    rcases hdelivery : item.delivery 0 with e | ⟨blocks, _ | e⟩
    · rw [hdelivery] at hpass
      cases hpass
    · rw [hdelivery] at hpass
      dsimp only at hpass
      rw [← Array.foldl_toList] at hpass
      exact ih (h.nextAll identity blocks.toList).1 hpass
    · rw [hdelivery] at hpass
      cases hpass

/-- **Whatever a pass finds, it finds in order.** -/
theorem forward_of_find {items : List ScheduledItem} (h : find identity items = .ok r) :
    r.Forward := by
  unfold find at h
  cases hpass : passOver identity {} items with
  | error e =>
    rw [hpass] at h
    cases h
  | ok s =>
    rw [hpass] at h
    obtain rfl := Except.ok.inj h
    exact (Sighting.forward_start.passOver hpass).repeats

end Repeats

/-! ## Counting blocks -/

@[simp] theorem length_piecesFrom (data : ByteArray) (size start n : Nat) :
    (piecesFrom data size start n).length = n := by
  induction n generalizing start with
  | zero => rfl
  | succ n ih => rw [piecesFrom, List.length_cons, ih]

namespace ScheduledItem

/-- An item whose source always delivers the bytes that it claims, and which is cut into blocks that are
not empty. -/
def Steady (item : ScheduledItem) : Prop :=
  0 < item.blockSize ∧ ∃ data, item.source.Delivers data

/-- **The blocks are as many as the length says**: none for no bytes, and a last one that may be
shorter, whenever the item is opened. -/
theorem Steady.size_delivery {item : ScheduledItem} (h : item.Steady) (opening : Nat) :
    ∃ blocks, item.delivery opening = .ok (blocks, none) ∧ blocks.size = item.blockCount := by
  obtain ⟨hsize, data, hdata⟩ := h
  refine ⟨_, delivery_eq hdata hsize opening, ?_⟩
  rw [List.size_toArray, pieces, length_piecesFrom, ← hdata.length]
  rfl

/-- What is delivered does not depend on the opening. -/
theorem Steady.delivery_congr {item : ScheduledItem} (h : item.Steady) (opening opening' : Nat) :
    item.delivery opening = item.delivery opening' := by
  obtain ⟨hsize, data, hdata⟩ := h
  rw [delivery_eq hdata hsize, delivery_eq hdata hsize]

/-- Counting in words gives the number of blocks if length and block size together are a word. -/
theorem toNat_wordCount {item : ScheduledItem} (hsize : 0 < item.blockSize)
    (hfit : item.source.length + item.blockSize < 2 ^ 64) :
    item.wordCount.toNat = item.blockCount := by
  unfold wordCount blockCount
  rw [UInt64.toNat_div, UInt64.toNat_sub_of_le, UInt64.toNat_add, toNat_toUInt64 (by omega),
    toNat_toUInt64 (by omega), Nat.mod_eq_of_lt hfit]
  · rfl
  · rw [UInt64.le_iff_toNat_le, UInt64.toNat_add, toNat_toUInt64 (by omega),
      toNat_toUInt64 (by omega), Nat.mod_eq_of_lt hfit]
    exact Nat.le_trans hsize (Nat.le_add_left _ _)

theorem toNat_foldl_wordCount {items : List ScheduledItem}
    (hitems : ∀ item ∈ items, 0 < item.blockSize ∧ item.source.length + item.blockSize < 2 ^ 64) {start : UInt64}
    (hcount : start.toNat + (items.map blockCount).sum < 2 ^ 64) :
    ((items.map wordCount).foldl (· + ·) start).toNat = start.toNat + (items.map blockCount).sum := by
  induction items generalizing start with
  | nil => rfl
  | cons item rest ih =>
    obtain ⟨hsize, hfit⟩ := hitems item List.mem_cons_self
    rw [List.map_cons, List.sum_cons] at hcount
    have hnext : (start + item.wordCount).toNat = start.toNat + item.blockCount := by
      rw [UInt64.toNat_add, toNat_wordCount hsize hfit, Nat.mod_eq_of_lt (by omega)]
    rw [List.map_cons, List.foldl_cons, List.map_cons, List.sum_cons,
      ih (fun i hi => hitems i (List.mem_cons_of_mem _ hi)) (by omega), hnext, Nat.add_assoc]

/-- Counting a batch in words gives the number of its blocks if that is a word. -/
theorem toNat_wordTotal {items : List ScheduledItem}
    (hitems : ∀ item ∈ items, 0 < item.blockSize ∧ item.source.length + item.blockSize < 2 ^ 64)
    (hcount : (items.map blockCount).sum < 2 ^ 64) :
    (wordTotal items).toNat = (items.map blockCount).sum := by
  have hzero : (0 : UInt64).toNat = 0 := rfl
  have htotal := toNat_foldl_wordCount hitems (by rwa [hzero, Nat.zero_add] : (0 : UInt64).toNat + _ < 2 ^ 64)
  rwa [hzero, Nat.zero_add] at htotal

end ScheduledItem

namespace Repeats

theorem passOver_of_steady (identity : ByteArray → UInt64) {s : Sighting} (h : s.Forward)
    {items : List ScheduledItem} (hitems : ∀ item ∈ items, item.Steady) :
    ∃ t, passOver identity s items = .ok t ∧
      t.repeats.blockCount = s.repeats.blockCount + (items.map ScheduledItem.blockCount).sum := by
  induction items generalizing s with
  | nil => exact ⟨s, rfl, rfl⟩
  | cons item rest ih =>
    obtain ⟨blocks, hdelivery, hsize⟩ := (hitems item List.mem_cons_self).size_delivery 0
    obtain ⟨hall, hcount⟩ := h.nextAll identity blocks.toList
    obtain ⟨t, ht, htCount⟩ := ih hall fun i hi => hitems i (List.mem_cons_of_mem item hi)
    refine ⟨t, ?_, ?_⟩
    · rw [passOver_cons, hdelivery]
      dsimp only
      rw [← Array.foldl_toList]
      exact ht
    · rw [htCount, hcount, List.map_cons, List.sum_cons, ← hsize, Array.length_toList]
      omega

/-- Sources that always deliver what they claim are passed over, and the blocks are as many as their
lengths say. -/
theorem find_of_steady (identity : ByteArray → UInt64) {items : List ScheduledItem}
    (hitems : ∀ item ∈ items, item.Steady) :
    ∃ r, find identity items = .ok r ∧
      r.blockCount = (items.map ScheduledItem.blockCount).sum := by
  obtain ⟨s, hs, hcount⟩ := passOver_of_steady identity Sighting.forward_start hitems
  refine ⟨s.repeats, ?_, ?_⟩
  · unfold find
    rw [hs]
  · rw [hcount]
    exact Nat.zero_add _

end Repeats

/-! ## Reading what was written -/

namespace Checkpoint

theorem pushPairs_eq (out : ByteArray) (pairs : List (Nat × Nat)) :
    ∃ tail, pushPairs out pairs = out ++ tail ∧ tail.size = pairs.length * pairSize := by
  induction pairs generalizing out with
  | nil => exact ⟨ByteArray.empty, by simp [pushPairs], by simp⟩
  | cons p rest ih =>
    obtain ⟨tail, htail, hsize⟩ := ih (pushNumber (pushNumber out 8 p.1) 8 p.2)
    refine ⟨numberBytes 8 p.1 ++ numberBytes 8 p.2 ++ tail, ?_, ?_⟩
    · rw [pushPairs, htail, pushNumber_eq, pushNumber_eq, ByteArray.append_assoc,
        ByteArray.append_assoc, ByteArray.append_assoc]
    · simp only [ByteArray.size_append, size_numberBytes, hsize, List.length_cons, pairSize]
      omega

/-- Pairs that were added are read back, if they are in range and in order. -/
theorem readPairs_pushPairs {blockCount : Nat} (hcount : blockCount < 2 ^ 64) {pairs : List (Nat × Nat)}
    (hpairs : ∀ p ∈ pairs, p.2 < p.1 ∧ p.1 < blockCount) (out : ByteArray)
    (known : Std.TreeMap Nat Nat) :
    readPairs (pushPairs out pairs) blockCount out.size known pairs.length =
      .ok (pairs.foldl (fun known p => known.insert p.1 p.2) known) := by
  induction pairs generalizing out known with
  | nil => rfl
  | cons p rest ih =>
    obtain ⟨hearlier, hlater⟩ := hpairs p List.mem_cons_self
    obtain ⟨tail, htail, -⟩ := pushPairs_eq (pushNumber (pushNumber out 8 p.1) 8 p.2) rest
    have hfirst : numberAt (pushPairs out (p :: rest)) out.size 8 = p.1 := by
      rw [pushPairs, htail, numberAt_append_left (by simp), numberAt_pushNumber_of_le (by simp),
        numberAt_pushNumber, Nat.mod_eq_of_lt (by omega)]
    have hsecond : numberAt (pushPairs out (p :: rest)) (out.size + 8) 8 = p.2 := by
      have := numberAt_pushNumber (pushNumber out 8 p.1) 8 p.2
      rw [size_pushNumber] at this
      rw [pushPairs, htail, numberAt_append_left (by simp), this, Nat.mod_eq_of_lt (by omega)]
    have hrest := ih (fun q hq => hpairs q (List.mem_cons_of_mem p hq))
      (pushNumber (pushNumber out 8 p.1) 8 p.2) (known.insert p.1 p.2)
    rw [List.length_cons, readPairs, hfirst, hsecond, if_neg (Nat.not_le.mpr hlater),
      if_neg (Nat.not_le.mpr hearlier), List.foldl_cons, ← hrest]
    simp only [size_pushNumber, pushPairs, pairSize, Nat.add_assoc, Nat.reduceAdd]

/-- **A checkpoint of what a pass found is read as the same repeats.** -/
theorem parse_bytes {r : Repeats} (h : r.Forward) (hcount : r.blockCount < 2 ^ 64) :
    parse (bytes r) r.blockCount = .ok r := by
  have hlength := Repeats.length_toList_le fun p hp => (h.ordered p hp).2
  obtain ⟨tail, htail, hsize⟩ :=
    pushPairs_eq (pushNumber (pushNumber magic 8 r.blockCount) 8 r.toList.length) r.toList
  have hmagic : magic.size = 8 := rfl
  have hwidth : 256 ^ 8 = 2 ^ 64 := rfl
  have hread := readPairs_pushPairs hcount h.ordered
    (pushNumber (pushNumber magic 8 r.blockCount) 8 r.toList.length) ∅
  rw [h.rebuilt, htail, size_pushNumber, size_pushNumber, hmagic] at hread
  have htaken : numberAt (bytes r) 8 8 = r.blockCount := by
    unfold bytes
    dsimp only
    rw [htail, numberAt_append_left (by simp [hmagic]), numberAt_pushNumber_of_le (by simp [hmagic]),
      show numberAt (pushNumber magic 8 r.blockCount) 8 8 = _ from numberAt_pushNumber magic 8 _,
      Nat.mod_eq_of_lt (by omega)]
  have hpairs : numberAt (bytes r) 16 8 = r.toList.length := by
    have := numberAt_pushNumber (pushNumber magic 8 r.blockCount) 8 r.toList.length
    rw [size_pushNumber, hmagic] at this
    unfold bytes
    dsimp only
    rw [htail, numberAt_append_left (by simp [hmagic]), this, Nat.mod_eq_of_lt (by omega)]
  have hheld : (bytes r).size = headerSize + r.toList.length * pairSize := by
    unfold bytes
    dsimp only
    rw [htail, ByteArray.size_append, hsize, size_pushNumber, size_pushNumber, hmagic]
    rfl
  have hbegins : holdsAt (bytes r) 0 magic = true := by
    unfold bytes
    dsimp only
    rw [htail, pushNumber_eq, pushNumber_eq]
    apply holdsAt_append
    apply holdsAt_append
    apply holdsAt_append
    decide
  unfold parse
  rw [if_neg (by omega), if_pos hbegins]
  dsimp only
  rw [htaken, hpairs, hheld, if_pos (by omega)]
  unfold bytes
  dsimp only
  rw [htail]
  simp only [headerSize, hread, if_true]

/-! ## Preparing a batch -/

variable {identity : ByteArray → UInt64} {items : List ScheduledItem} {r : Repeats}

/-- Where no checkpoint is yet, the repeats are found and one is written. -/
theorem prepare_vacant (h : Repeats.find identity items = .ok r) :
    prepare identity items (some .vacant) = .ok ⟨r, some (.file (bytes r)), 1⟩ := by
  unfold prepare
  simp only [load, h, save]

/-- Where there is one of as many blocks as the lengths of the sources say, it is taken, and no source is
opened. -/
theorem prepare_file (h : r.Forward) (hcount : r.blockCount < 2 ^ 64)
    (hitems : r.blockCount = (items.map ScheduledItem.blockCount).sum) :
    prepare identity items (some (.file (bytes r))) = .ok ⟨r, some (.file (bytes r)), 0⟩ := by
  have hparse := parse_bytes h hcount
  rw [hitems, List.sum_eq_foldl] at hparse
  unfold prepare
  simp only [load, hparse]

end Checkpoint

end DedupImage
