import DedupImage.Proofs.Batch.CheckpointFormat
import Mathlib.Order.Lattice.Nat

/-!
# The first of several blocks alike

A pass numbers the blocks of all items, one item behind the other (`batchBlocks`), and knows of every
identity and length the first position that has it. What it knows is said by the list of what was looked
at so far (`Sighting.Knows`): the first position of a key is where the list first has it, and a position
repeats where the list before it first has its key. One block more is one entry more at the end of the
list, and a pass is so many entries (`find_eq`).

Of three or more blocks alike all later ones repeat the first, since the first is never one that repeats
another (`earlier?_eq_some_iff`).
-/

namespace DedupImage

/-- The blocks that items deliver when they are opened for the `opening`th time, one item behind the other,
or the first failure. -/
def batchBlocks (opening : Nat) : List ScheduledItem → Except StorageFailure (List ByteArray)
  | [] => .ok []
  | item :: rest =>
    match item.delivery opening with
    | .error e => .error e
    | .ok (_, some e) => .error e
    | .ok (blocks, none) => (batchBlocks opening rest).map (blocks.toList ++ ·)

/-- Where a list first has something, if it is one entry longer. -/
theorem idxOf?_concat (keys : List Nat) (last key : Nat) :
    (keys ++ [last]).idxOf? key =
      (keys.idxOf? key).or (if last = key then some keys.length else none) := by
  unfold List.idxOf?
  rw [List.findIdx?_append, List.findIdx?_singleton]
  by_cases h : last = key
  · simp [h]
  · simp [h]

namespace Repeats

variable {identity : ByteArray → UInt64} {blocks : List ByteArray} {keys : List Nat} {s : Sighting}

/-- What a pass compares of a block. -/
def blockSight (identity : ByteArray → UInt64) (block : ByteArray) : Nat :=
  sightingKey (identity block) block.size

theorem blockSight_eq_iff {a b : ByteArray} :
    blockSight identity a = blockSight identity b ↔ identity a = identity b ∧ a.size = b.size := by
  have ha := (identity a).toNat_lt
  have hb := (identity b).toNat_lt
  unfold blockSight sightingKey
  rw [← UInt64.toNat_inj, UInt64.size]
  omega

/-! ## What a pass knows -/

/-- What a pass knows after it looked at blocks with these keys. -/
structure Sighting.Knows (s : Sighting) (keys : List Nat) : Prop where
  count : s.repeats.blockCount = keys.length
  seen : ∀ key : Nat, s.firstSeen[key]? = keys.idxOf? key
  repeats : ∀ p, s.repeats.earlier? p = keys[p]?.bind fun key => (keys.take p).idxOf? key

theorem Sighting.knows_start : Sighting.Knows {} [] :=
  ⟨rfl, fun _ => Std.TreeMap.getElem?_emptyc, fun _ => Std.TreeMap.getElem?_emptyc⟩

/-- A position repeats what it did before, and the last one where its key was first. -/
theorem repeated_concat (keys : List Nat) (last p : Nat) :
    ((keys ++ [last])[p]?.bind fun key => ((keys ++ [last]).take p).idxOf? key) =
      if p = keys.length then keys.idxOf? last
      else keys[p]?.bind fun key => (keys.take p).idxOf? key := by
  by_cases hp : p = keys.length
  · subst hp
    rw [if_pos rfl, List.getElem?_concat_length, List.take_left, Option.bind_some]
  · rw [if_neg hp]
    by_cases hlt : p < keys.length
    · rw [List.getElem?_append_left hlt, List.take_append_of_le_length hlt.le]
    · rw [List.getElem?_eq_none (by simp; omega), List.getElem?_eq_none (by omega)]
      rfl

theorem Sighting.Knows.next (h : s.Knows keys) (identity : ByteArray → UInt64) (block : ByteArray) :
    (s.next identity block).Knows (keys ++ [blockSight identity block]) := by
  have hseen := h.seen (blockSight identity block)
  unfold Sighting.next
  dsimp only
  cases hfirst : s.firstSeen[sightingKey (identity block) block.size]? with
  | some first =>
    have hknown : keys.idxOf? (blockSight identity block) = some first := hseen.symm.trans hfirst
    refine ⟨by simp [h.count], fun key => ?_, fun p => ?_⟩
    · dsimp only
      rw [h.seen key, idxOf?_concat]
      by_cases hkey : blockSight identity block = key
      · subst hkey
        rw [hknown, Option.some_or]
      · rw [if_neg hkey, Option.or_none]
    · rw [repeated_concat, hknown, ← h.repeats p, ← h.count]
      exact getElem?_insert p
  | none =>
    have hnew : keys.idxOf? (blockSight identity block) = none := hseen.symm.trans hfirst
    refine ⟨by simp [h.count], fun key => ?_, fun p => ?_⟩
    · dsimp only
      rw [getElem?_insert, idxOf?_concat, h.count, ← blockSight]
      by_cases hkey : blockSight identity block = key
      · subst hkey
        rw [if_pos rfl, hnew, if_pos rfl, Option.none_or]
      · rw [if_neg (Ne.symm hkey), if_neg hkey, Option.or_none, h.seen key]
    · rw [repeated_concat, hnew]
      have hold : s.repeats.earlier? p = keys[p]?.bind fun key => (keys.take p).idxOf? key := h.repeats p
      by_cases hp : p = keys.length
      · rw [if_pos hp]
        rw [hp, List.getElem?_eq_none (Nat.le_refl _), Option.bind_none] at hold
        rw [hp]
        exact hold
      · rw [if_neg hp]
        exact hold

theorem Sighting.Knows.nextAll (h : s.Knows keys) (identity : ByteArray → UInt64)
    (blocks : List ByteArray) :
    (blocks.foldl (fun s block => s.next identity block) s).Knows
      (keys ++ blocks.map (blockSight identity)) := by
  induction blocks generalizing s keys with
  | nil => rwa [List.map_nil, List.append_nil]
  | cons block rest ih =>
    have hrest := ih (h.next identity block)
    rwa [List.append_assoc] at hrest

/-! ## A pass -/

/-- A pass looks at the blocks of all items. -/
theorem passOver_eq (s : Sighting) (items : List ScheduledItem) :
    passOver identity s items =
      (batchBlocks 0 items).map (List.foldl (fun s block => s.next identity block) s) := by
  induction items generalizing s with
  | nil => rfl
  | cons item rest ih =>
    rw [passOver_cons, batchBlocks]
    rcases item.delivery 0 with e | ⟨blocks, _ | e⟩
    · rfl
    · dsimp only
      rw [ih]
      cases batchBlocks 0 rest with
      | error e => rfl
      | ok more =>
        simp only [Except.map, List.foldl_append, ← Array.foldl_toList]
    · rfl

theorem find_eq (items : List ScheduledItem) :
    find identity items = (batchBlocks 0 items).map fun blocks =>
      (blocks.foldl (fun s block => s.next identity block) ({} : Sighting)).repeats := by
  unfold find
  rw [passOver_eq]
  cases batchBlocks 0 items <;> rfl

/-- Two blocks of a batch are of one identity and one length. -/
def Alike (identity : ByteArray → UInt64) (blocks : List ByteArray) (i j : Nat) : Prop :=
  ∃ a b, blocks[i]? = some a ∧ blocks[j]? = some b ∧ identity a = identity b ∧ a.size = b.size

theorem Alike.trans {i j k : Nat} (h : Alike identity blocks i j) (h' : Alike identity blocks j k) :
    Alike identity blocks i k := by
  obtain ⟨a, b, ha, hb, hidentity, hsize⟩ := h
  obtain ⟨b', c, hb', hc, hidentity', hsize'⟩ := h'
  obtain rfl := Option.some.inj (hb.symm.trans hb')
  exact ⟨a, c, ha, hc, hidentity.trans hidentity', hsize.trans hsize'⟩

/-- What was found repeats the first block that is alike, if that is an earlier one. -/
theorem earlier?_eq_some_iff (h : s.Knows (blocks.map (blockSight identity))) {p e : Nat} :
    s.repeats.earlier? p = some e ↔ e < p ∧ IsLeast {i | Alike identity blocks i p} e := by
  have hkey (i : Nat) (data : ByteArray) (hp : blocks[p]? = some data) :
      Alike identity blocks i p ↔
        ∃ a, blocks[i]? = some a ∧ blockSight identity a = blockSight identity data := by
    constructor
    · rintro ⟨a, b, ha, hb, halike⟩
      obtain rfl := Option.some.inj (hp.symm.trans hb)
      exact ⟨a, ha, blockSight_eq_iff.mpr halike⟩
    · rintro ⟨a, ha, hsight⟩
      exact ⟨a, data, ha, hp, blockSight_eq_iff.mp hsight⟩
  rw [h.repeats, List.getElem?_map]
  cases hp : blocks[p]? with
  | none =>
    constructor
    · intro hnone
      cases hnone
    · rintro ⟨-, ⟨a, b, -, hb, -⟩, -⟩
      cases hp.symm.trans hb
  | some data =>
    rw [Option.map_some, Option.bind_some, ← List.map_take, List.idxOf?_eq_some_iff]
    constructor
    · rintro ⟨hlt, hsame, hfirst⟩
      rw [List.length_map, List.length_take] at hlt
      rw [List.getElem_map, List.getElem_take] at hsame
      refine ⟨by omega, (hkey e data hp).mpr ⟨_, List.getElem?_eq_getElem (by omega), hsame⟩, ?_⟩
      intro i hi
      obtain ⟨a, ha, hsight⟩ := (hkey i data hp).mp hi
      by_contra hlater
      have hi := hfirst i (by omega)
      rw [List.getElem_map, List.getElem_take, (List.getElem?_eq_some_iff.mp ha).2] at hi
      exact hi hsight
    · rintro ⟨hlt, halike, hleast⟩
      obtain ⟨a, ha, hsight⟩ := (hkey e data hp).mp halike
      obtain ⟨hlength, hget⟩ := List.getElem?_eq_some_iff.mp ha
      refine ⟨by rw [List.length_map, List.length_take]; omega, ?_, ?_⟩
      · rw [List.getElem_map, List.getElem_take, hget]
        exact hsight
      · intro i hi hsame
        rw [List.getElem_map, List.getElem_take] at hsame
        have hbefore := hleast ((hkey i data hp).mpr ⟨_, List.getElem?_eq_getElem (by omega), hsame⟩)
        omega

/-- **A pass finds the repeats and nothing else.** It numbers the blocks of the batch in order, and a
position repeats another if an earlier one is alike, and then the first, which repeats none. -/
theorem find_eq_ok (identity : ByteArray → UInt64) {items : List ScheduledItem}
    (h : batchBlocks 0 items = .ok blocks) :
    ∃ r, find identity items = .ok r ∧ r.blockCount = blocks.length ∧
      (∀ p, (∃ e, r.earlier? p = some e) ↔ ∃ i < p, Alike identity blocks i p) ∧
      ∀ p e, r.earlier? p = some e →
        e < p ∧ IsLeast {i | Alike identity blocks i p} e ∧ r.earlier? e = none := by
  have hknows := Sighting.knows_start.nextAll identity blocks
  rw [List.nil_append] at hknows
  refine ⟨_, by rw [find_eq, h]; rfl, by rw [hknows.count, List.length_map], fun p => ⟨?_, ?_⟩,
    fun p e hpair => ?_⟩
  · rintro ⟨e, hpair⟩
    obtain ⟨hlt, hleast⟩ := (earlier?_eq_some_iff hknows).mp hpair
    exact ⟨e, hlt, hleast.1⟩
  · rintro ⟨i, hlt, halike⟩
    have hfirst : sInf {i | Alike identity blocks i p} ≤ i := Nat.sInf_le halike
    exact ⟨_, (earlier?_eq_some_iff hknows).mpr
      ⟨hfirst.trans_lt hlt, Nat.sInf_mem ⟨i, halike⟩, fun _ hi => Nat.sInf_le hi⟩⟩
  · obtain ⟨hlt, hleast⟩ := (earlier?_eq_some_iff hknows).mp hpair
    refine ⟨hlt, hleast, Option.eq_none_iff_forall_ne_some.mpr fun e' hpair' => ?_⟩
    obtain ⟨hlt', hleast'⟩ := (earlier?_eq_some_iff hknows).mp hpair'
    have := hleast.2 (hleast'.1.trans hleast.1)
    omega

end Repeats

end DedupImage
