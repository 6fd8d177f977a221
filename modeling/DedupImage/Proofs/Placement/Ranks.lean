import DedupImage.Placement.State
import DedupImage.Proofs.Bytes
import Mathlib

/-!
# Ranks in order of first occurrence

The distinct keys of a list, in the order in which they occur first, and the rank of a key among them.
Keys that come later do not change the rank of one that was met, so ranks can be given out while a list
is still growing.

`blockKey` is the key under which a mode identifies a block. A block that the mode looks up is
identified by its bytes. One that it does not look up is identified with no other block, so its key has
the number of the call that placed it.
-/

namespace DedupImage

variable {κ : Type} [DecidableEq κ] {seen keys : List κ} {k : κ}

/-! ## Distinct keys -/

/-- Meet a key: it joins the keys seen so far if it is new. -/
def meet (seen : List κ) (k : κ) : List κ := if k ∈ seen then seen else seen ++ [k]

/-- The keys seen, after those of a list. -/
def meetAll (seen keys : List κ) : List κ := keys.foldl meet seen

/-- The distinct keys of a list in order of first occurrence. -/
def distinct (keys : List κ) : List κ := meetAll [] keys

/-- The number of distinct keys before a key. -/
def rankIn (seen : List κ) (k : κ) : Nat := seen.idxOf k

theorem meet_of_mem (h : k ∈ seen) : meet seen k = seen := if_pos h

theorem meet_of_not_mem (h : k ∉ seen) : meet seen k = seen ++ [k] := if_neg h

theorem mem_meet_self (seen : List κ) (k : κ) : k ∈ meet seen k := by
  by_cases h : k ∈ seen
  · rw [meet_of_mem h]
    exact h
  · rw [meet_of_not_mem h]
    exact List.mem_append_right _ (List.mem_singleton_self k)

theorem prefix_meet (seen : List κ) (k : κ) : seen <+: meet seen k := by
  by_cases h : k ∈ seen
  · rw [meet_of_mem h]
  · rw [meet_of_not_mem h]
    exact List.prefix_append _ _

theorem nodup_meet (h : seen.Nodup) (k : κ) : (meet seen k).Nodup := by
  by_cases hk : k ∈ seen
  · rw [meet_of_mem hk]
    exact h
  · rw [meet_of_not_mem hk]
    exact List.nodup_append.mpr ⟨h, List.nodup_singleton k, fun a ha b hb => by
      rintro rfl
      exact hk (List.mem_singleton.mp hb ▸ ha)⟩

theorem prefix_meetAll (seen keys : List κ) : seen <+: meetAll seen keys := by
  induction keys generalizing seen with
  | nil => exact List.prefix_refl _
  | cons k rest ih => exact (prefix_meet seen k).trans (ih (meet seen k))

theorem meetAll_append (seen first rest : List κ) :
    meetAll seen (first ++ rest) = meetAll (meetAll seen first) rest :=
  List.foldl_append

theorem mem_meetAll (seen : List κ) (h : k ∈ keys) : k ∈ meetAll seen keys := by
  induction keys generalizing seen with
  | nil => cases h
  | cons k' rest ih =>
    rcases List.mem_cons.mp h with rfl | h
    · exact (prefix_meetAll (meet seen k) rest).subset (mem_meet_self seen k)
    · exact ih (meet seen k') h

omit [DecidableEq κ] in
/-- What stands in a list with one more key. -/
theorem getElem?_concat_eq_some {i : Nat} {k' : κ} (h : (seen ++ [k])[i]? = some k') :
    seen[i]? = some k' ∨ (i = seen.length ∧ k' = k) := by
  rcases Nat.lt_trichotomy i seen.length with hi | rfl | hi
  · rw [List.getElem?_append_left hi] at h
    exact .inl h
  · rw [List.getElem?_concat_length] at h
    exact .inr ⟨rfl, (Option.some.inj h).symm⟩
  · rw [List.getElem?_eq_none (by rw [List.length_append]; exact hi)] at h
    cases h

/-! ## Ranks -/

/-- A key that was met keeps its rank. -/
theorem rankIn_stable {more : List κ} (h : seen <+: more) (hk : k ∈ seen) :
    rankIn more k = rankIn seen k := by
  obtain ⟨rest, rfl⟩ := h
  exact List.idxOf_append_of_mem hk

theorem rankIn_lt (h : k ∈ seen) : rankIn seen k < seen.length := List.idxOf_lt_length_of_mem h

/-- The key of that rank. -/
theorem getElem?_rankIn (h : k ∈ seen) : seen[rankIn seen k]? = some k := by
  have hlt := rankIn_lt h
  rw [List.getElem?_eq_getElem hlt]
  exact congrArg some (List.getElem_idxOf hlt)

/-- Different keys have different ranks. -/
theorem rankIn_injective {k' : κ} (hk : k ∈ seen) (hk' : k' ∈ seen)
    (h : rankIn seen k = rankIn seen k') : k = k' := by
  have heq := getElem?_rankIn hk
  rw [h, getElem?_rankIn hk'] at heq
  exact (Option.some.inj heq).symm

theorem rankIn_of_getElem? (h : seen.Nodup) {i : Nat} (hi : seen[i]? = some k) : rankIn seen k = i := by
  have hmem := List.mem_of_getElem? hi
  have hlt := (List.getElem?_eq_some_iff.mp hi).1
  exact (List.getElem?_inj hlt h).mp (hi.trans (getElem?_rankIn hmem).symm) |>.symm

/-- A new key has the next rank. -/
theorem rankIn_meet_of_not_mem (h : k ∉ seen) : rankIn (meet seen k) k = seen.length := by
  rw [meet_of_not_mem h, rankIn, List.idxOf_append_of_notMem h, List.idxOf_cons_self, Nat.add_zero]

/-! ## Keys of blocks -/

/-- What identifies the block that the given call places. -/
def blockKey (mode : Dedup) (call : Nat) (data : ByteArray) : ByteArray × Option Nat :=
  (data, if mode.indexes data then none else some call)

/-- The keys of the blocks that are placed by the calls from number `call` on. -/
def blockKeys (mode : Dedup) (call : Nat) : List ByteArray → List (ByteArray × Option Nat)
  | [] => []
  | data :: rest => blockKey mode call data :: blockKeys mode (call + 1) rest

/-- Blocks of different calls have one key if their bytes are equal and are looked up. -/
theorem blockKey_eq_iff {mode : Dedup} {i j : Nat} {a b : ByteArray} :
    blockKey mode i a = blockKey mode j b ↔ a = b ∧ (mode.indexes a = true ∨ i = j) := by
  unfold blockKey
  rw [Prod.mk.injEq]
  apply and_congr_right
  rintro rfl
  split <;> simp_all

/-- The number that a key gets when it is met. -/
def numberIn (seen : List (ByteArray × Option Nat)) (k : ByteArray × Option Nat) : BlockNum :=
  ⟨(rankIn seen k).toUInt32⟩

theorem numberIn_meet_of_not_mem {seen : List (ByteArray × Option Nat)} {k : ByteArray × Option Nat}
    (h : k ∉ seen) : numberIn (meet seen k) k = ⟨seen.length.toUInt32⟩ := by
  unfold numberIn
  rw [rankIn_meet_of_not_mem h]

/-- A key keeps its number while more keys are met. -/
theorem numberIn_meetAll {seen keys : List (ByteArray × Option Nat)} {k : ByteArray × Option Nat}
    (h : k ∈ seen) : numberIn (meetAll seen keys) k = numberIn seen k := by
  unfold numberIn
  rw [rankIn_stable (prefix_meetAll seen keys) h]

/-- Words tell keys apart that are not too many. -/
theorem toNat_numberIn {seen : List (ByteArray × Option Nat)} {k : ByteArray × Option Nat}
    (h : k ∈ seen) (hsize : seen.length ≤ 2 ^ 32) : (numberIn seen k).number.toNat = rankIn seen k :=
  toNat_toUInt32 (Nat.lt_of_lt_of_le (rankIn_lt h) hsize)

theorem numberIn_eq_iff {seen : List (ByteArray × Option Nat)} {k k' : ByteArray × Option Nat}
    (hk : k ∈ seen) (hk' : k' ∈ seen) (hsize : seen.length ≤ 2 ^ 32) :
    numberIn seen k = numberIn seen k' ↔ k = k' := by
  constructor
  · intro hequal
    apply rankIn_injective hk hk'
    rw [← toNat_numberIn hk hsize, ← toNat_numberIn hk' hsize, hequal]
  · rintro rfl
    rfl

theorem blockKeys_append (mode : Dedup) (call : Nat) (first rest : List ByteArray) :
    blockKeys mode call (first ++ rest) =
      blockKeys mode call first ++ blockKeys mode (call + first.length) rest := by
  induction first generalizing call with
  | nil => rfl
  | cons data first ih =>
    have := ih (call + 1)
    rw [show call + 1 + first.length = call + (first.length + 1) by omega] at this
    exact congrArg (blockKey mode call data :: ·) this

theorem getElem?_blockKeys (mode : Dedup) (call : Nat) (datas : List ByteArray) (i : Nat) :
    (blockKeys mode call datas)[i]? = datas[i]?.map (blockKey mode (call + i)) := by
  induction datas generalizing call i with
  | nil => rfl
  | cons data rest ih =>
    cases i with
    | zero => rfl
    | succ i =>
      have := ih (call + 1) i
      rw [show call + 1 + i = call + (i + 1) by omega] at this
      exact this

/-- Two blocks get one number if they are at one place of the list, or equal and looked up. -/
theorem blockNumbers_eq_iff {mode : Dedup} {datas : List ByteArray} {i j : Nat} {a b : ByteArray}
    (ha : datas[i]? = some a) (hb : datas[j]? = some b)
    (hsize : (distinct (blockKeys mode 0 datas)).length ≤ 2 ^ 32) :
    ((blockKeys mode 0 datas).map (numberIn (distinct (blockKeys mode 0 datas))))[i]? =
        ((blockKeys mode 0 datas).map (numberIn (distinct (blockKeys mode 0 datas))))[j]? ↔
      i = j ∨ (mode.indexes a = true ∧ a = b) := by
  have hi : (blockKeys mode 0 datas)[i]? = some (blockKey mode i a) := by
    rw [getElem?_blockKeys, ha, Nat.zero_add]
    rfl
  have hj : (blockKeys mode 0 datas)[j]? = some (blockKey mode j b) := by
    rw [getElem?_blockKeys, hb, Nat.zero_add]
    rfl
  have hmi : blockKey mode i a ∈ distinct (blockKeys mode 0 datas) :=
    mem_meetAll [] (List.mem_of_getElem? hi)
  have hmj : blockKey mode j b ∈ distinct (blockKeys mode 0 datas) :=
    mem_meetAll [] (List.mem_of_getElem? hj)
  rw [List.getElem?_map, List.getElem?_map, hi, hj, Option.map_some, Option.map_some, Option.some_inj,
    numberIn_eq_iff hmi hmj hsize, blockKey_eq_iff]
  constructor
  · rintro ⟨hab, hindexes | hij⟩
    · exact .inr ⟨hindexes, hab⟩
    · exact .inl hij
  · rintro (rfl | ⟨hindexes, hab⟩)
    · exact ⟨Option.some.inj (ha.symm.trans hb), .inr rfl⟩
    · exact ⟨hab, .inl hindexes⟩

end DedupImage
