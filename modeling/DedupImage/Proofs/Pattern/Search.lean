import DedupImage.Proofs.Pattern.Fit
import DedupImage.Proofs.Pattern.Shifts

/-!
# No occurrence is passed over

A search that moves the pattern as far as its tables say finds the first occurrence, and none only if
there is none (`find?_isLeast`, `find?_eq_none_iff`).

The step is `Mismatch.advance_le`: after a mismatch, an occurrence further on is a consistent shift and not nearer
than the byte that mismatched allows, so the move is at most the distance to it. The bytes between the
place that was tried and the next one therefore hold no occurrence (`findFrom_first`).
-/

namespace DedupImage.Pattern

variable {x text : ByteArray} {i j k s : Nat}

/-! ## Comparisons -/

/-- Where a comparison stops, the bytes differ, and those behind were equal. -/
structure Mismatch (x text : ByteArray) (j i : Nat) : Prop where
  lt : i < x.size
  differs : byteAt text (j + i) ≠ byteAt x i
  equal : ∀ k, i < k → k < x.size → byteAt text (j + k) = byteAt x k

theorem unmatched_eq_succ {n : Nat} (h : unmatched x text j n = i + 1) :
    i < n ∧ byteAt text (j + i) ≠ byteAt x i ∧
      ∀ k, i < k → k < n → byteAt text (j + k) = byteAt x k := by
  induction n with
  | zero => cases h
  | succ n ih =>
    unfold unmatched at h
    by_cases heq : byteAt x n = byteAt text (n + j)
    · rw [if_pos (beq_iff_eq.mpr heq)] at h
      obtain ⟨hlt, hdiffers, hequal⟩ := ih h
      refine ⟨Nat.lt_succ_of_lt hlt, hdiffers, ?_⟩
      intro k hik hk
      by_cases hkn : k = n
      · rw [hkn, Nat.add_comm, heq]
      · exact hequal k hik (by omega)
    · rw [if_neg (mt beq_iff_eq.mp heq)] at h
      obtain rfl := Nat.succ.inj h
      refine ⟨Nat.lt_succ_self n, ?_, fun k hnk hk => by omega⟩
      rw [Nat.add_comm]
      exact fun hsame => heq hsame.symm

theorem mismatch_of_unmatched (h : unmatched x text j x.size = i + 1) : Mismatch x text j i :=
  have ⟨hlt, hdiffers, hequal⟩ := unmatched_eq_succ h
  ⟨hlt, hdiffers, hequal⟩

/-! ## Moves -/

namespace Mismatch

/-- The pattern does not occur where it was compared. -/
theorem not_holdsAt (h : Mismatch x text j i) : ¬ holdsAt text j x = true := fun hholds =>
  h.differs ((holdsAt_iff.mp hholds).2 i h.lt)

/-- The distance to an occurrence further on is a consistent shift. -/
theorem consistent (h : Mismatch x text j i) (hholds : holdsAt text (j + s) x = true) :
    Consistent x i s := by
  have hbytes := (holdsAt_iff.mp hholds).2
  constructor
  · intro t hit ht
    rw [← hbytes t (by omega), ← h.equal (t + s) hit ht]
    congr 1
    omega
  · intro t ht
    have hlt := h.lt
    have hdiffers := h.differs
    rw [← hbytes t (by omega), ht, Nat.add_assoc, Nat.add_comm s t, ht]
    exact hdiffers

/-- The byte that mismatched is met by an equal one at an occurrence further on, or by none. -/
theorem occurrence_le (h : Mismatch x text j i) (hs : 0 < s)
    (hholds : holdsAt text (j + s) x = true) :
    (occurrences x).getD (byteAt text (j + i)).toNat 0 ≤ s + (x.size - 1 - i) := by
  have hlt := h.lt
  have hleast := (occurrences_least x (byteAt text (j + i))).2
  by_cases hsi : s ≤ i
  · have hbyte := (holdsAt_iff.mp hholds).2 (i - s) (by omega)
    rw [show j + s + (i - s) = j + i by omega] at hbyte
    exact hleast (.inr ⟨i - s, by omega, hbyte.symm, by omega⟩)
  · have hwhole := hleast (.inl rfl)
    omega

/-- **No move is too long.** -/
theorem advance_le (h : Mismatch x text j i) (hs : 0 < s)
    (hholds : holdsAt text (j + s) x = true) :
    (ofBytes x).advance i (byteAt text (i + j)) ≤ s := by
  have hshift : (shifts x).getD i 0 ≤ s := (shifts_least h.lt).2 ⟨hs, h.consistent hholds⟩
  have hoccurrence := h.occurrence_le hs hholds
  unfold advance
  show max 1 (max ((shifts x).getD i 0)
    ((occurrences x).getD (byteAt text (i + j)).toNat 0 - (x.size - 1 - i))) ≤ s
  rw [Nat.add_comm i j]
  omega

end Mismatch

/-! ## The search -/

/-- What a search from position `j` on answers: the first occurrence from there on, or that there is
none. -/
def FirstFrom (x text : ByteArray) (j : Nat) : Option Nat → Prop
  | some base => IsLeast {k | j ≤ k ∧ holdsAt text k x = true} base
  | none => ∀ k, j ≤ k → ¬ holdsAt text k x = true

/-- An answer from a later place on is one from here on, if nothing occurs in between. -/
theorem FirstFrom.of_later {found : Option Nat} (h : FirstFrom x text (j + s) found)
    (hnone : ∀ k, j ≤ k → holdsAt text k x = true → j + s ≤ k) : FirstFrom x text j found := by
  cases found with
  | none => exact fun k hjk hholds => h k (hnone k hjk hholds) hholds
  | some base =>
    obtain ⟨⟨hle, hholds⟩, hleast⟩ := h
    exact ⟨⟨by omega, hholds⟩, fun k ⟨hjk, hk⟩ => hleast ⟨hnone k hjk hk, hk⟩⟩

theorem findFrom_first (x text : ByteArray) (j : Nat) :
    FirstFrom x text j ((ofBytes x).findFrom text j) := by
  fun_induction findFrom (ofBytes x) text j with
  | case1 j hj hmatch =>
    exact ⟨⟨Nat.le_refl j, holdsAt_iff.mpr ⟨hj, unmatched_eq_zero hmatch⟩⟩, fun k hk => hk.1⟩
  | case2 j hj i hmatch ih =>
    have hmismatch : Mismatch x text j i := mismatch_of_unmatched hmatch
    refine ih.of_later ?_
    intro k hjk hholds
    by_cases hkj : k = j
    · exact absurd (hkj ▸ hholds) hmismatch.not_holdsAt
    · rw [show k = j + (k - j) by omega] at hholds
      have := hmismatch.advance_le (by omega) hholds
      omega
  | case3 j hj =>
    intro k hjk hholds
    have hsize : ¬ j + x.size ≤ text.size := hj
    have := (holdsAt_iff.mp hholds).1
    omega

theorem find?_first (x text : ByteArray) : FirstFrom x text 0 ((ofBytes x).find? text) := by
  unfold find?
  by_cases hx : (ofBytes x).size = 0
  · rw [if_pos hx]
    obtain rfl : x = ByteArray.empty := ByteArray.size_eq_zero_iff.mp hx
    exact ⟨⟨Nat.le_refl 0, holdsAt_empty (Nat.zero_le _)⟩, fun k _ => Nat.zero_le k⟩
  · rw [if_neg hx]
    exact findFrom_first x text 0

/-- **What is found is the first occurrence.** -/
theorem find?_isLeast {base : Nat} (h : (ofBytes x).find? text = some base) :
    IsLeast {k | holdsAt text k x = true} base := by
  have hfirst := find?_first x text
  rw [h] at hfirst
  exact ⟨hfirst.1.2, fun k hk => hfirst.2 ⟨Nat.zero_le k, hk⟩⟩

/-- **If nothing is found there is nothing.** -/
theorem find?_eq_none_iff :
    (ofBytes x).find? text = none ↔ ∀ k, ¬ holdsAt text k x = true := by
  have hfirst := find?_first x text
  constructor
  · intro h k
    rw [h] at hfirst
    exact hfirst k (Nat.zero_le k)
  · intro h
    cases hfind : (ofBytes x).find? text with
    | none => rfl
    | some base => exact absurd (find?_holdsAt hfind) (h base)

theorem find?_eq_some_iff {base : Nat} :
    (ofBytes x).find? text = some base ↔ IsLeast {k | holdsAt text k x = true} base := by
  constructor
  · exact find?_isLeast
  · intro h
    cases hfind : (ofBytes x).find? text with
    | none => exact absurd h.1 (find?_eq_none_iff.mp hfind base)
    | some base' => rw [(find?_isLeast hfind).unique h]

end DedupImage.Pattern
