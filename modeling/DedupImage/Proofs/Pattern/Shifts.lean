import DedupImage.Proofs.Pattern.SuffixLengths
import Mathlib.Order.Bounds.Basic

/-!
# Shift tables are exact

After a mismatch at position `j` the pattern may be moved by `s` only if the bytes that come to lie under
the matched ones are equal to them, and the one that comes to lie under the mismatched one is different
from it: the shift is `Consistent`. The good-suffix table has the least such shift for every position
(`shifts_least`), and the occurrence table has for every byte the least distance from the last position
at which the byte stands (`occurrences_least`).

A consistent shift is of one of two kinds (`consistent_iff`). If the mismatched position is moved off the
pattern, a beginning of the pattern meets its end (`Border`); the first pass over the suffix lengths finds
the shortest of these moves for each position (`Bordered`). Otherwise the shift is known from the suffix
length at the place that the last position comes to; the second pass lets shorter moves replace longer
ones (`Filled`).
-/

namespace DedupImage.Pattern

variable {x : ByteArray} {i j n s : Nat}

/-! ## Consistent shifts -/

/-- Moving the pattern by `s` lays a beginning of it over its end. -/
def Border (x : ByteArray) (s : Nat) : Prop := Meets x s 0 (x.size - s)

/-- Moving the pattern by `s` agrees with what is known after the bytes behind position `j` were matched
and the one at `j` was not. -/
structure Consistent (x : ByteArray) (j s : Nat) : Prop where
  matched : ∀ t, j < t + s → t + s < x.size → byteAt x t = byteAt x (t + s)
  mismatched : ∀ t, t + s = j → byteAt x t ≠ byteAt x (t + s)

/-- A move by the length of the pattern leaves nothing to compare. -/
theorem border_size (x : ByteArray) : Border x x.size := by
  intro t _ ht
  omega

/-- Moves that lay a beginning over the end are those after which the suffix length is whole. -/
theorem border_iff (hn : IsSuffixLength x i n) (hi : s + i + 1 = x.size) :
    Border x s ↔ n = i + 1 := by
  have hle := hn.le
  have hstops := hn.stopsAt
  rw [show x.size - 1 - i = s by omega] at hstops
  rw [Border, show x.size - s = i + 1 by omega]
  constructor
  · intro hborder
    have hwhole : StopsAt x s (i + 1) 0 := ⟨Nat.zero_le _, hborder, fun t ht => by cases ht⟩
    have := hstops.unique hwhole
    omega
  · rintro rfl
    rw [Nat.sub_self] at hstops
    exact hstops.meets

/-- A move that takes the mismatched position off the pattern. -/
theorem consistent_iff_border (hjs : j < s) : Consistent x j s ↔ Border x s := by
  constructor
  · intro h t _ ht
    exact h.matched t (by omega) (by omega)
  · intro h
    exact ⟨fun t _ ht => h t (Nat.zero_le t) (by omega), fun t ht => by omega⟩

/-- A move after which the mismatched position meets another one is known from the suffix length. -/
theorem consistent_iff_suffix (hn : IsSuffixLength x i n) (hi : s + i + 1 = x.size) (hj : j < x.size)
    (hsj : s ≤ j) : Consistent x j s ↔ n + j + 1 = x.size := by
  have hle := hn.le
  have hstops := hn.stopsAt
  rw [show x.size - 1 - i = s by omega] at hstops
  constructor
  · intro h
    have hthere : StopsAt x s (i + 1) (j + 1 - s) :=
      ⟨by omega, fun t hlo ht => h.matched t (by omega) (by omega),
        fun t ht => h.mismatched t (by omega)⟩
    have := hstops.unique hthere
    omega
  · intro hnj
    rw [show i + 1 - n = j + 1 - s by omega] at hstops
    exact ⟨fun t hlo ht => hstops.meets t (by omega) (by omega),
      fun t ht => hstops.stops t (by omega)⟩

/-- **The two kinds of consistent shifts.** A suffix length `n` stands for the shift that it gives, also
if that takes the mismatched position just off the pattern. -/
theorem consistent_iff {suffixes : Array Nat}
    (hsuffixes : ∀ i < x.size, IsSuffixLength x i (suffixes.getD i 0)) (hj : j < x.size) :
    0 < s ∧ Consistent x j s ↔
      (j < s ∧ Border x s) ∨
        ∃ i, i + 1 < x.size ∧ suffixes.getD i 0 + j + 1 = x.size ∧ s + i + 1 = x.size := by
  constructor
  · rintro ⟨hs, h⟩
    by_cases hjs : j < s
    · exact .inl ⟨hjs, (consistent_iff_border hjs).mp h⟩
    · have hi : s + (x.size - 1 - s) + 1 = x.size := by omega
      have hn := hsuffixes (x.size - 1 - s) (by omega)
      exact .inr ⟨_, by omega, (consistent_iff_suffix hn hi hj (Nat.not_lt.mp hjs)).mp h, hi⟩
  · rintro (⟨hjs, hborder⟩ | ⟨i, hi, hnj, hsi⟩)
    · exact ⟨Nat.zero_lt_of_lt hjs, (consistent_iff_border hjs).mpr hborder⟩
    · have hn := hsuffixes i (by omega)
      refine ⟨by omega, ?_⟩
      by_cases hjs : j < s
      · -- the suffix is whole, as the mismatched position is the one before it
        have hle := hn.le
        exact (consistent_iff_border hjs).mpr ((border_iff hn hsi).mpr (by omega))
      · exact (consistent_iff_suffix hn hsi hj (Nat.not_lt.mp hjs)).mpr hnj

/-! ## The first pass -/

/-- The shifts of the first `table.size` positions are found, each the shortest move that takes the
position off the pattern and lays a beginning over the end. Among the moves tried so far there is none for
a later position. -/
structure Bordered (x : ByteArray) (table : Array Nat) (i : Nat) : Prop where
  size_le : table.size ≤ x.size - 1 - i
  found : ∀ j < table.size, IsLeast {s | j < s ∧ Border x s} (table.getD j 0)
  rest : ∀ s, table.size < s → s + i < x.size → ¬ Border x s

/-- No position is answered before the first move is tried. -/
theorem bordered_empty (x : ByteArray) : Bordered x #[] x.size where
  size_le := Nat.zero_le _
  found j hj := absurd hj (Nat.not_lt_zero j)
  rest s hs hlt := by omega

/-- Filling a table up with a move that is good for all further positions. -/
theorem Bordered.least_append {table : Array Nat} (h : Bordered x table i) (hs : s + i = x.size)
    (hborder : Border x s) (hj : j < s) :
    IsLeast {s | j < s ∧ Border x s}
      ((table ++ Array.replicate (s - table.size) s).getD j 0) := by
  rw [getD_append_replicate _ _ _ _ (by omega)]
  by_cases hold : j < table.size
  · rw [if_pos hold]
    exact h.found j hold
  · rw [if_neg hold]
    refine ⟨⟨hj, hborder⟩, ?_⟩
    rintro s' ⟨hjs, hborder'⟩
    by_contra hlt
    exact h.rest s' (by omega) (by omega) hborder'

/-- A table that is filled up with the next shift that is good for all further positions. -/
theorem Bordered.append {table : Array Nat} (h : Bordered x table (i + 1)) (hs : s + i + 1 = x.size)
    (hborder : Border x s) :
    Bordered x (table ++ Array.replicate (s - table.size) s) i := by
  have hle := h.size_le
  have hsize : (table ++ Array.replicate (s - table.size) s).size = s := by
    rw [Array.size_append, Array.size_replicate]
    omega
  refine ⟨by omega, fun j hj => ?_, fun s' hlt hlt' => by omega⟩
  exact h.least_append (by omega) hborder (hsize ▸ hj)

theorem borderShifts_bordered {suffixes table : Array Nat}
    (hsuffixes : ∀ i < x.size, IsSuffixLength x i (suffixes.getD i 0)) (hi : i ≤ x.size)
    (h : Bordered x table i) : Bordered x (borderShifts x.size suffixes table i) 0 := by
  induction i generalizing table with
  | zero => exact h
  | succ i ih =>
    have hplace : x.size - 1 - i + i + 1 = x.size := by omega
    have hborder := border_iff (hsuffixes i (by omega)) hplace
    unfold borderShifts
    apply ih (by omega)
    by_cases hwhole : suffixes.getD i 0 = i + 1
    · rw [if_pos hwhole]
      exact h.append hplace (hborder.mpr hwhole)
    · rw [if_neg hwhole]
      refine ⟨by have := h.size_le; omega, h.found, ?_⟩
      intro s hlt hs
      by_cases heq : s = x.size - 1 - i
      · rw [heq, hborder]
        exact hwhole
      · exact h.rest s hlt (by omega)

/-! ## Moves that positions give -/

section Moves

/-! Both tables are corrected by the positions of the pattern in turn, from the first on. A position at
which `Q` holds gives the move that brings it to the end, which is shorter than those of the positions
before it. -/

variable {m least : Nat} {P Q : Nat → Prop}

theorem moves_zero (P Q : Nat → Prop) (m : Nat) :
    {d | P d ∨ ∃ k < 0, Q k ∧ d + k + 1 = m} = {d | P d} :=
  Set.ext fun _ => or_iff_left fun ⟨k, hk, _⟩ => absurd hk (Nat.not_lt_zero k)

theorem isLeast_of_met (hQ : Q i) (hi : i < m) (hP : ∀ d, P d → m - 1 - i ≤ d) :
    IsLeast {d | P d ∨ ∃ k < i + 1, Q k ∧ d + k + 1 = m} (m - 1 - i) := by
  refine ⟨.inr ⟨i, Nat.lt_succ_self i, hQ, by omega⟩, ?_⟩
  rintro d (hd | ⟨k, hk, -, hd⟩)
  · exact hP d hd
  · omega

theorem isLeast_of_not_met (h : IsLeast {d | P d ∨ ∃ k < i, Q k ∧ d + k + 1 = m} least)
    (hQ : ¬ Q i) : IsLeast {d | P d ∨ ∃ k < i + 1, Q k ∧ d + k + 1 = m} least := by
  have hsame (d : Nat) :
      (∃ k < i + 1, Q k ∧ d + k + 1 = m) ↔ ∃ k < i, Q k ∧ d + k + 1 = m := by
    constructor
    · rintro ⟨k, hk, hQk, hd⟩
      have hki : k ≠ i := by
        rintro rfl
        exact hQ hQk
      exact ⟨k, by omega, hQk, hd⟩
    · rintro ⟨k, hk, hQk, hd⟩
      exact ⟨k, Nat.lt_succ_of_lt hk, hQk, hd⟩
  simpa only [hsame] using h

end Moves

/-! ## The second pass -/

/-- The shifts after the suffix lengths at the positions below `i`: for every mismatched position the
shortest of the moves from the first pass and from these suffix lengths. -/
structure Filled (x : ByteArray) (suffixes table : Array Nat) (i : Nat) : Prop where
  size : table.size = x.size
  least : ∀ j < x.size,
    IsLeast
      {s | (j < s ∧ Border x s) ∨
        ∃ k < i, suffixes.getD k 0 + j + 1 = x.size ∧ s + k + 1 = x.size}
      (table.getD j 0)

theorem Bordered.filled {table suffixes : Array Nat} (h : Bordered x table 0) (hx : 0 < x.size) :
    Filled x suffixes (table ++ Array.replicate (x.size - table.size) x.size) 0 := by
  have hle := h.size_le
  refine ⟨by rw [Array.size_append, Array.size_replicate]; omega, ?_⟩
  intro j hj
  rw [moves_zero]
  exact h.least_append rfl (border_size x) hj

/-- A suffix length replaces the shift of the position that it stands for by a shorter one. -/
theorem Filled.set {suffixes table : Array Nat} (h : Filled x suffixes table i) (hi : i + 1 < x.size)
    (hn : suffixes.getD i 0 ≤ i + 1) :
    Filled x suffixes
      (table.setIfInBounds (x.size - 1 - suffixes.getD i 0) (x.size - 1 - i)) (i + 1) := by
  have hsize := h.size
  refine ⟨by rw [Array.size_setIfInBounds, hsize], ?_⟩
  intro j hj
  rw [getD_setIfInBounds _ _ _ _ (by omega)]
  split
  · exact isLeast_of_met (by omega) (by omega) fun s hs => by omega
  · exact isLeast_of_not_met (h.least j hj) (by omega)

theorem innerShifts_filled {suffixes table : Array Nat}
    (hsuffixes : ∀ i < x.size, IsSuffixLength x i (suffixes.getD i 0)) (hn : i + n + 1 = x.size)
    (h : Filled x suffixes table i) :
    Filled x suffixes (innerShifts x.size suffixes table i n) (x.size - 1) := by
  induction n generalizing i table with
  | zero => rwa [innerShifts, show x.size - 1 = i by omega]
  | succ n ih => exact ih (by omega) (h.set (by omega) (hsuffixes i (by omega)).le)

/-! ## The tables -/

theorem shifts_filled (hx : 0 < x.size) : Filled x (suffixLengths x) (shifts x) (x.size - 1) := by
  have hsuffixes := fun i (hi : i < x.size) => suffixLengths_exact hi
  have hborders := borderShifts_bordered hsuffixes (Nat.le_refl _) (bordered_empty x)
  unfold shifts
  dsimp only
  rw [if_neg (by omega)]
  exact innerShifts_filled hsuffixes (by omega) (hborders.filled hx)

@[simp] theorem size_shifts (x : ByteArray) : (shifts x).size = x.size := by
  by_cases hx : x.size = 0
  · rw [shifts, if_pos hx, hx]
    rfl
  · exact (shifts_filled (Nat.pos_of_ne_zero hx)).size

/-- **The good-suffix table has the least consistent shifts.** -/
theorem shifts_least (hj : j < x.size) :
    IsLeast {s | 0 < s ∧ Consistent x j s} ((shifts x).getD j 0) := by
  have hleast := (shifts_filled (x := x) (by omega)).least j hj
  have hiff := fun s => consistent_iff (s := s) (fun i (hi : i < x.size) => suffixLengths_exact hi) hj
  simp only [show ∀ k, k < x.size - 1 ↔ k + 1 < x.size by omega, ← hiff] at hleast
  exact hleast

/-- The entries of an occurrence table after the positions below `i` of the pattern. -/
structure Marked (x : ByteArray) (table : Array Nat) (i : Nat) : Prop where
  size : table.size = 256
  least : ∀ c : UInt8,
    IsLeast {d | d = max x.size 1 ∨ ∃ k < i, byteAt x k = c ∧ d + k + 1 = x.size}
      (table.getD c.toNat 0)

theorem markOccurrences_marked {table : Array Nat} (hn : i + n + 1 = x.size) (h : Marked x table i) :
    Marked x (markOccurrences x table i n) (x.size - 1) := by
  induction n generalizing i table with
  | zero => rwa [markOccurrences, show x.size - 1 = i by omega]
  | succ n ih =>
    refine ih (by omega) ⟨by rw [Array.size_setIfInBounds, h.size], ?_⟩
    intro c
    have hbyte := (byteAt x i).toNat_lt
    rw [getD_setIfInBounds _ _ _ _ (by rw [h.size]; exact hbyte)]
    by_cases hc : c = byteAt x i
    · rw [if_pos (congrArg UInt8.toNat hc)]
      exact isLeast_of_met hc.symm (by omega) fun d hd => by omega
    · rw [if_neg (mt UInt8.toNat_inj.mp hc)]
      exact isLeast_of_not_met (h.least c) (Ne.symm hc)

theorem occurrences_marked (x : ByteArray) : Marked x (occurrences x) (x.size - 1) := by
  have hstart : Marked x (Array.replicate 256 (max x.size 1)) 0 := by
    refine ⟨Array.size_replicate, ?_⟩
    intro c
    have hbyte := c.toNat_lt
    rw [Array.getD_eq_getD_getElem?, Array.getElem?_replicate, if_pos hbyte, moves_zero]
    exact ⟨rfl, fun d hd => hd.ge⟩
  by_cases hx : x.size = 0
  · rw [occurrences, hx]
    rwa [hx] at hstart
  · exact markOccurrences_marked (by omega) hstart

@[simp] theorem size_occurrences (x : ByteArray) : (occurrences x).size = 256 :=
  (occurrences_marked x).size

/-- **The occurrence table has the least distances.** A byte that does not stand before the last position
has the pattern's length. -/
theorem occurrences_least (x : ByteArray) (c : UInt8) :
    IsLeast
      {d | d = max x.size 1 ∨ ∃ k < x.size - 1, byteAt x k = c ∧ d + k + 1 = x.size}
      ((occurrences x).getD c.toNat 0) :=
  (occurrences_marked x).least c

end DedupImage.Pattern
