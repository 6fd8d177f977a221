import DedupImage.Proofs.Pattern.TablesInRange
import Mathlib.Data.Int.Interval
import Mathlib.Data.List.Infix

/-!
# What the tables of a pattern hold

The two tables in the words of strings. The suffix length at a position is the length of the longest
common suffix of the pattern and of its bytes up to that position (`suffix_lengths_are_longest`). The
good-suffix entry of a position is the least move by which equal bytes come to lie under the matched ones
and a different byte under the mismatched one (`good_suffix_shifts_are_least`).

The suffix lengths are found in linear time because the window's lower bound never goes up. To say so, the
computation is run once more with a record of the bounds (`suffixesTracked`): every new bound is below all
earlier ones and not below the place before the first position (`Descends`), so there are no more of them
than places, and the walks that move it stop.
-/

namespace DedupImage.Pattern

variable {x : ByteArray} {d f g g' : Int} {before bounds : List Int} {i j n s : Nat}

/-! ## The window's bound -/

/-- Bounds that a window had one after the other, the last of them first. -/
structure Descends (x : ByteArray) (bounds : List Int) : Prop where
  below : bounds.Pairwise (· < ·)
  range : ∀ g ∈ bounds, -1 ≤ g ∧ g < x.size

namespace Descends

theorem next (h : Descends x (g :: before)) (hbelow : g' < g) (hfirst : -1 ≤ g') :
    Descends x (g' :: g :: before) where
  below := by
    refine List.pairwise_cons.mpr ⟨fun b hb => ?_, h.below⟩
    rcases List.mem_cons.mp hb with rfl | hb
    · exact hbelow
    · exact hbelow.trans (List.rel_of_pairwise_cons h.below hb)
  range b hb := by
    rcases List.mem_cons.mp hb with rfl | hb
    · exact ⟨hfirst, hbelow.trans (h.range g List.mem_cons_self).2⟩
    · exact h.range b hb

/-- There are no more bounds than places. -/
theorem length_le (h : Descends x bounds) : bounds.length ≤ x.size + 1 := by
  have hnodup : bounds.Nodup := h.below.imp ne_of_lt
  have hplaces : bounds.toFinset ⊆ Finset.Icc (-1) (x.size - 1 : Int) := by
    intro g hg
    obtain ⟨hfirst, hlast⟩ := h.range g (List.mem_toFinset.mp hg)
    exact Finset.mem_Icc.mpr ⟨hfirst, by omega⟩
  have hcard := Finset.card_le_card hplaces
  rw [List.toFinset_card_of_nodup hnodup, Int.card_Icc] at hcard
  omega

end Descends

/-- `walkInRange` with a record of the bounds before the last. -/
def walkTracked (x : ByteArray) (d g : Int) (before : List Int) : Option (Int × List Int) :=
  if 0 ≤ g then do
    if (← byte? x g) = (← byte? x (g + d)) then walkTracked x d (g - 1) (g :: before)
    else some (g, before)
  else
    some (g, before)
termination_by (g + 1).toNat

/-- `extendInRange` with a record of the bounds. A walk starts at the window's bound or, if the position
lies below that, at the position. -/
def extendTracked (x : ByteArray) (f g : Int) (before : List Int) (table : Array Int) :
    (i : Nat) → Option (Array Int × List Int)
  | 0 => some (table, g :: before)
  | i + 1 => do
    match ← knownInRange x f g table i with
    | some known => extendTracked x f g before (← replace? table i known) i
    | none =>
      let (g, before) ←
        if i < g then walkTracked x (x.size - 1 - i) i (g :: before)
        else walkTracked x (x.size - 1 - i) g before
      extendTracked x i g before (← replace? table i (i - g)) i

/-- `suffixesInRange` with a record of the bounds. -/
def suffixesTracked (x : ByteArray) : Option (Array Int × List Int) := do
  let last : Int := x.size - 1
  let table ← replace? (Array.replicate x.size 0) last (x.size : Int)
  extendTracked x last last [] table (x.size - 1)

/-- A walk moves the bound down. -/
theorem walkTracked_descends (hwalk : walkInRange x d g = some g') (h : Descends x (g :: before)) :
    ∃ before', walkTracked x d g before = some (g', before') ∧ Descends x (g' :: before') := by
  induction hn : (g + 1).toNat generalizing g before with
  | zero =>
    unfold walkInRange at hwalk
    unfold walkTracked
    rw [if_neg (by omega)] at hwalk ⊢
    obtain rfl := Option.some.inj hwalk
    exact ⟨before, rfl, h⟩
  | succ n ih =>
    unfold walkInRange at hwalk
    unfold walkTracked
    rw [if_pos (by omega)] at hwalk ⊢
    simp only [Option.bind_eq_bind, Option.bind_eq_some_iff] at hwalk
    obtain ⟨here, hhere, there, hthere, hwalk⟩ := hwalk
    simp only [hhere, hthere, Option.bind_eq_bind, Option.bind_some]
    by_cases heq : here = there
    · rw [if_pos heq] at hwalk ⊢
      exact ih hwalk (h.next (by omega) (by omega)) (by omega)
    · rw [if_neg heq] at hwalk ⊢
      obtain rfl := Option.some.inj hwalk
      exact ⟨before, rfl, h⟩

/-- **The bound only moves down** while the suffix lengths are found. -/
theorem extendTracked_descends {table table' : Array Int}
    (hrun : extendInRange x f g table i = some table') (h : Descends x (g :: before)) :
    ∃ bounds, extendTracked x f g before table i = some (table', bounds) ∧ Descends x bounds := by
  induction i generalizing f g before table with
  | zero =>
    obtain rfl := Option.some.inj hrun
    exact ⟨g :: before, rfl, h⟩
  | succ i ih =>
    unfold extendInRange at hrun
    unfold extendTracked
    simp only [Option.bind_eq_bind, Option.bind_eq_some_iff] at hrun
    obtain ⟨known, hknown, hrun⟩ := hrun
    simp only [hknown, Option.bind_eq_bind, Option.bind_some]
    cases known with
    | some known =>
      obtain ⟨next, hnext, hrun⟩ := Option.bind_eq_some_iff.mp hrun
      simp only [hnext, Option.bind_some]
      exact ih hrun h
    | none =>
      obtain ⟨bound, hwalk, hrun⟩ := Option.bind_eq_some_iff.mp hrun
      obtain ⟨next, hnext, hrun⟩ := Option.bind_eq_some_iff.mp hrun
      by_cases hi : (i : Int) < g
      · rw [min_eq_right (by omega)] at hwalk
        obtain ⟨before', htracked, hbelow⟩ := walkTracked_descends hwalk (h.next hi (by omega))
        simp only [if_pos hi, htracked, Option.bind_some, hnext]
        exact ih hrun hbelow
      · rw [min_eq_left (by omega)] at hwalk
        obtain ⟨before', htracked, hbelow⟩ := walkTracked_descends hwalk h
        simp only [if_neg hi, htracked, Option.bind_some, hnext]
        exact ih hrun hbelow

theorem suffixesTracked_descends (hx : 0 < x.size) :
    ∃ bounds, suffixesTracked x = some ((suffixLengths x).map Int.ofNat, bounds) ∧
      Descends x bounds := by
  have hrun := suffixesInRange_eq hx
  have hstart : Descends x [(x.size : Int) - 1] := by
    refine ⟨List.pairwise_singleton _ _, fun g hg => ?_⟩
    rw [List.mem_singleton.mp hg]
    omega
  unfold suffixesInRange at hrun
  obtain ⟨table, htable, hrun⟩ := Option.bind_eq_some_iff.mp hrun
  obtain ⟨bounds, htracked, hbounds⟩ := extendTracked_descends hrun hstart
  refine ⟨bounds, ?_, hbounds⟩
  unfold suffixesTracked
  simp only [htable, Option.bind_eq_bind, Option.bind_some]
  exact htracked

/-! ## Common suffixes -/

/-- A string of `n` bytes is a suffix of the first `i + 1` bytes and of all bytes. -/
def HasCommonSuffix (x : ByteArray) (i n : Nat) : Prop :=
  ∃ suffix : List UInt8,
    suffix.length = n ∧ suffix <:+ x.data.toList.take (i + 1) ∧ suffix <:+ x.data.toList

theorem getElem?_toList (h : n < x.size) : x.data.toList[n]? = some (byteAt x n) := by
  rw [byteAt_of_lt h, Array.getElem?_toList]
  exact Array.getElem?_eq_getElem h

/-- Common suffixes are stretches before `i + 1` that are met again at the end. -/
theorem hasCommonSuffix_iff (hi : i < x.size) :
    HasCommonSuffix x i n ↔ n ≤ i + 1 ∧ Meets x (x.size - 1 - i) (i + 1 - n) (i + 1) := by
  have hlength : x.data.toList.length = x.size := Array.length_toList
  constructor
  · rintro ⟨suffix, rfl, ⟨first, hfirst⟩, ⟨start, hstart⟩⟩
    have hfirstLength := congrArg List.length hfirst
    have hstartLength := congrArg List.length hstart
    rw [List.length_append] at hfirstLength hstartLength
    rw [List.length_take] at hfirstLength
    refine ⟨by omega, fun t hlo ht => ?_⟩
    have hhere : x.data.toList[t]? = suffix[t - first.length]? := by
      rw [← List.getElem?_append_right (by omega), hfirst, List.getElem?_take_of_lt ht]
    have hthere : x.data.toList[t + (x.size - 1 - i)]? = suffix[t - first.length]? := by
      rw [← hstart, List.getElem?_append_right (by omega)]
      congr 1
      omega
    rw [← hthere, getElem?_toList (by omega), getElem?_toList (by omega)] at hhere
    exact Option.some.inj hhere
  · rintro ⟨hn, hmeets⟩
    have hsame : x.data.toList.drop (x.size - n) =
        (x.data.toList.take (i + 1)).drop (i + 1 - n) := by
      apply List.ext_getElem?
      intro t
      rw [List.getElem?_drop, List.getElem?_drop]
      by_cases ht : t < n
      · rw [List.getElem?_take_of_lt (by omega), getElem?_toList (by omega),
          getElem?_toList (by omega), hmeets (i + 1 - n + t) (by omega) (by omega)]
        congr 2
        omega
      · rw [List.getElem?_eq_none (by omega), List.getElem?_eq_none (by
          rw [List.length_take]
          omega)]
    refine ⟨x.data.toList.drop (x.size - n), ?_, ?_, List.drop_suffix _ _⟩
    · rw [List.length_drop]
      omega
    · rw [hsame]
      exact List.drop_suffix _ _

/-- The suffix length is the greatest length of a common suffix. -/
theorem IsSuffixLength.isGreatest (h : IsSuffixLength x i n) (hi : i < x.size) :
    IsGreatest {n | HasCommonSuffix x i n} n := by
  refine ⟨(hasCommonSuffix_iff hi).mpr ⟨h.le, h.stopsAt.meets⟩, ?_⟩
  intro n' hn'
  obtain ⟨hle, hmeets⟩ := (hasCommonSuffix_iff hi).mp hn'
  by_contra hlt
  -- a longer one would reach over the byte at which the walk stopped
  have hle' := h.le
  exact h.stopsAt.stops (i - n) (by omega) (hmeets (i - n) (by omega) (by omega))

/-- **The suffix lengths are those of the longest common suffixes.** They are found without leaving the
table or the pattern, and on the way the window's bound takes values each below all earlier ones, at most
one for each place of the pattern and one for the place before the first. -/
theorem suffix_lengths_are_longest (x : ByteArray) (hx : 0 < x.size) :
    (∃ bounds, suffixesTracked x = some ((suffixLengths x).map Int.ofNat, bounds) ∧
      bounds.Pairwise (· < ·) ∧ (∀ g ∈ bounds, -1 ≤ g ∧ g < x.size) ∧ bounds.length ≤ x.size + 1) ∧
      (suffixLengths x).size = x.size ∧
      ∀ i < x.size, IsGreatest {n | HasCommonSuffix x i n} ((suffixLengths x).getD i 0) := by
  obtain ⟨bounds, htracked, hdescends⟩ := suffixesTracked_descends hx
  refine ⟨⟨bounds, htracked, hdescends.below, hdescends.range, hdescends.length_le⟩,
    size_suffixLengths hx, ?_⟩
  intro i hi
  exact (suffixLengths_exact hi).isGreatest hi

/-- In a pattern of period two the comparison at the middle position reaches down to the first byte. The
entry below it is copied, and the last one ends where the window does. -/
theorem suffix_lengths_of_period :
    suffixLengths (.mk #[1, 2, 1, 2, 1]) = #[1, 0, 3, 0, 5] ∧
      IsGreatest {n | HasCommonSuffix (.mk #[1, 2, 1, 2, 1]) 2 n} 3 := by
  have htable : suffixLengths (.mk #[1, 2, 1, 2, 1]) = #[1, 0, 3, 0, 5] := by decide +kernel
  obtain ⟨-, -, hlongest⟩ := suffix_lengths_are_longest (.mk #[1, 2, 1, 2, 1]) (by decide)
  have hmiddle := hlongest 2 (by decide)
  rw [htable] at hmiddle
  exact ⟨htable, hmiddle⟩

/-! ## Good-suffix shifts -/

/-- A consistent shift, by the positions that were matched. -/
theorem consistent_iff_positions :
    Consistent x j s ↔
      (∀ k, j < k → k < x.size → s ≤ k → byteAt x (k - s) = byteAt x k) ∧
        (j < s ∨ byteAt x (j - s) ≠ byteAt x j) := by
  constructor
  · intro h
    refine ⟨fun k hjk hk hsk => ?_, ?_⟩
    · have hbytes := h.matched (k - s) (by omega) (by omega)
      rwa [Nat.sub_add_cancel hsk] at hbytes
    · by_cases hjs : j < s
      · exact .inl hjs
      · have hbytes := h.mismatched (j - s) (by omega)
        rw [Nat.sub_add_cancel (Nat.not_lt.mp hjs)] at hbytes
        exact .inr hbytes
  · rintro ⟨hmatched, hmismatched⟩
    constructor
    · intro t hjt ht
      have hbytes := hmatched (t + s) hjt ht (Nat.le_add_left s t)
      rwa [Nat.add_sub_cancel] at hbytes
    · intro t ht
      rcases hmismatched with hjs | hbytes
      · omega
      · rwa [← ht, Nat.add_sub_cancel] at hbytes

/-- No entry is greater than the length of the pattern. -/
theorem shifts_le (hj : j < x.size) : (shifts x).getD j 0 ≤ x.size :=
  (shifts_least hj).2 ⟨by omega, (consistent_iff_border hj).mpr (border_size x)⟩

/-- **The good-suffix table has the least shifts.** The entry of a position is the least move, of at least
one place and at most the pattern's length, that lays equal bytes under the ones behind the position, and
lays a different byte or none under the position itself. No entry is read or written outside a table. -/
theorem good_suffix_shifts_are_least (x : ByteArray) :
    shiftsInRange x = some (shifts x) ∧ (shifts x).size = x.size ∧
      ∀ j < x.size,
        IsLeast
          {s | 1 ≤ s ∧ s ≤ x.size ∧
            (∀ k, j < k → k < x.size → s ≤ k → byteAt x (k - s) = byteAt x k) ∧
            (j < s ∨ byteAt x (j - s) ≠ byteAt x j)}
          ((shifts x).getD j 0) := by
  refine ⟨shiftsInRange_eq x, size_shifts x, ?_⟩
  intro j hj
  obtain ⟨⟨hpos, hconsistent⟩, hleast⟩ := shifts_least hj
  refine ⟨⟨hpos, shifts_le hj, consistent_iff_positions.mp hconsistent⟩, ?_⟩
  rintro s ⟨hs, -, hbytes⟩
  exact hleast ⟨hs, consistent_iff_positions.mpr hbytes⟩

/-- After a mismatch at the last position but one of a pattern of period two, a move by two places would lay
the same byte under it; the least is the one that leaves only the first byte to be met. -/
theorem good_suffix_shifts_of_period :
    shifts (.mk #[1, 2, 1, 2, 1]) = #[2, 2, 4, 4, 1] ∧
      IsLeast
        {s | 1 ≤ s ∧ s ≤ 5 ∧
          (∀ k, 3 < k → k < 5 → s ≤ k →
            byteAt (.mk #[1, 2, 1, 2, 1]) (k - s) = byteAt (.mk #[1, 2, 1, 2, 1]) k) ∧
          (3 < s ∨ byteAt (.mk #[1, 2, 1, 2, 1]) (3 - s) ≠ byteAt (.mk #[1, 2, 1, 2, 1]) 3)}
        4 := by
  have htable : shifts (.mk #[1, 2, 1, 2, 1]) = #[2, 2, 4, 4, 1] := by decide +kernel
  have hleast := (good_suffix_shifts_are_least (.mk #[1, 2, 1, 2, 1])).2.2 3 (by decide)
  rw [htable] at hleast
  exact ⟨htable, hleast⟩

end DedupImage.Pattern
