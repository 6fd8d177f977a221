import DedupImage.Pattern.Shift
import DedupImage.Proofs.Bytes

/-!
# Suffix lengths are exact

The suffix length at a position says how far one can walk down from there while the bytes are those at
the end of the pattern. With `d` for the distance from the position to the last one, this is a walk down
along bytes that are equal to the bytes `d` places further, and `StopsAt` says where such a walk ends.

The table is found from its end in linear time (`extendSuffixes`). `Extending` is what holds between two
of its entries: the entries so far are right, and the walk that reached furthest down is known with its
distance. Inside that walk the bytes repeat bytes further up, so an entry that ends inside is the entry
found for the place further up (`StopsAt.shift`); any other one reaches down to the end of the walk at
least, and the comparison goes on from there (`StopsAt.extend`).
-/

namespace DedupImage.Pattern

variable {x : ByteArray} {d f g i k lo mid hi n : Nat}

/-! ## Entries of tables -/

section Entries

variable {α : Type} (table : Array α) (a default : α) {j : Nat}

theorem getD_push (j : Nat) :
    (table.push a).getD j default = if j = table.size then a else table.getD j default := by
  rw [Array.getD_eq_getD_getElem?, Array.getD_eq_getD_getElem?, Array.getElem?_push]
  split <;> rfl

theorem getD_append_replicate (n : Nat) (hj : j < table.size + n) :
    (table ++ Array.replicate n a).getD j default =
      if j < table.size then table.getD j default else a := by
  rw [Array.getD_eq_getD_getElem?, Array.getD_eq_getD_getElem?, Array.getElem?_append]
  split
  · rfl
  · rw [Array.getElem?_replicate, if_pos (by omega)]
    rfl

theorem getD_setIfInBounds (k : Nat) (hk : k < table.size) :
    (table.setIfInBounds k a).getD j default = if j = k then a else table.getD j default := by
  rw [Array.getD_eq_getD_getElem?, Array.getD_eq_getD_getElem?]
  by_cases hjk : j = k
  · rw [if_pos hjk, hjk, Array.getElem?_setIfInBounds_self_of_lt hk]
    rfl
  · rw [if_neg hjk, Array.getElem?_setIfInBounds_ne (Ne.symm hjk)]

end Entries

/-! ## Walks -/

/-- The bytes from `lo` on, below `hi`, are those `d` places further. -/
def Meets (x : ByteArray) (d lo hi : Nat) : Prop :=
  ∀ t, lo ≤ t → t < hi → byteAt x t = byteAt x (t + d)

/-- A walk down from below `hi`, along bytes that are equal to those `d` places further, ends at `lo`. -/
structure StopsAt (x : ByteArray) (d hi lo : Nat) : Prop where
  le : lo ≤ hi
  meets : Meets x d lo hi
  stops : ∀ t, t + 1 = lo → byteAt x t ≠ byteAt x (t + d)

/-- A walk ends at one place. -/
theorem StopsAt.unique {lo' : Nat} (h : StopsAt x d hi lo) (h' : StopsAt x d hi lo') : lo = lo' := by
  have hle := h.le
  have hle' := h'.le
  rcases Nat.lt_trichotomy lo lo' with hlt | heq | hlt
  · exact absurd (h.meets (lo' - 1) (by omega) (by omega)) (h'.stops (lo' - 1) (by omega))
  · exact heq
  · exact absurd (h'.meets (lo - 1) (by omega) (by omega)) (h.stops (lo - 1) (by omega))

theorem matchDown_stopsAt (x : ByteArray) (d g : Nat) : StopsAt x d g (matchDown x d g) := by
  induction g with
  | zero => exact ⟨Nat.le_refl 0, fun t _ ht => absurd ht (Nat.not_lt_zero t), fun t ht => by cases ht⟩
  | succ g ih =>
    unfold matchDown
    by_cases heq : byteAt x g = byteAt x (g + d)
    · rw [if_pos (beq_iff_eq.mpr heq)]
      refine ⟨Nat.le_succ_of_le ih.le, ?_, ih.stops⟩
      intro t hlo ht
      by_cases htg : t = g
      · exact htg ▸ heq
      · exact ih.meets t hlo (by omega)
    · rw [if_neg (mt beq_iff_eq.mp heq)]
      refine ⟨Nat.le_refl _, fun t hlo ht => absurd ht (Nat.not_lt.mpr hlo), ?_⟩
      intro t ht
      obtain rfl := Nat.succ.inj ht
      exact heq

/-- A walk that goes on after it came down to `mid`. -/
theorem StopsAt.extend (h : StopsAt x d mid lo) (hmid : mid ≤ hi) (hmeets : Meets x d mid hi) :
    StopsAt x d hi lo where
  le := Nat.le_trans h.le hmid
  meets t hlo ht := by
    by_cases hlt : t < mid
    · exact h.meets t hlo hlt
    · exact hmeets t (Nat.not_lt.mp hlt) ht
  stops := h.stops

/-- Where bytes are those `e` places further, a walk with distance `d` there is a walk with distance
`e + d` here. -/
theorem Meets.shift {e : Nat} (hwindow : Meets x e lo hi) (h : Meets x d (lo + e) (hi + e)) :
    Meets x (e + d) lo hi := by
  intro t hlo ht
  rw [hwindow t hlo ht, h (t + e) (by omega) (by omega), Nat.add_assoc]

/-- If the walk there ends before the equal bytes do, the walk here ends at the same place. -/
theorem StopsAt.shift {e : Nat} (h : StopsAt x d (hi + e) (lo + e)) (hg : g < lo)
    (hwindow : Meets x e g hi) : StopsAt x (e + d) hi lo where
  le := Nat.le_of_add_le_add_right h.le
  meets := Meets.shift (fun t hlo ht => hwindow t (by omega) ht) h.meets
  stops t ht := by
    have hle := h.le
    rw [hwindow t (by omega) (by omega), ← Nat.add_assoc]
    exact h.stops (t + e) (by omega)

/-! ## Suffix lengths -/

/-- `n` is the length of the longest common suffix of the pattern and of its bytes up to position `i`. -/
structure IsSuffixLength (x : ByteArray) (i n : Nat) : Prop where
  le : n ≤ i + 1
  stopsAt : StopsAt x (x.size - 1 - i) (i + 1) (i + 1 - n)

/-- Where the walk down from position `i` ends gives the suffix length there. -/
theorem IsSuffixLength.of_stopsAt (h : StopsAt x (x.size - 1 - i) (i + 1) lo) :
    IsSuffixLength x i (i + 1 - lo) where
  le := Nat.sub_le _ _
  stopsAt := by
    have hle := h.le
    rwa [show i + 1 - (i + 1 - lo) = lo by omega]

/-- The whole pattern is a common suffix of itself. -/
theorem isSuffixLength_last (h : 0 < x.size) : IsSuffixLength x (x.size - 1) x.size where
  le := by omega
  stopsAt := by
    rw [Nat.sub_self, show x.size - 1 + 1 = x.size by omega, Nat.sub_self]
    exact ⟨Nat.zero_le _, fun t _ _ => rfl, fun t ht => by cases ht⟩

/-! ## The table -/

/-- What holds while the suffix lengths below `i` are still to be found. The walk from `f` down to `g` is
known once a position below it is looked at; until then there is none. -/
structure Extending (x : ByteArray) (f g : Nat) (found : Array Nat) (i : Nat) : Prop where
  size : found.size + i = x.size
  last : f < x.size
  above : i ≤ f
  window : g ≤ i → f + 1 < x.size ∧ StopsAt x (x.size - 1 - f) (f + 1) g
  exact : ∀ k, i ≤ k → k < x.size → IsSuffixLength x k (found.getD (x.size - 1 - k) 0)

namespace Extending

variable {found : Array Nat}

/-- The next suffix length is put behind those found. -/
theorem push (h : Extending x f g found (i + 1)) {n f' g' : Nat} (hn : IsSuffixLength x i n)
    (hlast : f' < x.size) (habove : i ≤ f')
    (hwindow : g' ≤ i → f' + 1 < x.size ∧ StopsAt x (x.size - 1 - f') (f' + 1) g') :
    Extending x f' g' (found.push n) i where
  size := by
    rw [Array.size_push]
    have := h.size
    omega
  last := hlast
  above := habove
  window := hwindow
  exact k hik hk := by
    have hsize := h.size
    rw [getD_push]
    by_cases heq : k = i
    · rw [if_pos (by omega)]
      exact heq ▸ hn
    · rw [if_neg (by omega)]
      exact h.exact k (by omega) hk

/-- The entry that the window leads to: it belongs to the place as far below the last position as `i` is
below the window's end. -/
theorem known (h : Extending x f g found (i + 1)) (hg : g ≤ i) :
    IsSuffixLength x (i + (x.size - 1 - f)) (found.getD (f - i) 0) ∧
      x.size - 1 - (i + (x.size - 1 - f)) = f - i := by
  have habove := h.above
  obtain ⟨hlast, -⟩ := h.window (Nat.le_succ_of_le hg)
  have hplace : x.size - 1 - (i + (x.size - 1 - f)) = f - i := by omega
  refine ⟨?_, hplace⟩
  rw [← hplace]
  exact h.exact _ (by omega) (by omega)

/-- A known entry that ends inside the window is the entry of the position. -/
theorem of_inside (h : Extending x f g found (i + 1)) (hg : g ≤ i)
    (hknown : found.getD (f - i) 0 < i + 1 - g) : IsSuffixLength x i (found.getD (f - i) 0) := by
  have habove := h.above
  obtain ⟨hlast, hwindow⟩ := h.window (Nat.le_succ_of_le hg)
  obtain ⟨hn, hplace⟩ := h.known hg
  generalize found.getD (f - i) 0 = n at hknown hn
  have hstops := hn.stopsAt
  rw [hplace, show i + (x.size - 1 - f) + 1 = i + 1 + (x.size - 1 - f) by omega,
    show i + 1 + (x.size - 1 - f) - n = i + 1 - n + (x.size - 1 - f) by omega] at hstops
  refine ⟨by omega, ?_⟩
  rw [show x.size - 1 - i = x.size - 1 - f + (f - i) by omega]
  exact hstops.shift (by omega) fun t hlo ht => hwindow.meets t hlo (by omega)

/-- A known entry that does not end inside reaches down to the end of the window. -/
theorem meets_of_outside (h : Extending x f g found (i + 1)) (hg : g ≤ i)
    (hknown : i + 1 - g ≤ found.getD (f - i) 0) : Meets x (x.size - 1 - i) g (i + 1) := by
  have habove := h.above
  obtain ⟨hlast, hwindow⟩ := h.window (Nat.le_succ_of_le hg)
  obtain ⟨hn, hplace⟩ := h.known hg
  have hmeets := hn.stopsAt.meets
  rw [hplace] at hmeets
  rw [show x.size - 1 - i = x.size - 1 - f + (f - i) by omega]
  refine Meets.shift (fun t hlo ht => hwindow.meets t hlo (by omega)) ?_
  exact fun t hlo ht => hmeets t (by omega) (by omega)

/-- A known entry that ends inside the window is put behind those found. -/
theorem reuse (h : Extending x f g found (i + 1))
    (hinside : g ≤ i ∧ found.getD (f - i) 0 < i + 1 - g) :
    Extending x f g (found.push (found.getD (f - i) 0)) i := by
  have habove := h.above
  exact h.push (h.of_inside hinside.1 hinside.2) h.last (by omega) fun _ => h.window (by omega)

/-- Otherwise the bytes below the window are compared, and the walk becomes the window. -/
theorem compare (h : Extending x f g found (i + 1))
    (hinside : ¬ (g ≤ i ∧ found.getD (f - i) 0 < i + 1 - g)) :
    Extending x i (matchDown x (x.size - 1 - i) (min g (i + 1)))
      (found.push (i + 1 - matchDown x (x.size - 1 - i) (min g (i + 1)))) i := by
  have hlast := h.last
  have habove := h.above
  -- all bytes from where the comparison starts are known to be equal
  have hmeets : Meets x (x.size - 1 - i) (min g (i + 1)) (i + 1) := by
    by_cases hg : g ≤ i
    · rw [Nat.min_eq_left (by omega)]
      exact h.meets_of_outside hg (by omega)
    · rw [Nat.min_eq_right (by omega)]
      exact fun t hlo ht => absurd ht (Nat.not_lt.mpr hlo)
  have hstops := (matchDown_stopsAt x (x.size - 1 - i) (min g (i + 1))).extend
    (Nat.min_le_right _ _) hmeets
  exact h.push (.of_stopsAt hstops) (by omega) (Nat.le_refl i) fun _ => ⟨by omega, hstops⟩

end Extending

/-- **One entry after the other is right.** -/
theorem extendSuffixes_extending {found : Array Nat} (h : Extending x f g found i) :
    ∃ f' g', Extending x f' g' (extendSuffixes x f g found i) 0 := by
  induction i generalizing f g found with
  | zero => exact ⟨f, g, h⟩
  | succ i ih =>
    unfold extendSuffixes
    dsimp only
    by_cases hinside : g ≤ i ∧ found.getD (f - i) 0 < i + 1 - g
    · rw [if_pos hinside]
      exact ih (h.reuse hinside)
    · rw [if_neg hinside]
      exact ih (h.compare hinside)

/-- Before the first comparison only the last position is answered, and there is no window. -/
theorem extending_start (h : 0 < x.size) :
    Extending x (x.size - 1) x.size #[x.size] (x.size - 1) where
  size := by
    show 1 + (x.size - 1) = x.size
    omega
  last := by omega
  above := Nat.le_refl _
  window hg := by omega
  exact k hik hk := by
    obtain rfl : k = x.size - 1 := by omega
    rw [Nat.sub_self]
    exact isSuffixLength_last h

theorem suffixesFromEnd_extending (h : 0 < x.size) :
    ∃ f g, Extending x f g (suffixesFromEnd x) 0 :=
  extendSuffixes_extending (extending_start h)

/-- The table has an entry for every position. -/
theorem size_suffixLengths (h : 0 < x.size) : (suffixLengths x).size = x.size := by
  obtain ⟨f, g, hall⟩ := suffixesFromEnd_extending h
  rw [suffixLengths, Array.size_reverse]
  exact hall.size

/-- **The table holds the suffix lengths.** -/
theorem suffixLengths_exact (hi : i < x.size) : IsSuffixLength x i ((suffixLengths x).getD i 0) := by
  obtain ⟨f, g, hall⟩ := suffixesFromEnd_extending (x := x) (by omega)
  have hsize : (suffixesFromEnd x).size = x.size := hall.size
  have hexact := hall.exact i (Nat.zero_le i) hi
  rwa [Array.getD_eq_getD_getElem?, ← hsize, ← Array.getElem?_reverse (by omega),
    ← Array.getD_eq_getD_getElem?] at hexact

end DedupImage.Pattern
