import DedupImage.Proofs.Pattern.Overlap
import DedupImage.Proofs.Pattern.Search
import Mathlib

/-!
# The cheapest fit

A block may be laid into a text where it occurs, behind the end, or across the end with an overlap that is
allowed; unless it occurs, the text may not grow past the capacity: `Admissible`. Of these places
`Pattern.fit?` finds the one that adds the fewest bytes (`cheapest_fit_is_found`).

The three kinds are tried one after the other. A block that occurs adds nothing. For one that does not,
every overlap is shorter than the block, so the room that is left bounds the overlap from below
(`within_iff`), and a longer overlap adds fewer bytes. The bound is zero only if the block fits
behind the end.
-/

namespace DedupImage.Pattern

variable {x text : ByteArray} {limits : FitLimits} {position length : Nat} {f : Fit}

/-- The block may start here. -/
inductive Admissible (x text : ByteArray) (limits : FitLimits) (position : Nat) : Prop
  | inside (hholds : holdsAt text position x = true)
  | behind (hend : position = text.size) (hroom : position + x.size ≤ limits.capacity)
  | across {length : Nat} (hend : position + length = text.size)
      (hoverlap : Overlap x text limits.least limits.granularity length)
      (hroom : position + x.size ≤ limits.capacity)

/-- The fit has the sizes that its place gives it, and no admissible place adds fewer bytes. -/
structure Cheapest (x text : ByteArray) (limits : FitLimits) (f : Fit) : Prop where
  oldSize : f.oldSize = text.size
  newSize : f.newSize = max f.oldSize (f.base + x.size)
  admissible : Admissible x text limits f.base
  least : ∀ position, Admissible x text limits position →
    f.added ≤ (Fit.starting text.size position x.size).added
  leftmost : ∀ position, holdsAt text position x = true → f.base ≤ position

/-! ## Admissible places -/

theorem Admissible.le_text (h : Admissible x text limits position) : position ≤ text.size := by
  cases h with
  | inside hholds => exact Nat.le_of_add_right_le (holdsAt_iff.mp hholds).1
  | behind hend hroom => exact Nat.le_of_eq hend
  | across hend hoverlap hroom => omega

/-- A whole pattern that overlaps the text occurs in it. -/
theorem Overlap.holdsAt {least granularity : Nat} (h : Overlap x text least granularity x.size) :
    holdsAt text (text.size - x.size) x = true :=
  holdsAt_iff.mpr ⟨by have := h.le_text; omega, h.bytes⟩

/-- An admissible place at which nothing is added is an occurrence. -/
theorem Admissible.holdsAt (h : Admissible x text limits position) (hx : 0 < x.size)
    (hwithin : position + x.size ≤ text.size) : holdsAt text position x = true := by
  cases h with
  | inside hholds => exact hholds
  | behind hend hroom => omega
  | across hend hoverlap hroom =>
    have hle := hoverlap.le_pattern
    obtain rfl : _ = x.size := Nat.le_antisymm hle (by omega)
    rw [show position = text.size - x.size by omega]
    exact hoverlap.holdsAt

theorem overlap_max_iff {least least' granularity : Nat} :
    Overlap x text (max least least') granularity length ↔
      Overlap x text least granularity length ∧ least' ≤ length := by
  constructor
  · intro h
    have hleast := h.least_le
    exact ⟨⟨by omega, h.multiple, h.le_text, h.le_pattern, h.bytes⟩, by omega⟩
  · rintro ⟨h, hle⟩
    have hleast := h.least_le
    exact ⟨by omega, h.multiple, h.le_text, h.le_pattern, h.bytes⟩

/-- What the room behind the text leaves to be overlapped. -/
def required (x text : ByteArray) (limits : FitLimits) : Nat :=
  x.size - (limits.capacity - text.size)

/-- **The room bounds the overlap from below.** -/
theorem within_iff (hle : length ≤ text.size) (hlt : length < x.size) :
    text.size - length + x.size ≤ limits.capacity ↔ required x text limits ≤ length := by
  unfold required
  omega

/-- The admissible places of a pattern that does not occur. -/
theorem admissible_iff (hx : 0 < x.size) (hnone : ∀ k, ¬ holdsAt text k x = true) :
    Admissible x text limits position ↔
      (position = text.size ∧ required x text limits = 0) ∨
        ∃ length, position + length = text.size ∧
          Overlap x text (max limits.least (required x text limits)) limits.granularity length := by
  have hshort (length : Nat) (h : Overlap x text limits.least limits.granularity length) :
      length < x.size := by
    refine Nat.lt_of_le_of_ne h.le_pattern ?_
    rintro rfl
    exact hnone _ h.holdsAt
  have hempty : text.size - 0 + x.size ≤ limits.capacity ↔ required x text limits ≤ 0 :=
    within_iff (Nat.zero_le _) hx
  constructor
  · intro h
    cases h with
    | inside hholds => exact absurd hholds (hnone position)
    | behind hend hroom => exact .inl ⟨hend, by omega⟩
    | across hend hoverlap hroom =>
      refine .inr ⟨_, hend, overlap_max_iff.mpr ⟨hoverlap, ?_⟩⟩
      rw [← within_iff hoverlap.le_text (hshort _ hoverlap)]
      omega
  · rintro (⟨hend, hrequired⟩ | ⟨length, hend, hoverlap⟩)
    · exact .behind hend (by omega)
    · obtain ⟨hoverlap, hrequired⟩ := overlap_max_iff.mp hoverlap
      rw [← within_iff hoverlap.le_text (hshort _ hoverlap)] at hrequired
      exact .across hend hoverlap (by omega)

/-! ## What is found -/

/-- What a search for a fit answers: the cheapest one, or that no place is admissible. -/
def CheapestIfAny (x text : ByteArray) (limits : FitLimits) : Option Fit → Prop
  | some f => Cheapest x text limits f
  | none => ∀ position, ¬ Admissible x text limits position

/-- An occurrence adds nothing. -/
theorem cheapest_of_find? {base : Nat} (h : (ofBytes x).find? text = some base) :
    Cheapest x text limits (Fit.starting text.size base x.size) := by
  obtain ⟨hholds, hleast⟩ := find?_isLeast h
  have hwithin := (holdsAt_iff.mp hholds).1
  refine ⟨rfl, rfl, .inside hholds, ?_, fun position hposition => hleast hposition⟩
  intro position _
  show max text.size (base + x.size) - text.size ≤ _
  omega

/-- Of the overlaps the longest adds the fewest bytes, and no overlap adds the most. -/
theorem cheapest_of_tail? {base : Nat} (hx : 0 < x.size) (hnone : ∀ k, ¬ holdsAt text k x = true)
    (h : (ofBytes x).tail? text (max limits.least (required x text limits)) limits.granularity =
      some base) : Cheapest x text limits (Fit.starting text.size base x.size) := by
  obtain ⟨hbase, hoverlap, hgreatest⟩ := tail?_eq_some_iff.mp h
  refine ⟨rfl, rfl, ?_, ?_, fun position hholds => absurd hholds (hnone position)⟩
  · exact (admissible_iff hx hnone).mpr (.inr ⟨_, Nat.add_sub_of_le hbase, hoverlap⟩)
  · intro position hposition
    show max text.size (base + x.size) - text.size ≤ max text.size (position + x.size) - text.size
    rcases (admissible_iff hx hnone).mp hposition with ⟨hend, -⟩ | ⟨length, hend, hother⟩
    · omega
    · have hle := hgreatest hother
      omega

/-- A pattern that overlaps nowhere goes behind the end, if there is room. -/
theorem cheapest_append (hx : 0 < x.size) (hnone : ∀ k, ¬ holdsAt text k x = true)
    (htail : ∀ length, ¬ Overlap x text (max limits.least (required x text limits))
      limits.granularity length) (hroom : required x text limits = 0) :
    Cheapest x text limits (Fit.append text.size x.size) := by
  refine ⟨rfl, rfl, ?_, ?_, fun position hholds => absurd hholds (hnone position)⟩
  · exact (admissible_iff hx hnone).mpr (.inl ⟨rfl, hroom⟩)
  · intro position hposition
    rcases (admissible_iff hx hnone).mp hposition with ⟨rfl, -⟩ | ⟨length, -, hother⟩
    · exact Nat.le_refl _
    · exact absurd hother (htail length)

theorem fit?_cheapestIfAny (hx : 0 < x.size) :
    CheapestIfAny x text limits ((ofBytes x).fit? text limits) := by
  unfold fit?
  cases hfind : (ofBytes x).find? text with
  | some base => exact cheapest_of_find? hfind
  | none =>
    have hnone := find?_eq_none_iff.mp hfind
    dsimp only
    rw [show (ofBytes x).size - (limits.capacity - text.size) = required x text limits from rfl]
    by_cases hover : text.size < required x text limits
    · rw [if_pos hover]
      intro position hposition
      rcases (admissible_iff hx hnone).mp hposition with ⟨-, hroom⟩ | ⟨length, -, hother⟩
      · omega
      · have hleast := hother.least_le
        have hle := hother.le_text
        omega
    · rw [if_neg hover]
      cases htail : (ofBytes x).tail? text (max limits.least (required x text limits))
          limits.granularity with
      | some base => exact cheapest_of_tail? hx hnone htail
      | none =>
        have hnever := tail?_eq_none_iff.mp htail
        dsimp only
        by_cases hroom : 0 < required x text limits
        · rw [if_pos hroom]
          intro position hposition
          rcases (admissible_iff hx hnone).mp hposition with ⟨-, hzero⟩ | ⟨length, -, hother⟩
          · omega
          · exact hnever length hother
        · rw [if_neg hroom]
          exact cheapest_append hx hnone hnever (Nat.eq_zero_of_not_pos hroom)

namespace Cheapest

theorem added_eq (h : Cheapest x text limits f) : f.added = f.base + x.size - text.size := by
  unfold Fit.added
  rw [h.newSize, h.oldSize]
  omega

/-- **Nothing is added exactly if the pattern occurs.** -/
theorem added_eq_zero_iff (h : Cheapest x text limits f) (hx : 0 < x.size) :
    f.added = 0 ↔ ∃ position, holdsAt text position x = true := by
  rw [h.added_eq]
  constructor
  · intro hzero
    exact ⟨f.base, h.admissible.holdsAt hx (by omega)⟩
  · rintro ⟨position, hholds⟩
    have hwithin := (holdsAt_iff.mp hholds).1
    have hbase := h.leftmost position hholds
    omega

/-- A pattern that occurs is laid over its first occurrence. -/
theorem isLeast (h : Cheapest x text limits f) (hx : 0 < x.size)
    (hholds : ∃ position, holdsAt text position x = true) :
    IsLeast {position | holdsAt text position x = true} f.base := by
  have hzero := (h.added_eq_zero_iff hx).mpr hholds
  rw [h.added_eq] at hzero
  exact ⟨h.admissible.holdsAt hx (by omega), h.leftmost⟩

theorem added_le (h : Cheapest x text limits f) : f.added ≤ x.size := by
  have hbase := h.admissible.le_text
  rw [h.added_eq]
  omega

end Cheapest

/-- **The cheapest fit is found,** and none only if no place is admissible. Nothing is added exactly if the
block occurs, and then it is laid over its first occurrence; no more than the block is ever added. -/
theorem cheapest_fit_is_found (x text : ByteArray) (limits : FitLimits) (hx : 0 < x.size) :
    ((ofBytes x).fit? text limits = none ↔ ∀ position, ¬ Admissible x text limits position) ∧
      ∀ f, (ofBytes x).fit? text limits = some f →
        Cheapest x text limits f ∧
          (f.added = 0 ↔ ∃ position, holdsAt text position x = true) ∧
          ((∃ position, holdsAt text position x = true) →
            IsLeast {position | holdsAt text position x = true} f.base) ∧
          f.added + f.shared x.size = x.size := by
  have hanswer : CheapestIfAny x text limits ((ofBytes x).fit? text limits) := fit?_cheapestIfAny hx
  constructor
  · constructor
    · intro hnone
      rwa [hnone] at hanswer
    · intro hnever
      cases hfit : (ofBytes x).fit? text limits with
      | none => rfl
      | some f =>
        rw [hfit] at hanswer
        exact absurd hanswer.admissible (hnever f.base)
  · intro f hfit
    rw [hfit] at hanswer
    exact ⟨hanswer, hanswer.added_eq_zero_iff hx, hanswer.isLeast hx, Nat.add_sub_of_le hanswer.added_le⟩

set_option maxRecDepth 100000 in
/-- A block that fits only if it overlaps the text by two bytes. -/
theorem cheapest_fit_of_overlap :
    (ofBytes (.mk #[1, 2, 3])).fit? (.mk #[1, 2, 0, 1, 2]) ⟨1, 1, 6⟩ = some ⟨5, 3, 6⟩ ∧
      Cheapest (.mk #[1, 2, 3]) (.mk #[1, 2, 0, 1, 2]) ⟨1, 1, 6⟩ ⟨5, 3, 6⟩ := by
  have hfit : (ofBytes (.mk #[1, 2, 3])).fit? (.mk #[1, 2, 0, 1, 2]) ⟨1, 1, 6⟩ = some ⟨5, 3, 6⟩ := by
    cbv
  exact ⟨hfit, ((cheapest_fit_is_found _ _ _ (by decide)).2 _ hfit).1⟩

end DedupImage.Pattern
