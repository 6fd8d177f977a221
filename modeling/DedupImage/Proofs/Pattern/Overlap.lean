import DedupImage.Proofs.Pattern.Fit
import Mathlib.Order.Bounds.Basic

/-!
# The longest overlap

A pattern may be laid over the end of a text if that end is a beginning of the pattern, and its length is
a positive multiple of the granularity and not below a least one: `Overlap`. The lengths are tried from
the longest multiple that both strings have room for downwards, so the first that fits is the longest of
all (`tail?_eq_some_iff`, `tail?_eq_none_iff`).
-/

namespace DedupImage.Pattern

variable {x text : ByteArray} {least granularity length bound base n : Nat}

/-- The last `length` bytes of the text are the first of the pattern, and overlaps of this length are
allowed. -/
structure Overlap (x text : ByteArray) (least granularity length : Nat) : Prop where
  least_le : max least 1 ≤ length
  multiple : granularity ∣ length
  le_text : length ≤ text.size
  le_pattern : length ≤ x.size
  bytes : ∀ k < length, byteAt text (text.size - length + k) = byteAt x k

/-- An overlap is a length that is tried and at which the strings agree. -/
theorem overlap_iff (hbound : n * granularity ≤ min text.size x.size) :
    Overlap x text least granularity (n * granularity) ↔
      max least 1 ≤ n * granularity ∧
        agree text (text.size - n * granularity) x 0 (n * granularity) = true := by
  simp only [agree_iff, Nat.zero_add]
  constructor
  · intro h
    exact ⟨h.least_le, h.bytes⟩
  · rintro ⟨hleast, hbytes⟩
    exact ⟨hleast, Nat.dvd_mul_left _ _, by omega, by omega, hbytes⟩

/-- What a search among the lengths up to `bound` answers: where the longest overlap starts, or that
there is none. -/
def LongestUpTo (x text : ByteArray) (least granularity bound : Nat) : Option Nat → Prop
  | some base =>
    base ≤ text.size ∧
      IsGreatest {length | length ≤ bound ∧ Overlap x text least granularity length} (text.size - base)
  | none => ∀ length ≤ bound, ¬ Overlap x text least granularity length

/-- An answer for fewer lengths holds for more, if none of those added is an overlap. -/
theorem LongestUpTo.of_shorter {found : Option Nat} {bound' : Nat}
    (h : LongestUpTo x text least granularity bound found) (hle : bound ≤ bound')
    (hnone : ∀ length ≤ bound', Overlap x text least granularity length → length ≤ bound) :
    LongestUpTo x text least granularity bound' found := by
  cases found with
  | none => exact fun length hlength hoverlap => h length (hnone length hlength hoverlap) hoverlap
  | some base =>
    obtain ⟨hbase, ⟨hbound, hoverlap⟩, hgreatest⟩ := h
    refine ⟨hbase, ⟨Nat.le_trans hbound hle, hoverlap⟩, ?_⟩
    rintro length ⟨hlength, hother⟩
    exact hgreatest ⟨hnone length hlength hother, hother⟩

/-- Between two multiples there is none. -/
theorem le_of_dvd_of_lt_succ (hdvd : granularity ∣ length) (hlt : length < (n + 1) * granularity) :
    length ≤ n * granularity := by
  obtain ⟨k, rfl⟩ := hdvd
  rw [Nat.mul_comm] at hlt ⊢
  exact Nat.mul_le_mul_right _ (Nat.lt_succ_iff.mp (Nat.lt_of_mul_lt_mul_right hlt))

theorem tailFrom_longest (hbound : n * granularity ≤ min text.size x.size) :
    LongestUpTo x text least granularity (n * granularity)
      (tailFrom x text (max least 1) granularity n) := by
  induction n with
  | zero =>
    intro length hle hoverlap
    have := hoverlap.least_le
    omega
  | succ n ih =>
    have hiff : Overlap x text least granularity ((n + 1) * granularity) ↔ _ := overlap_iff hbound
    have hstep : n * granularity ≤ (n + 1) * granularity :=
      Nat.mul_le_mul_right _ (Nat.le_succ n)
    unfold tailFrom
    dsimp only
    by_cases hshort : (n + 1) * granularity < max least 1
    · rw [if_pos hshort]
      intro length hle hoverlap
      have := hoverlap.least_le
      omega
    · rw [if_neg hshort]
      by_cases hagree :
          agree text (text.size - (n + 1) * granularity) x 0 ((n + 1) * granularity) = true
      · rw [if_pos hagree]
        have hoverlap := hiff.mpr ⟨by omega, hagree⟩
        refine ⟨Nat.sub_le _ _, ?_⟩
        rw [show text.size - (text.size - (n + 1) * granularity) = (n + 1) * granularity by omega]
        exact ⟨⟨Nat.le_refl _, hoverlap⟩, fun length hlength => hlength.1⟩
      · rw [if_neg hagree]
        refine (ih (by omega)).of_shorter hstep ?_
        intro length hle hoverlap
        apply le_of_dvd_of_lt_succ hoverlap.multiple
        refine Nat.lt_of_le_of_ne hle ?_
        rintro rfl
        exact hagree (hiff.mp hoverlap).2

theorem tail?_longest (x text : ByteArray) (least granularity : Nat) :
    LongestUpTo x text least granularity (min text.size x.size)
      ((ofBytes x).tail? text least granularity) := by
  unfold tail?
  by_cases hzero : granularity = 0
  · rw [if_pos hzero]
    intro length _ hoverlap
    obtain rfl := Nat.eq_zero_of_zero_dvd (hzero ▸ hoverlap.multiple)
    have := hoverlap.least_le
    omega
  · rw [if_neg hzero]
    have hmost := Nat.div_mul_le_self (min text.size x.size) granularity
    refine LongestUpTo.of_shorter (tailFrom_longest hmost) hmost ?_
    intro length hle hoverlap
    obtain ⟨k, rfl⟩ := hoverlap.multiple
    rw [Nat.mul_comm] at hle ⊢
    exact Nat.mul_le_mul_right _ ((Nat.le_div_iff_mul_le (Nat.pos_of_ne_zero hzero)).mpr hle)

/-- **What is found is the longest overlap.** -/
theorem tail?_eq_some_iff :
    (ofBytes x).tail? text least granularity = some base ↔
      base ≤ text.size ∧
        IsGreatest {length | Overlap x text least granularity length} (text.size - base) := by
  have hlongest := tail?_longest x text least granularity
  constructor
  · intro h
    rw [h] at hlongest
    obtain ⟨hbase, ⟨-, hoverlap⟩, hgreatest⟩ := hlongest
    exact ⟨hbase, hoverlap, fun length hlength =>
      hgreatest ⟨Nat.le_min.mpr ⟨hlength.le_text, hlength.le_pattern⟩, hlength⟩⟩
  · rintro ⟨hbase, hoverlap, hgreatest⟩
    cases htail : (ofBytes x).tail? text least granularity with
    | none =>
      rw [htail] at hlongest
      exact absurd hoverlap
        (hlongest _ (Nat.le_min.mpr ⟨hoverlap.le_text, hoverlap.le_pattern⟩))
    | some base' =>
      rw [htail] at hlongest
      obtain ⟨hbase', ⟨-, hoverlap'⟩, hgreatest'⟩ := hlongest
      have hle := hgreatest hoverlap'
      have hle' := hgreatest' ⟨Nat.le_min.mpr ⟨hoverlap.le_text, hoverlap.le_pattern⟩, hoverlap⟩
      exact congrArg some (by omega)

/-- **If no overlap is found there is none.** -/
theorem tail?_eq_none_iff :
    (ofBytes x).tail? text least granularity = none ↔
      ∀ length, ¬ Overlap x text least granularity length := by
  have hlongest := tail?_longest x text least granularity
  constructor
  · intro h length hoverlap
    rw [h] at hlongest
    exact hlongest length (Nat.le_min.mpr ⟨hoverlap.le_text, hoverlap.le_pattern⟩) hoverlap
  · intro h
    cases htail : (ofBytes x).tail? text least granularity with
    | none => rfl
    | some base => exact absurd (tail?_eq_some_iff.mp htail).2.1 (h _)

end DedupImage.Pattern
