import DedupImage.Pattern.Fit
import DedupImage.Proofs.Bytes

/-!
# A fit lays the block over equal bytes

`Fit.Lays` is what placement relies on when it writes only the part of a block that lies past the end
of a container: the block starts inside the stored bytes or right behind them, and as far as both reach
they are equal. Every fit that `Pattern.fit?` gives has it (`Pattern.fit?_lays`), and so does the fit
that shares nothing (`Fit.append_lays`).

Only soundness is stated here. Nothing is said about which of the possible places is found, so the
shift tables of the pattern play no part.
-/

namespace DedupImage

/-- The block may be laid into the text where the fit says: what it covers of the text is equal to it,
and the sizes are those before and after. -/
structure Fit.Lays (f : Fit) (text block : ByteArray) : Prop where
  oldSize : f.oldSize = text.size
  base_le : f.base ≤ text.size
  newSize : f.newSize = max text.size (f.base + block.size)
  bytes : ∀ k, k < block.size → f.base + k < text.size →
    byteAt text (f.base + k) = byteAt block k

namespace Fit

/-- A block right behind the text covers nothing of it. -/
theorem append_lays (text block : ByteArray) : (append text.size block.size).Lays text block where
  oldSize := rfl
  base_le := Nat.le_refl _
  newSize := rfl
  bytes k _ h := by
    have : text.size + k < text.size := h
    omega

/-- A place at which the whole block occurs. -/
theorem starting_lays_of_holdsAt {text block : ByteArray} {base : Nat}
    (h : holdsAt text base block = true) : (starting text.size base block.size).Lays text block := by
  obtain ⟨hsize, hbytes⟩ := holdsAt_iff.mp h
  exact ⟨rfl, Nat.le_of_add_right_le hsize, rfl, fun k hk _ => hbytes k hk⟩

namespace Lays

variable {f : Fit} {text block : ByteArray}

/-- Writing what lies past the end completes the block. -/
theorem holdsAt_rest (h : f.Lays text block) :
    holdsAt (text ++ block.extract (text.size - f.base) block.size) f.base block = true :=
  holdsAt_append_rest h.base_le h.bytes

end Lays

end Fit

namespace Pattern

/-! ## Occurrences -/

/-- A comparison that meets no mismatch has compared equal bytes. -/
theorem unmatched_eq_zero {x text : ByteArray} {j i : Nat} (h : unmatched x text j i = 0) :
    ∀ k < i, byteAt text (j + k) = byteAt x k := by
  induction i with
  | zero => exact fun k hk => absurd hk (Nat.not_lt_zero k)
  | succ i ih =>
    unfold unmatched at h
    split at h
    · intro k hk
      by_cases hki : k = i
      · subst hki
        rw [Nat.add_comm]
        exact (eq_of_beq ‹_›).symm
      · exact ih h k (by omega)
    · exact absurd h (Nat.succ_ne_zero i)

theorem findFrom_holdsAt (p : Pattern) (text : ByteArray) (j : Nat) {base : Nat}
    (h : p.findFrom text j = some base) : holdsAt text base p.bytes = true := by
  fun_induction findFrom p text j with
  | case1 j hj hmatch =>
    obtain rfl := Option.some.inj h
    exact holdsAt_iff.mpr ⟨hj, unmatched_eq_zero hmatch⟩
  | case2 j hj i hmatch ih => exact ih h
  | case3 j hj => cases h

/-- The whole pattern is stored where it is found. -/
theorem find?_holdsAt {p : Pattern} {text : ByteArray} {base : Nat}
    (h : p.find? text = some base) : holdsAt text base p.bytes = true := by
  unfold find? at h
  split at h
  · obtain rfl := Option.some.inj h
    have hempty : p.bytes = ByteArray.empty := ByteArray.size_eq_zero_iff.mp ‹_›
    rw [hempty]
    exact holdsAt_empty (Nat.zero_le _)
  · exact findFrom_holdsAt p text 0 h

/-! ## Overlaps with the end -/

/-- An overlap that is found has a length among those tried, and its bytes agree. -/
theorem tailFrom_eq_some {x text : ByteArray} {shortest granularity n base : Nat}
    (h : tailFrom x text shortest granularity n = some base) :
    ∃ length, length ≤ n * granularity ∧ base = text.size - length ∧
      agree text base x 0 length = true := by
  induction n with
  | zero => cases h
  | succ n ih =>
    unfold tailFrom at h
    dsimp only at h
    split at h
    · cases h
    · split at h
      · obtain rfl := Option.some.inj h
        exact ⟨(n + 1) * granularity, Nat.le_refl _, rfl, ‹_›⟩
      · obtain ⟨length, hle, hbase, hagree⟩ := ih h
        refine ⟨length, Nat.le_trans hle ?_, hbase, hagree⟩
        exact Nat.mul_le_mul_right granularity (Nat.le_succ n)

/-- A block laid over the end where an overlap is found meets equal bytes there. -/
theorem tail?_lays {p : Pattern} {text : ByteArray} {least granularity base : Nat}
    (h : p.tail? text least granularity = some base) :
    (Fit.starting text.size base p.size).Lays text p.bytes := by
  unfold tail? at h
  split at h
  · cases h
  · obtain ⟨length, hle, hbase, hagree⟩ := tailFrom_eq_some h
    have hmin := Nat.div_mul_le_self (min text.size p.size) granularity
    refine ⟨rfl, by show base ≤ text.size; omega, rfl, ?_⟩
    intro k hk hlt
    have hlt : base + k < text.size := hlt
    have := agree_iff.mp hagree k (by omega)
    rwa [Nat.zero_add] at this

/-! ## Fits -/

/-- Every fit that is given lays the pattern over equal bytes. -/
theorem fit?_lays {p : Pattern} {text : ByteArray} {limits : FitLimits} {f : Fit}
    (h : p.fit? text limits = some f) : f.Lays text p.bytes := by
  unfold fit? at h
  split at h
  · obtain rfl := Option.some.inj h
    exact Fit.starting_lays_of_holdsAt (find?_holdsAt ‹_›)
  · dsimp only at h
    split at h
    · cases h
    · split at h
      · obtain rfl := Option.some.inj h
        exact tail?_lays ‹_›
      · split at h
        · cases h
        · obtain rfl := Option.some.inj h
          exact Fit.append_lays text p.bytes

end Pattern

end DedupImage
