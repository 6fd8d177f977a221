import DedupImage.Codec.WordLengths
import Mathlib.Algebra.BigOperators.Group.List.Basic
import Mathlib.Tactic.Ring

/-!
# Word lengths fill a tree

A word of `l` bits takes up `2 ^ (15 - l)` of the `2 ^ 15` places that a tree has at its lowest level
(`share`). What a tree of symbols has to share out, its words share out completely (`WordTree.taken_words`), and
so does a row of symbols, because each of its cuts halves it (`taken_balanced`). So the word lengths of every code
fill a tree (`filled_ofCounts`), and every symbol that occurs has a word (`ofCounts_pos`).
-/

namespace DedupImage

namespace WordLengths

/-- The number of levels of a tree. -/
def levels : Nat := 15

/-- The places at the lowest level of a tree that a word takes up. The length zero is no word. -/
def share (length : Nat) : Nat := if length = 0 then 0 else 2 ^ (levels - length)

/-- The places that words take up together. -/
def taken (lengths : List Nat) : Nat := (lengths.map share).sum

@[simp] theorem taken_nil : taken [] = 0 := rfl

@[simp] theorem taken_cons (l : Nat) (lengths : List Nat) : taken (l :: lengths) = share l + taken lengths :=
  List.sum_cons

@[simp] theorem taken_append (a b : List Nat) : taken (a ++ b) = taken a + taken b := by
  simp [taken]

theorem taken_perm {a b : List Nat} (h : a.Perm b) : taken a = taken b :=
  (h.map share).sum_eq

end WordLengths

/-! ## Trees of symbols -/

namespace WordTree

open WordLengths

variable {level : Nat} {t : WordTree} {weights : List Nat}

/-- The symbols of a tree. -/
def symbols : WordTree → List Nat
  | leaf s => [s]
  | node zero one => zero.symbols ++ one.symbols

theorem map_fst_words (t : WordTree) (level : Nat) : (t.words level).map Prod.fst = t.symbols := by
  induction t generalizing level with
  | leaf s => rfl
  | node zero one ihZero ihOne => rw [words, List.map_append, ihZero, ihOne, symbols]

/-- The bits before a tree are in all its words. -/
theorem le_of_mem_words {w : Nat × Nat} (h : w ∈ t.words level) : level ≤ w.2 := by
  induction t generalizing level with
  | leaf s =>
    obtain rfl := List.mem_singleton.mp h
    exact Nat.le_refl _
  | node zero one ihZero ihOne =>
    rcases List.mem_append.mp h with h | h
    · exact Nat.le_of_succ_le (ihZero h)
    · exact Nat.le_of_succ_le (ihOne h)

theorem words_ne_nil (t : WordTree) (level : Nat) : t.words level ≠ [] := by
  induction t generalizing level with
  | leaf s => exact List.cons_ne_nil _ _
  | node zero one ihZero _ => exact List.append_ne_nil_of_left_ne_nil (ihZero _) _

/-- **The words of a tree take up all places** below the bits before it. -/
theorem taken_words (hshort : ∀ w ∈ t.words level, w.2 ≤ levels) (hroot : 0 < level ∨ 2 ≤ t.symbols.length) :
    taken ((t.words level).map Prod.snd) = 2 ^ (levels - level) := by
  induction t generalizing level with
  | leaf s =>
    have hpos : 0 < level := hroot.resolve_right (by simp [symbols])
    simp [words, share, Nat.ne_of_gt hpos]
  | node zero one ihZero ihOne =>
    obtain ⟨w, rest, hwords⟩ := List.exists_cons_of_ne_nil (words_ne_nil zero (level + 1))
    have hw : w ∈ zero.words (level + 1) := hwords ▸ List.mem_cons_self
    have hlow := le_of_mem_words hw
    have hhigh := hshort w (List.mem_append_left _ hw)
    have hzero := ihZero (fun w hw => hshort w (List.mem_append_left _ hw)) (.inl (Nat.succ_pos level))
    have hone := ihOne (fun w hw => hshort w (List.mem_append_right _ hw)) (.inl (Nat.succ_pos level))
    rw [words, List.map_append, taken_append, hzero, hone, ← Nat.two_mul, ← Nat.pow_succ']
    congr 1
    omega

/-- Two symbols differ in a bit, so no word is empty. -/
theorem words_pos {w : Nat × Nat} (htwo : 2 ≤ t.symbols.length) (h : w ∈ t.words 0) : 0 < w.2 := by
  cases t with
  | leaf s => simp [symbols] at htwo
  | node zero one =>
    rcases List.mem_append.mp h with h | h
    · exact le_of_mem_words h
    · exact le_of_mem_words h

/-- The symbols of a row of trees. -/
def rowSymbols (row : List (Nat × WordTree)) : List Nat :=
  row.flatMap fun t => t.2.symbols

theorem perm_insert (t : Nat × WordTree) (row : List (Nat × WordTree)) : (insert t row).Perm (t :: row) := by
  induction row with
  | nil => exact .refl _
  | cons u row ih =>
    rw [insert]
    split
    · exact .refl _
    · exact (ih.cons u).trans (.swap t u row)

/-- **Joining trees keeps their symbols.** -/
theorem perm_join (row : List (Nat × WordTree)) (n : Nat) : (rowSymbols (join row n)).Perm (rowSymbols row) := by
  induction n generalizing row with
  | zero => exact .refl _
  | succ n ih =>
    match row with
    | [] | [_] => exact .refl _
    | a :: b :: row =>
      refine (ih _).trans (((perm_insert _ row).flatMap_right _).trans ?_)
      rw [List.flatMap_cons, rowSymbols, List.flatMap_cons, List.flatMap_cons, ← List.append_assoc]
      exact .refl _

theorem length_join {row : List (Nat × WordTree)} {n : Nat} (h : row.length = n + 1) :
    (join row n).length = 1 := by
  induction n generalizing row with
  | zero => exact h
  | succ n ih =>
    match row with
    | a :: b :: row =>
      refine ih ?_
      rw [(perm_insert _ row).length_eq]
      exact Nat.succ.inj h

theorem perm_leaves (weights : List Nat) :
    (leaves weights).Perm (weights.zipIdx.map fun e => (e.1, leaf e.2)) := by
  unfold leaves
  induction weights.zipIdx with
  | nil => exact .refl _
  | cons e es ih => exact (perm_insert _ _).trans (ih.cons _)

/-- **The tree of a row of weights has one symbol for each of them.** -/
theorem perm_symbols (h : weights ≠ []) : (ofWeights weights).symbols.Perm (List.range weights.length) := by
  have hleaves := perm_leaves weights
  have hlength : (leaves weights).length = weights.length - 1 + 1 := by
    have hpos := List.length_pos_iff.mpr h
    rw [hleaves.length_eq, List.length_map, List.length_zipIdx]
    omega
  obtain ⟨u, hu⟩ := List.length_eq_one_iff.mp (length_join hlength)
  have hsymbols : (ofWeights weights).symbols = rowSymbols (join (leaves weights) (weights.length - 1)) := by
    rw [ofWeights, hu]
    exact (List.append_nil _).symm
  have hall : rowSymbols (weights.zipIdx.map fun e => (e.1, leaf e.2)) = List.range weights.length := by
    rw [rowSymbols, List.flatMap_map]
    change weights.zipIdx.flatMap (fun e => [e.2]) = _
    rw [← List.map_eq_flatMap, List.range_eq_range']
    exact List.zipIdx_map_snd 0 weights
  rw [hsymbols, ← hall]
  exact (perm_join _ _).trans (hleaves.flatMap_right _)

end WordTree

namespace WordLengths

/-- In a list without a key twice, a key is looked up where it is. -/
theorem lookup_of_mem {words : List (Nat × Nat)} {w : Nat × Nat} (hkeys : (words.map Prod.fst).Nodup)
    (h : w ∈ words) : words.lookup w.1 = some w.2 := by
  obtain ⟨front, rest, rfl⟩ := List.append_of_mem h
  refine List.lookup_eq_some_iff.mpr ⟨front, rest, rfl, fun u hu => ?_⟩
  rw [List.map_append, List.map_cons] at hkeys
  have hother := (List.nodup_append.mp hkeys).2.2 u.1 (List.mem_map_of_mem hu) w.1 List.mem_cons_self
  exact bne_iff_ne.mpr hother.symm

/-- The word lengths of a row are those of its tree. -/
theorem perm_joined {weights : List Nat} (h : weights ≠ []) :
    (joined weights).Perm (((WordTree.ofWeights weights).words 0).map Prod.snd) := by
  have hsymbols := WordTree.perm_symbols h
  have hkeys := WordTree.map_fst_words (WordTree.ofWeights weights) 0
  have hnodup : (((WordTree.ofWeights weights).words 0).map Prod.fst).Nodup := by
    rw [hkeys]
    exact hsymbols.nodup_iff.mpr List.nodup_range
  unfold joined
  refine (hsymbols.symm.map _).trans ?_
  rw [← hkeys, List.map_map]
  refine .of_eq (List.map_congr_left fun w hw => ?_)
  change (List.lookup w.1 _).getD 0 = w.2
  rw [lookup_of_mem hnodup hw, Option.getD_some]

/-! ## Cuts -/

/-- Neither side of a cut is empty, and neither is longer than it may be. -/
theorem cut_bounds {most : Nat} {weights : List Nat} (htwo : 2 ≤ weights.length)
    (hmost : weights.length ≤ 2 * most) :
    0 < cut most weights ∧ cut most weights < weights.length ∧ cut most weights ≤ most ∧
      weights.length - cut most weights ≤ most := by
  unfold cut
  omega

@[simp] theorem length_balanced (depth level : Nat) (weights : List Nat) :
    (balanced depth level weights).length = weights.length := by
  induction depth generalizing level weights with
  | zero => exact List.length_map _
  | succ depth ih =>
    rw [balanced]
    split
    · exact List.length_map _
    · rw [List.length_append, ih, ih, ← List.length_append, List.take_append_drop]

/-- Words have at least the bits that they have in common, and at most all. -/
theorem balanced_bounds {depth level l : Nat} {weights : List Nat} (h : l ∈ balanced depth level weights) :
    level ≤ l ∧ l ≤ level + depth := by
  induction depth generalizing level weights with
  | zero =>
    obtain ⟨-, -, rfl⟩ := List.mem_map.mp h
    omega
  | succ depth ih =>
    rw [balanced] at h
    split at h
    · obtain ⟨-, -, rfl⟩ := List.mem_map.mp h
      omega
    · rcases List.mem_append.mp h with h | h
      all_goals
        have := ih h
        omega

/-- Two symbols differ in a bit, so no word is empty. -/
theorem balanced_pos {depth l : Nat} {weights : List Nat} (hdepth : weights.length ≤ 2 ^ depth)
    (htwo : 2 ≤ weights.length) (h : l ∈ balanced depth 0 weights) : 0 < l := by
  cases depth with
  | zero =>
    rw [Nat.pow_zero] at hdepth
    omega
  | succ depth =>
    rw [balanced, if_neg (by omega)] at h
    rcases List.mem_append.mp h with h | h
    all_goals
      have := balanced_bounds h
      omega

/-- One word with these bits takes up all that is below them. -/
theorem taken_single {level : Nat} {weights : List Nat} (hone : weights.length = 1) (hroot : 0 < level) :
    taken (weights.map fun _ => level) = 2 ^ (levels - level) := by
  obtain ⟨w, rfl⟩ := List.length_eq_one_iff.mp hone
  simp [share, Nat.pos_iff_ne_zero.mp hroot]

/-- **A row of symbols takes up all places below the bits that their words have in common.** -/
theorem taken_balanced {depth level : Nat} {weights : List Nat} (hlevel : level + depth ≤ levels)
    (hsome : 0 < weights.length) (hfits : weights.length ≤ 2 ^ depth)
    (hroot : 0 < level ∨ 2 ≤ weights.length) :
    taken (balanced depth level weights) = 2 ^ (levels - level) := by
  induction depth generalizing level weights with
  | zero =>
    rw [Nat.pow_zero] at hfits
    exact taken_single (by omega) (by omega)
  | succ depth ih =>
    rw [balanced, Nat.one_shiftLeft]
    split
    next hshort => exact taken_single (by omega) (by omega)
    next hlong =>
      rw [Nat.pow_succ, Nat.mul_comm] at hfits
      obtain ⟨hfirst, hlast, hleft, hright⟩ := cut_bounds (by omega) hfits
      have htake : (weights.take (cut (2 ^ depth) weights)).length = cut (2 ^ depth) weights :=
        List.length_take_of_le (Nat.le_of_lt hlast)
      have hdeeper : level + 1 + depth ≤ levels := by omega
      have hdrop := List.length_drop (l := weights) (i := cut (2 ^ depth) weights)
      have hzero := ih hdeeper (htake.symm ▸ hfirst) (by omega) (by omega)
      have hlater : 0 < (weights.drop (cut (2 ^ depth) weights)).length := by omega
      have hone := ih hdeeper hlater (by omega) (by omega)
      rw [taken_append, hzero, hone, ← Nat.two_mul, ← Nat.pow_succ']
      congr 1
      omega

/-! ## Rows of weights -/

section

variable {limit l : Nat} {weights : List Nat}

@[simp] theorem length_ofWeights (limit : Nat) (weights : List Nat) :
    (ofWeights limit weights).length = weights.length := by
  unfold ofWeights
  dsimp only
  split
  · rw [joined, List.length_map, List.length_range]
  · exact length_balanced _ _ _

theorem le_of_mem_ofWeights (h : l ∈ ofWeights limit weights) : l ≤ limit := by
  unfold ofWeights at h
  dsimp only at h
  split at h
  next hshort => exact of_decide_eq_true (List.all_eq_true.mp hshort l h)
  · have := balanced_bounds h
    omega

theorem ofWeights_pos (htwo : 2 ≤ weights.length) (hfits : weights.length ≤ 2 ^ limit)
    (h : l ∈ ofWeights limit weights) : 0 < l := by
  unfold ofWeights at h
  dsimp only at h
  split at h
  · have hsome : weights ≠ [] := List.length_pos_iff.mp (by omega)
    obtain ⟨w, hw, rfl⟩ := List.mem_map.mp ((perm_joined hsome).mem_iff.mp h)
    exact WordTree.words_pos (by rwa [(WordTree.perm_symbols hsome).length_eq, List.length_range]) hw
  · exact balanced_pos hfits htwo h

/-- **The words of a row of weights fill a tree.** -/
theorem taken_ofWeights (hlimit : limit ≤ levels) (htwo : 2 ≤ weights.length)
    (hfits : weights.length ≤ 2 ^ limit) :
    taken (ofWeights limit weights) = 2 ^ levels := by
  unfold ofWeights
  dsimp only
  split
  next hshort =>
    have hsome : weights ≠ [] := List.length_pos_iff.mp (by omega)
    have hperm := perm_joined hsome
    rw [taken_perm hperm]
    refine WordTree.taken_words (fun w hw => ?_) (.inr ?_)
    · have hmem := hperm.mem_iff.mpr (List.mem_map_of_mem hw)
      exact Nat.le_trans (of_decide_eq_true (List.all_eq_true.mp hshort _ hmem)) hlimit
    · rwa [(WordTree.perm_symbols hsome).length_eq, List.length_range]
  · exact taken_balanced (by omega) (by omega) hfits (.inr htwo)

end

/-! ## Codes -/

@[simp] theorem length_spread (counts lengths : List Nat) : (spread counts lengths).length = counts.length := by
  fun_induction spread counts lengths with
  | case1 => rfl
  | case2 counts lengths ih => rw [List.length_cons, ih, List.length_cons]
  | case3 n counts lengths ih => rw [List.length_cons, ih, List.length_cons]

theorem taken_spread {counts lengths : List Nat}
    (h : lengths.length = (counts.filter (· ≠ 0)).length) : taken (spread counts lengths) = taken lengths := by
  fun_induction spread counts lengths with
  | case1 lengths =>
    rw [List.eq_nil_of_length_eq_zero h]
  | case2 counts lengths ih => rw [taken_cons, ih (by simpa using h), share, if_pos rfl, Nat.zero_add]
  | case3 n counts lengths ih =>
    cases lengths with
    | nil => simp at h
    | cons l lengths =>
      rw [List.tail_cons] at ih ⊢
      rw [taken_cons, taken_cons, ih (by simpa using h), List.headD_cons]

/-- A length is one of those that were given, or no word. -/
theorem mem_spread {counts lengths : List Nat} {l : Nat} (h : l ∈ spread counts lengths) :
    l = 0 ∨ l ∈ lengths := by
  fun_induction spread counts lengths with
  | case1 => cases h
  | case2 counts lengths ih => exact (List.mem_cons.mp h).elim .inl ih
  | case3 n counts lengths ih =>
    cases lengths with
    | nil =>
      rcases List.mem_cons.mp h with rfl | h
      · exact .inl rfl
      · exact ih h
    | cons l' lengths =>
      rcases List.mem_cons.mp h with rfl | h
      · exact .inr List.mem_cons_self
      · exact (ih h).imp id (List.mem_cons_of_mem _)

/-- A symbol that occurs gets one of the lengths. -/
theorem spread_mem {counts lengths : List Nat} (h : lengths.length = (counts.filter (· ≠ 0)).length)
    {i : Nat} (hi : counts.getD i 0 ≠ 0) : (spread counts lengths).getD i 0 ∈ lengths := by
  fun_induction spread counts lengths generalizing i with
  | case1 => simp at hi
  | case2 counts lengths ih =>
    cases i with
    | zero => simp at hi
    | succ i =>
      rw [List.getD_cons_succ] at hi ⊢
      exact ih (by simpa using h) hi
  | case3 n counts lengths ih =>
    cases lengths with
    | nil => simp at h
    | cons l lengths =>
      cases i with
      | zero => exact List.mem_cons_self
      | succ i =>
        rw [List.getD_cons_succ] at hi ⊢
        exact List.mem_cons_of_mem _ (ih (by simpa using h) hi)

@[simp] theorem length_atLeastTwo (counts : List Nat) : (atLeastTwo counts).length = counts.length := by
  unfold atLeastTwo withFirstTwo
  split
  · rfl
  · split <;> rfl

/-- What occurs still occurs. -/
theorem atLeastTwo_pos {counts : List Nat} {i : Nat} (h : counts.getD i 0 ≠ 0) :
    (atLeastTwo counts).getD i 0 ≠ 0 := by
  unfold atLeastTwo withFirstTwo
  split
  · exact h
  split
  next m n counts _ =>
    match i with
    | 0 => simp
    | 1 => simp
    | i + 2 => exact h
  · exact h

/-- At least two symbols have a word. -/
theorem two_le_occurring {counts : List Nat} (h : 2 ≤ counts.length) :
    2 ≤ ((atLeastTwo counts).filter (· ≠ 0)).length := by
  unfold atLeastTwo
  split
  · assumption
  · match counts, h with
    | m :: n :: counts, _ =>
      have hm : max m 1 ≠ 0 := by omega
      have hn : max n 1 ≠ 0 := by omega
      simp [withFirstTwo, hm, hn]

section

variable {limit : Nat} {counts : List Nat} (htwo : 2 ≤ counts.length) (hfits : counts.length ≤ 2 ^ limit)

include hfits in
theorem occurring_le : ((atLeastTwo counts).filter (· ≠ 0)).length ≤ 2 ^ limit := by
  have hall := List.length_filter_le (· ≠ 0) (atLeastTwo counts)
  rw [length_atLeastTwo] at hall
  omega

include htwo hfits

/-- **The words of a code fill a tree.** -/
theorem filled_ofCounts (hlimit : limit ≤ levels) : taken (ofCounts limit counts) = 2 ^ levels :=
  (taken_spread (length_ofWeights _ _)).trans
    (taken_ofWeights hlimit (two_le_occurring htwo) (occurring_le hfits))

/-- A symbol that occurs has a word. -/
theorem ofCounts_pos {i : Nat} (h : counts.getD i 0 ≠ 0) : 0 < (ofCounts limit counts).getD i 0 :=
  ofWeights_pos (two_le_occurring htwo) (occurring_le hfits)
    (spread_mem (length_ofWeights _ _) (atLeastTwo_pos h))

end

/-- No word is longer than the limit. -/
theorem le_of_mem_ofCounts {limit l : Nat} {counts : List Nat} (h : l ∈ ofCounts limit counts) :
    l ≤ limit := by
  rcases mem_spread h with rfl | h
  · exact Nat.zero_le _
  · exact le_of_mem_ofWeights h

@[simp] theorem length_ofCounts (limit : Nat) (counts : List Nat) :
    (ofCounts limit counts).length = counts.length := by
  rw [ofCounts, length_spread, length_atLeastTwo]

end WordLengths

end DedupImage
