import DedupImage.Proofs.Codec.BitStrings
import DedupImage.Proofs.Codec.WordLengths
import DedupImage.Codec.CodeTree
import Mathlib.Data.List.Pairwise

/-!
# Codes and their words

A tree that is filled from the left takes words, shortest first, until its lowest level is used up
(`CodeTree.full_fill`). So word lengths that fill a tree are accepted, and every symbol with a length has a
word (`CodeTree.ofLengths?_of_filled`). A reader that finds the word of a symbol finds the symbol
(`CodeTree.readSymbol_word`).
-/

namespace DedupImage.CodeTree

open WordLengths

variable {src : ByteArray} {t : CodeTree} {pos s : Nat} {w : List Bool}

/-! ## Words -/

/-- Whether a symbol has a word that a reader can find: one that is not empty. -/
def HasWord (t : CodeTree) (s : Nat) : Prop := ∃ w, t.word? s = some w ∧ w ≠ []

theorem getD_words (t : CodeTree) {n : Nat} (hs : s < n) : (t.words n).getD s [] = (t.word? s).getD [] := by
  simp [words, Array.getD_eq_getD_getElem?, hs]

/-- Following a word leads to its symbol. -/
theorem walk_word (hw : t.word? s = some w) (h : Bits.Holds src pos w) :
    walk src t pos = .ok (s, pos + w.length) := by
  induction t generalizing pos w with
  | hole => cases hw
  | leaf symbol =>
    rw [word?] at hw
    split at hw
    next hsymbol =>
      obtain rfl := Option.some.inj hw
      rw [walk, hsymbol, List.length_nil, Nat.add_zero]
    · cases hw
  | node zero one ihzero ihone =>
    rw [word?] at hw
    split at hw
    next below hzero =>
      obtain rfl := Option.some.inj hw
      rw [walk, h.1]
      simp only [ihzero hzero h.2, List.length_cons, Nat.add_assoc, Nat.add_comm 1]
    next hzero =>
      obtain ⟨below, hone, rfl⟩ := Option.map_eq_some_iff.mp hw
      rw [walk, h.1]
      simp only [ihone hone h.2, List.length_cons, Nat.add_assoc, Nat.add_comm 1]

/-- **A word that was written is read as its symbol.** -/
theorem readSymbol_word (hw : t.word? s = some w) (hsome : w ≠ []) (h : Bits.Holds src pos w) :
    readSymbol src t pos = .ok (s, pos + w.length) := by
  cases t with
  | hole => cases hw
  | leaf symbol =>
    rw [word?] at hw
    split at hw
    · exact absurd (Option.some.inj hw).symm hsome
    · cases hw
  | node zero one =>
    have hwalk := walk_word hw h
    cases w with
    | nil => exact absurd rfl hsome
    | cons b below =>
      rw [walk, h.1] at hwalk
      rw [readSymbol, h.1]
      cases b <;> exact hwalk

/-! ## Filling a tree -/

/-- The words that a tree does not take are the last ones. -/
theorem fill_suffix (depth level : Nat) (es : List (Nat × Nat)) : (fill depth level es).2 <:+ es := by
  fun_induction fill depth level es with
  | case1 => exact List.suffix_rfl
  | case2 level length symbol rest h => exact List.suffix_cons _ _
  | case3 => exact List.suffix_rfl
  | case4 depth level length symbol rest h => exact List.suffix_cons _ _
  | case5 depth level length symbol rest h left right ihleft ihright => exact ihright.trans ihleft

/-- Every symbol is in the tree or among those that it does not take. -/
theorem mem_fill (depth level : Nat) {es : List (Nat × Nat)} {e : Nat × Nat} (h : e ∈ es) :
    e ∈ (fill depth level es).2 ∨ ∃ w, (fill depth level es).1.word? e.2 = some w := by
  fun_induction fill depth level es with
  | case1 => cases h
  | case2 level length symbol rest hlevel =>
    rcases List.mem_cons.mp h with rfl | h
    · exact .inr ⟨[], if_pos rfl⟩
    · exact .inl h
  | case3 level length symbol rest hlevel => exact .inl h
  | case4 depth level length symbol rest hlevel =>
    rcases List.mem_cons.mp h with rfl | h
    · exact .inr ⟨[], if_pos rfl⟩
    · exact .inl h
  | case5 depth level length symbol rest hlevel left right ihleft ihright =>
    have hword : (∃ w, left.1.word? e.2 = some w) ∨ (∃ w, right.1.word? e.2 = some w) →
        ∃ w, (node left.1 right.1).word? e.2 = some w := by
      intro hin
      rw [word?]
      split
      · exact ⟨_, rfl⟩
      next hnone =>
        rcases hin with ⟨w, hw⟩ | ⟨w, hw⟩
        · rw [hnone] at hw
          cases hw
        · exact ⟨true :: w, by rw [hw]; rfl⟩
    rcases ihleft h with hrest | hin
    · exact (ihright hrest).imp id fun hin => hword (.inr hin)
    · exact .inr (hword (.inl hin))

/-- The root of a tree is no leaf if words are not empty. -/
theorem word?_fill_ne_nil {depth : Nat} {es : List (Nat × Nat)} (hpos : ∀ e ∈ es, 0 < e.1) (s : Nat) :
    (fill (depth + 1) 0 es).1.word? s ≠ some [] := by
  match es with
  | [] => simp [fill, word?]
  | (length, symbol) :: rest =>
    rw [fill, if_neg (Nat.not_le.mpr (hpos _ List.mem_cons_self)), word?]
    split <;> simp

/-- The places that the words of entries take up. -/
def need (es : List (Nat × Nat)) : Nat := taken (es.map Prod.fst)

/-- The leaf of a word that ends at a level takes up all that is below it. -/
theorem need_cons {depth level length symbol : Nat} (rest : List (Nat × Nat))
    (hlevel : level + depth = levels) (hpos : 0 < length) (hends : length = level) :
    need ((length, symbol) :: rest) = need rest + 2 ^ depth := by
  rw [need, List.map_cons, taken_cons, share, if_neg (by omega), show levels - length = depth by omega,
    Nat.add_comm]
  rfl

/-- **Filling takes words until all places are used up**, if there are enough of them. -/
theorem full_fill {depth level : Nat} {es : List (Nat × Nat)} (hlevel : level + depth = levels)
    (hsorted : es.Pairwise fun a b => a.1 ≤ b.1)
    (hbounds : ∀ e ∈ es, 0 < e.1 ∧ level ≤ e.1 ∧ e.1 ≤ levels) (hneed : 2 ^ depth ≤ need es) :
    (fill depth level es).1.full = true ∧ need (fill depth level es).2 + 2 ^ depth = need es := by
  induction depth generalizing level es with
  | zero =>
    match es with
    | [] => exact absurd hneed (by decide)
    | (length, symbol) :: rest =>
      obtain ⟨hpos, hlow, hhigh⟩ := hbounds _ List.mem_cons_self
      dsimp only at hpos hlow hhigh
      rw [fill, if_pos (by omega)]
      exact ⟨rfl, (need_cons rest hlevel hpos (by omega)).symm⟩
  | succ depth ih =>
    match es with
    | [] => exact absurd hneed (Nat.not_le.mpr (Nat.two_pow_pos _))
    | (length, symbol) :: rest =>
      obtain ⟨hpos, hlow, hhigh⟩ := hbounds _ List.mem_cons_self
      dsimp only at hpos hlow hhigh
      rw [fill]
      split
      next hhere => exact ⟨rfl, (need_cons rest hlevel hpos (by omega)).symm⟩
      next hbelow =>
        have hdeeper : ∀ e ∈ (length, symbol) :: rest, 0 < e.1 ∧ level + 1 ≤ e.1 ∧ e.1 ≤ levels := by
          intro e he
          obtain ⟨hpos', -, hhigh'⟩ := hbounds e he
          rcases List.mem_cons.mp he with rfl | he
          · exact ⟨hpos', by omega, hhigh'⟩
          · have hafter := List.rel_of_pairwise_cons hsorted he
            dsimp only at hafter
            exact ⟨hpos', by omega, hhigh'⟩
        rw [Nat.pow_succ] at hneed ⊢
        -- the words that the left half does not take are enough for the right half
        obtain ⟨hleft, htakenLeft⟩ := ih (by omega) hsorted hdeeper (by omega)
        have hsuffix := fill_suffix depth (level + 1) ((length, symbol) :: rest)
        have hsortedLater := hsorted.sublist hsuffix.sublist
        obtain ⟨hright, htakenRight⟩ :=
          ih (by omega) hsortedLater (fun e he => hdeeper e (hsuffix.subset he)) (by omega)
        dsimp only
        refine ⟨?_, by omega⟩
        rw [full, hleft, hright]
        rfl

/-! ## Trees of word lengths -/

variable {lengths : List Nat}

theorem mem_entries (hpos : 0 < lengths.getD s 0) (hmost : lengths.getD s 0 ≤ longestWord) :
    (lengths.getD s 0, s) ∈ entries lengths := by
  have hinside : s < lengths.length := by
    by_contra houtside
    rw [List.getD_eq_getElem?_getD, List.getElem?_eq_none (Nat.not_lt.mp houtside)] at hpos
    exact absurd hpos (Nat.lt_irrefl 0)
  have hget : lengths.getD s 0 = lengths[s] := by
    rw [List.getD_eq_getElem?_getD, List.getElem?_eq_getElem hinside, Option.getD_some]
  rw [entries, List.mem_flatMap]
  refine ⟨lengths.getD s 0 - 1, List.mem_range.mpr (by omega), ?_⟩
  rw [ofLength, List.mem_filter, List.mem_zipIdx_iff_getElem?, hget]
  refine ⟨List.getElem?_eq_getElem hinside, ?_⟩
  rw [beq_iff_eq]
  dsimp only
  omega

/-- Zeros at the end make no words. -/
theorem ofLengths?_take {k : Nat} (strict : Bool) (hzero : ∀ l ∈ lengths.drop k, l = 0) :
    ofLengths? strict (lengths.take k) = ofLengths? strict lengths := by
  have hlength (n : Nat) : ofLength (lengths.take k) (n + 1) = ofLength lengths (n + 1) := by
    have hnone : ((lengths.drop k).zipIdx (0 + (lengths.take k).length)).filter (fun e => e.1 == n + 1) = [] := by
      refine List.filter_eq_nil_iff.mpr fun e he => ?_
      rw [hzero e.1 (List.fst_mem_of_mem_zipIdx he)]
      simp
    unfold ofLength
    conv_rhs => rw [← List.take_append_drop k lengths, List.zipIdx_append, List.filter_append, hnone,
      List.append_nil]
  have hentries : entries (lengths.take k) = entries lengths := by
    unfold entries
    simp only [hlength]
  rw [ofLengths?, hentries, ofLengths?]

theorem bounds_of_mem_entries {e : Nat × Nat} (h : e ∈ entries lengths) : 0 < e.1 ∧ e.1 ≤ longestWord := by
  obtain ⟨k, hk, he⟩ := List.mem_flatMap.mp h
  rw [ofLength, List.mem_filter, beq_iff_eq] at he
  have := List.mem_range.mp hk
  omega

theorem entries_sorted (lengths : List Nat) : (entries lengths).Pairwise fun a b => a.1 ≤ b.1 := by
  have hlength : ∀ {k : Nat} {e : Nat × Nat}, e ∈ ofLength lengths (k + 1) → e.1 = k + 1 := by
    intro k e he
    rw [ofLength, List.mem_filter, beq_iff_eq] at he
    exact he.2
  rw [entries, List.pairwise_flatMap]
  constructor
  · intro k _
    exact List.pairwise_of_forall_mem_list fun a ha b hb => by rw [hlength ha, hlength hb]
  · apply List.pairwise_lt_range.imp
    intro i j hij a ha b hb
    rw [hlength ha, hlength hb]
    omega

theorem taken_filter_succ (n : Nat) (lengths : List Nat) :
    taken (lengths.filter (· ≤ n + 1)) =
      taken (lengths.filter (· ≤ n)) + taken (lengths.filter (· == n + 1)) := by
  induction lengths with
  | nil => rfl
  | cons l lengths ih =>
    rcases Nat.lt_trichotomy l (n + 1) with h | rfl | h
    · have hle : l ≤ n := by omega
      have hne : l ≠ n + 1 := by omega
      simp [hle, hne, Nat.le_of_lt h, ih, Nat.add_assoc]
    · simp [ih, Nat.add_left_comm]
    · have hle : ¬ l ≤ n := by omega
      have hne : l ≠ n + 1 := by omega
      simp [hle, hne, Nat.not_le.mpr h, ih]

/-- Words of one length after the other take up what they take up in the order of the symbols. -/
theorem taken_by_length (n : Nat) (lengths : List Nat) :
    taken ((List.range n).flatMap fun k => lengths.filter (· == k + 1)) =
      taken (lengths.filter (· ≤ n)) := by
  induction n with
  | zero =>
    -- only the length zero is at most zero, and it is no word
    induction lengths with
    | nil => rfl
    | cons l lengths ih => cases l <;> simpa [share] using ih
  | succ n ih =>
    rw [List.range_succ, List.flatMap_append, List.flatMap_singleton, taken_append, ih, taken_filter_succ]

/-- The entries of a tree take up what their lengths take up. -/
theorem need_entries (hmost : ∀ l ∈ lengths, l ≤ longestWord) : need (entries lengths) = taken lengths := by
  have hall : lengths.filter (· ≤ longestWord) = lengths :=
    List.filter_eq_self.mpr fun l hl => decide_eq_true (hmost l hl)
  have hlength : ∀ k, (ofLength lengths k).map Prod.fst = lengths.filter (· == k) := by
    intro k
    rw [ofLength, show (fun e : Nat × Nat => e.1 == k) = (· == k) ∘ Prod.fst from rfl, ← List.filter_map,
      List.zipIdx_map_fst]
  rw [need, entries, List.map_flatMap]
  simp only [hlength]
  rw [taken_by_length, hall]

/-- **Word lengths that fill a tree are accepted**, and every symbol with a length has a word. -/
theorem ofLengths?_of_filled (strict : Bool) (hfilled : taken lengths = 2 ^ levels)
    (hmost : ∀ l ∈ lengths, l ≤ longestWord) :
    ∃ t, ofLengths? strict lengths = some t ∧ ∀ s, 0 < lengths.getD s 0 → t.HasWord s := by
  have hneed : need (entries lengths) = 2 ^ longestWord := (need_entries hmost).trans hfilled
  have hbounds : ∀ e ∈ entries lengths, 0 < e.1 ∧ 0 ≤ e.1 ∧ e.1 ≤ levels := fun e he =>
    ⟨(bounds_of_mem_entries he).1, Nat.zero_le _, (bounds_of_mem_entries he).2⟩
  obtain ⟨hfull, htaken⟩ :=
    full_fill (Nat.zero_add longestWord) (entries_sorted lengths) hbounds (Nat.le_of_eq hneed.symm)
  -- a word that was left over would take up a place
  have hrest : (fill longestWord 0 (entries lengths)).2 = [] := by
    cases hleft : (fill longestWord 0 (entries lengths)).2 with
    | nil => rfl
    | cons e rest =>
      have hmem : e ∈ entries lengths :=
        (fill_suffix longestWord 0 (entries lengths)).subset (hleft ▸ List.mem_cons_self)
      have hshare : 0 < share e.1 := by
        rw [share, if_neg (Nat.ne_of_gt (hbounds e hmem).1)]
        exact Nat.two_pow_pos _
      rw [hleft, need, List.map_cons, taken_cons] at htaken
      omega
  refine ⟨(fill longestWord 0 (entries lengths)).1, ?_, ?_⟩
  · rw [ofLengths?]
    simp only [hrest, hfull]
    rfl
  · intro s hpos
    have hget : lengths.getD s 0 ≤ longestWord := by
      rw [List.getD_eq_getElem?_getD] at hpos ⊢
      cases hs : lengths[s]? with
      | none => exact Nat.zero_le _
      | some l => exact hmost l (List.mem_of_getElem? hs)
    have hmem := mem_entries hpos hget
    rcases mem_fill longestWord 0 hmem with hin | ⟨w, hw⟩
    · rw [hrest] at hin
      cases hin
    · refine ⟨w, hw, ?_⟩
      rintro rfl
      exact word?_fill_ne_nil (fun e he => (hbounds e he).1) s hw

end DedupImage.CodeTree
