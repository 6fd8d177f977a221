import DedupImage.Proofs.Codec.Tokens
import Mathlib.Data.List.SplitBy

/-!
# Transmitted codes come back

A block that transmits its code writes the word lengths of its symbols as runs, in a code for runs whose word
lengths it writes first. A reader undoes both steps and has the same lengths, hence the same trees
(`Inflate.transmittedCode_headerBits`). The trees exist because the lengths come from `WordLengths.ofCounts`,
and every symbol that occurs has a word (`hasWord_of_occurs`).
-/

namespace DedupImage

variable {src : ByteArray} {pos n s : Nat}

/-! ## Symbols that occur -/

namespace LengthRun

theorem size_foldl_modify (symbols : List Nat) (out : Array Nat) :
    (symbols.foldl (fun (out : Array Nat) s => out.modify s (· + 1)) out).size = out.size := by
  induction symbols generalizing out with
  | nil => rfl
  | cons a symbols ih => rw [List.foldl_cons, ih, Array.size_modify]

@[simp] theorem length_occurrences (n : Nat) (symbols : List Nat) : (occurrences n symbols).length = n := by
  rw [occurrences, Array.length_toList, size_foldl_modify, Array.size_replicate]

/-- What has been counted stays, and a symbol more is counted. -/
theorem foldl_modify_pos {symbols : List Nat} {out : Array Nat} (hs : s < out.size)
    (h : s ∈ symbols ∨ 0 < out[s]?.getD 0) :
    0 < (symbols.foldl (fun (out : Array Nat) s => out.modify s (· + 1)) out)[s]?.getD 0 := by
  induction symbols generalizing out with
  | nil => exact h.resolve_left List.not_mem_nil
  | cons a symbols ih =>
    rw [List.foldl_cons]
    apply ih (by rwa [Array.size_modify])
    by_cases ha : a = s
    · refine .inr ?_
      rw [Array.getElem?_modify, if_pos ha, Array.getElem?_eq_getElem hs]
      exact Nat.succ_pos _
    · rw [Array.getElem?_modify, if_neg ha]
      exact h.imp_left fun hmem => (List.mem_cons.mp hmem).resolve_left fun heq => ha heq.symm

theorem occurrences_ne_zero {symbols : List Nat} (hs : s < n) (h : s ∈ symbols) :
    (occurrences n symbols).getD s 0 ≠ 0 := by
  rw [occurrences, List.getD_eq_getElem?_getD, Array.getElem?_toList]
  exact Nat.ne_of_gt (foldl_modify_pos (by rwa [Array.size_replicate]) (.inl h))

end LengthRun

/-- **A code for symbols that occur has a tree, in which they have words.** -/
theorem hasWord_of_occurs {limit : Nat} (symbols : List Nat) (strict : Bool) (htwo : 2 ≤ n)
    (hfits : n ≤ 2 ^ limit) (hlimit : limit ≤ CodeTree.longestWord) :
    ∃ t, CodeTree.ofLengths? strict (WordLengths.ofCounts limit (LengthRun.occurrences n symbols)) = some t ∧
      ∀ s ∈ symbols, s < n → t.HasWord s := by
  rw [← LengthRun.length_occurrences n symbols] at htwo hfits
  obtain ⟨t, htree, hwords⟩ := CodeTree.ofLengths?_of_filled strict
    (WordLengths.filled_ofCounts htwo hfits hlimit)
    (fun l hl => Nat.le_trans (WordLengths.le_of_mem_ofCounts hl) hlimit)
  refine ⟨t, htree, fun s hmem hs => hwords s ?_⟩
  exact WordLengths.ofCounts_pos htwo hfits (LengthRun.occurrences_ne_zero hs hmem)

/-! ## Runs -/

namespace LengthRun

/-- Whether a run adds these lengths behind the ones before it. -/
def Adds (before : List Nat) (added : List Nat) : LengthRun → Prop
  | one length => length < 16 ∧ added = [length]
  | again n => (3 ≤ n ∧ n ≤ 6) ∧ ∃ last, before.getLast? = some last ∧ added = List.replicate n last
  | absent n => (3 ≤ n ∧ n ≤ 138) ∧ added = List.replicate n 0

/-- Whether runs, one after the other, lead from some lengths to others. -/
def Leads : (before : List Nat) → List LengthRun → (after : List Nat) → Prop
  | before, [], after => before = after
  | before, r :: runs, after => ∃ added, r.Adds before added ∧ Leads (before ++ added) runs after

variable {before middle after : List Nat}

theorem leads_append {a b : List LengthRun} (ha : Leads before a middle) (hb : Leads middle b after) :
    Leads before (a ++ b) after := by
  induction a generalizing before with
  | nil =>
    obtain rfl : before = middle := ha
    exact hb
  | cons r a ih =>
    obtain ⟨added, hadds, hrest⟩ := ha
    exact ⟨added, hadds, ih hrest⟩

theorem leads_ones {l : Nat} (hl : l < 16) (before : List Nat) (k : Nat) :
    Leads before (List.replicate k (one l)) (before ++ List.replicate k l) := by
  induction k generalizing before with
  | zero => exact (List.append_nil before).symm
  | succ k ih =>
    refine ⟨[l], ⟨hl, rfl⟩, ?_⟩
    have hrest := ih (before ++ [l])
    rwa [List.append_assoc, List.singleton_append, ← List.replicate_succ] at hrest

theorem pieces_spec {most k : Nat} (hmost : 0 < most) (h : k ∈ pieces most n) : 0 < k ∧ k ≤ most := by
  rcases List.mem_append.mp h with h | h
  · obtain rfl := List.eq_of_mem_replicate h
    exact ⟨hmost, Nat.le_refl _⟩
  · split at h
    · cases h
    · obtain rfl := List.mem_singleton.mp h
      have := Nat.mod_lt n hmost
      omega

theorem sum_pieces (most n : Nat) : (pieces most n).sum = n := by
  have hdiv := Nat.div_add_mod n most
  rw [pieces, List.sum_append, List.sum_replicate_nat]
  split
  next hzero =>
    rw [List.sum_nil, Nat.mul_comm]
    omega
  · rw [List.sum_singleton, Nat.mul_comm]
    omega

/-- Pieces of a row, each of which leads on as long as `Q` holds of the lengths before it. -/
theorem leads_pieces (before : List Nat) (l : Nat) (ks : List Nat) {f : Nat → List LengthRun}
    {Q : List Nat → Prop} (hkeeps : ∀ before, ∀ k ∈ ks, Q before → Q (before ++ List.replicate k l))
    (hleads : ∀ before, ∀ k ∈ ks, Q before → Leads before (f k) (before ++ List.replicate k l))
    (hQ : Q before) : Leads before (ks.flatMap f) (before ++ List.replicate ks.sum l) := by
  induction ks generalizing before with
  | nil => exact (List.append_nil before).symm
  | cons k ks ih =>
    rw [List.flatMap_cons, List.sum_cons, List.replicate_add, ← List.append_assoc]
    exact leads_append (hleads before k List.mem_cons_self hQ)
      (ih _ (fun before k hk => hkeeps before k (List.mem_cons_of_mem _ hk))
        (fun before k hk => hleads before k (List.mem_cons_of_mem _ hk))
        (hkeeps before k List.mem_cons_self hQ))

/-- The runs of a row add it. -/
theorem leads_ofRow {l : Nat} (hl : l < 16) (hn : 0 < n) (before : List Nat) :
    Leads before (ofRow l n) (before ++ List.replicate n l) := by
  unfold ofRow
  split
  next hzero =>
    have hrow := leads_pieces before l (pieces 138 n)
      (f := fun k => if k < 3 then List.replicate k (one 0) else [absent k]) (Q := fun _ => True)
      (fun _ _ _ _ => trivial) ?_ trivial
    · rwa [sum_pieces] at hrow
    · intro before k hk _
      have hbounds := pieces_spec (by decide) hk
      subst hzero
      split
      · exact leads_ones hl before k
      · exact ⟨_, ⟨by omega, rfl⟩, rfl⟩
  next hsome =>
    refine ⟨[l], ⟨hl, rfl⟩, ?_⟩
    have hrow := leads_pieces (before ++ [l]) l (pieces 6 (n - 1))
      (f := fun k => if k < 3 then List.replicate k (one l) else [again k])
      (Q := fun before => before.getLast? = some l) ?_ ?_ (by simp)
    · rwa [sum_pieces, List.append_assoc, List.singleton_append, ← List.replicate_succ,
        Nat.sub_add_cancel hn] at hrow
    · intro before k hk _
      have hbounds := pieces_spec (by decide) hk
      rw [List.getLast?_append, List.getLast?_replicate, if_neg (by omega)]
      rfl
    · intro before k hk hlast
      have hbounds := pieces_spec (by decide) hk
      split
      · exact leads_ones hl before k
      · exact ⟨_, ⟨by omega, l, hlast, rfl⟩, rfl⟩

/-- A row of equal lengths is what its first length and its number say. -/
theorem row_eq {row : List Nat} (h : row.IsChain fun a b => (a == b) = true) :
    row = List.replicate row.length (row.headD 0) := by
  induction row with
  | nil => rfl
  | cons a row ih =>
    rw [List.length_cons, List.replicate_succ, List.headD_cons]
    congr 1
    cases row with
    | nil => rfl
    | cons b row =>
      rw [List.isChain_cons_cons, beq_iff_eq] at h
      obtain ⟨rfl, hrest⟩ := h
      exact ih hrest

/-- **The runs of a list of lengths lead to it.** -/
theorem leads_ofLengths {lengths : List Nat} (hlengths : ∀ l ∈ lengths, l < 16) :
    Leads [] (ofLengths lengths) lengths := by
  have hrows : ∀ (rows : List (List Nat)) (before : List Nat),
      (∀ row ∈ rows, row ≠ [] ∧ (∀ l ∈ row, l < 16) ∧ row = List.replicate row.length (row.headD 0)) →
      Leads before (rows.flatMap fun row => ofRow (row.headD 0) row.length) (before ++ rows.flatten) := by
    intro rows
    induction rows with
    | nil => exact fun before _ => (List.append_nil before).symm
    | cons row rows ih =>
      intro before hall
      obtain ⟨hsome, hshort, hrow⟩ := hall row List.mem_cons_self
      have hhead : row.headD 0 < 16 := by
        obtain ⟨a, rest, rfl⟩ := List.exists_cons_of_ne_nil hsome
        exact hshort a List.mem_cons_self
      have hfirst := leads_ofRow hhead (List.length_pos_iff.mpr hsome) before
      rw [← hrow] at hfirst
      rw [List.flatMap_cons, List.flatten_cons, ← List.append_assoc]
      exact leads_append hfirst (ih _ fun r hr => hall r (List.mem_cons_of_mem _ hr))
  have hall := hrows (lengths.splitBy (· == ·)) [] ?_
  · rwa [List.flatten_splitBy, List.nil_append] at hall
  · intro row hrow
    refine ⟨List.ne_nil_of_mem_splitBy hrow, fun l hl => hlengths l ?_,
      row_eq (List.isChain_of_mem_splitBy hrow)⟩
    rw [← List.flatten_splitBy (· == ·) lengths]
    exact List.mem_flatten.mpr ⟨row, hrow, hl⟩

theorem symbol_lt {r : LengthRun} {added : List Nat} (h : r.Adds before added) : r.symbol < symbolCount := by
  cases r with
  | one l =>
    have := h.1
    change l < 19
    omega
  | again n => exact (by decide : 16 < 19)
  | absent n =>
    rw [symbol]
    split <;> decide

/-- Every run that leads on has a symbol of the code for runs. -/
theorem Leads.symbol_lt {runs : List LengthRun} (h : Leads before runs after) {r : LengthRun} (hr : r ∈ runs) :
    r.symbol < symbolCount := by
  induction runs generalizing before with
  | nil => cases hr
  | cons q runs ih =>
    obtain ⟨added, hadds, hrest⟩ := h
    rcases List.mem_cons.mp hr with rfl | hr
    · exact LengthRun.symbol_lt hadds
    · exact ih hrest hr

/-- Runs add lengths and take none away. -/
theorem Leads.length_le {runs : List LengthRun} (h : Leads before runs after) : before.length ≤ after.length := by
  induction runs generalizing before with
  | nil => exact Nat.le_of_eq (congrArg List.length h)
  | cons r runs ih =>
    obtain ⟨added, -, hrest⟩ := h
    have hlength := ih hrest
    rw [List.length_append] at hlength
    omega

/-! ## Zeros at the end -/

theorem needed_le {least : Nat} {lengths : List Nat} (h : least ≤ lengths.length) :
    least ≤ needed least lengths ∧ needed least lengths ≤ lengths.length := by
  have hsuffix := (List.dropWhile_suffix (l := lengths.reverse) (· == 0)).length_le
  rw [List.length_reverse] at hsuffix
  unfold needed
  omega

/-- Only zeros are left out. -/
theorem eq_zero_of_mem_drop {least l : Nat} {lengths : List Nat} (h : l ∈ lengths.drop (needed least lengths)) :
    l = 0 := by
  have hsplit := List.takeWhile_append_dropWhile (p := (· == 0)) (l := lengths.reverse)
  generalize hrest : lengths.reverse.dropWhile (· == 0) = rest at hsplit
  have hlengths : lengths = rest.reverse ++ (lengths.reverse.takeWhile (· == 0)).reverse := by
    rw [← List.reverse_append, hsplit, List.reverse_reverse]
  have hlate : l ∈ lengths.drop rest.length := by
    refine (List.drop_suffix_drop_left lengths ?_).subset h
    rw [needed, hrest]
    exact Nat.le_max_right _ _
  have hfront : rest.length = rest.reverse.length := List.length_reverse.symm
  rw [hlengths, hfront, List.drop_left, List.mem_reverse] at hlate
  exact eq_of_beq (List.all_eq_true.mp List.all_takeWhile l hlate)

end LengthRun

/-! ## Reading runs -/

namespace Inflate

open LengthRun

variable {code : CodeTree}

/-- A run that was written is read. -/
theorem lengthRun_bits {r : LengthRun} {before added : List Nat} (hadds : r.Adds before added)
    (hword : code.HasWord r.symbol)
    (h : Bits.Holds src pos ((code.words symbolCount).getD r.symbol [] ++ r.extra)) :
    ∃ k l, added = List.replicate k l ∧ 0 < k ∧ lengthRun src code pos before.getLast? =
      .ok (k, l, pos + ((code.words symbolCount).getD r.symbol [] ++ r.extra).length) := by
  obtain ⟨hword, hsome⟩ := Token.words_of_hasWord hword (symbol_lt hadds)
  have hsymbol := CodeTree.readSymbol_word hword hsome h.left
  have hextra := h.right
  rw [List.length_append, ← Nat.add_assoc]
  unfold lengthRun
  rw [hsymbol]
  generalize (code.words symbolCount).getD r.symbol [] = w at hextra ⊢
  cases r with
  | one l =>
    obtain ⟨hl, rfl⟩ := hadds
    exact ⟨1, l, rfl, Nat.one_pos, if_pos hl⟩
  | again n =>
    obtain ⟨hn, last, hlast, rfl⟩ := hadds
    refine ⟨n, last, rfl, by omega, ?_⟩
    change Bits.Holds src _ (Bits.numberBits 2 (n - 3)) at hextra
    have hread := hextra.readNumber (by omega)
    simp only [symbol, hlast, hread, extra, Bits.length_numberBits]
    simp [Nat.add_sub_cancel' hn.1]
  | absent n =>
    obtain ⟨hn, rfl⟩ := hadds
    refine ⟨n, 0, rfl, by omega, ?_⟩
    rw [extra] at hextra ⊢
    rw [symbol]
    split at hextra
    next hshort =>
      have hread := hextra.readNumber (by omega)
      simp only [if_pos hshort, hread, Bits.length_numberBits]
      simp [Nat.add_sub_cancel' hn.1]
    next hlong =>
      have hread := hextra.readNumber (by omega)
      simp only [if_neg hlong, hread, Bits.length_numberBits]
      simp [show 11 + (n - 11) = n by omega]

/-- One run of word lengths, and the runs after it. -/
theorem wordLengths_eq (src : ByteArray) (code : CodeTree) (count pos : Nat) (lengths : Array Nat) :
    wordLengths src code count pos lengths =
      if lengths.size < count then
        match lengthRun src code pos lengths.back? with
        | .error e => .error e
        | .ok (n, l, pos) => wordLengths src code count pos (lengths ++ Array.replicate n l)
      else if lengths.size = count then
        .ok (lengths, pos)
      else
        .error .other := by
  rw [wordLengths]
  split
  · split
    next hrun => simp only [hrun]
    next hrun => simp only [hrun]
  · rfl

/-- **Runs that were written are read.** -/
theorem wordLengths_runBits {runs : List LengthRun} {before after : List Nat}
    (hleads : Leads before runs after) (hwords : ∀ r ∈ runs, code.HasWord r.symbol)
    (h : Bits.Holds src pos (runBits code runs)) :
    wordLengths src code after.length pos before.toArray =
      .ok (after.toArray, pos + (runBits code runs).length) := by
  induction runs generalizing before pos with
  | nil =>
    obtain rfl : before = after := hleads
    rw [wordLengths_eq, List.size_toArray, if_neg (Nat.lt_irrefl _), if_pos rfl]
    rfl
  | cons r runs ih =>
    obtain ⟨added, hadds, hrest⟩ := hleads
    have hbits : runBits code (r :: runs) =
        ((code.words symbolCount).getD r.symbol [] ++ r.extra) ++ runBits code runs := List.flatMap_cons
    rw [hbits] at h ⊢
    obtain ⟨k, l, hadded, hk, hrun⟩ := lengthRun_bits hadds (hwords r List.mem_cons_self) h.left
    have hmore : before.length < after.length := by
      have := hrest.length_le
      rw [hadded, List.length_append, List.length_replicate] at this
      omega
    have hnext := ih hrest (fun r hr => hwords r (List.mem_cons_of_mem _ hr)) h.right
    rw [wordLengths_eq, List.size_toArray, if_pos hmore, List.back?_toArray, hrun]
    rw [hadded] at hnext
    simp only [List.length_append, ← Nat.add_assoc] at hnext ⊢
    rw [← List.toArray_replicate, List.append_toArray, hnext]

/-! ## Transmitted codes -/

theorem shortLengths_bits {f : Nat → Nat} (hf : ∀ s, f s < 8) {order : List Nat} (out : Array Nat)
    (h : Bits.Holds src pos (order.flatMap fun s => Bits.numberBits 3 (f s))) :
    shortLengths src pos out order =
      .ok (order.foldl (fun out s => out.setIfInBounds s (f s)) out, pos + 3 * order.length) := by
  induction order generalizing pos out with
  | nil => rfl
  | cons s order ih =>
    rw [List.flatMap_cons] at h
    have hrest := h.right
    rw [Bits.length_numberBits] at hrest
    rw [shortLengths, h.left.readNumber (hf s)]
    dsimp only
    rw [ih _ hrest, List.foldl_cons, List.length_cons, Nat.mul_succ, Nat.add_comm (3 * _), Nat.add_assoc]

/-- Entries that are set one after the other are there in the end. -/
theorem foldl_setIfInBounds {f : Nat → Nat} (order : List Nat) (out : Array Nat) (hs : s < out.size) :
    (order.foldl (fun out s => out.setIfInBounds s (f s)) out)[s]? =
      if s ∈ order then some (f s) else out[s]? := by
  induction order generalizing out with
  | nil => simp
  | cons a order ih =>
    rw [List.foldl_cons, ih _ (by rwa [Array.size_setIfInBounds])]
    by_cases hin : s ∈ order
    · simp [hin]
    · by_cases ha : a = s
      · subst ha
        simp [hin, hs]
      · have hne : s ≠ a := fun heq => ha heq.symm
        simp [hin, hne, ha]

theorem size_foldl_setIfInBounds {f : Nat → Nat} (order : List Nat) (out : Array Nat) :
    (order.foldl (fun out s => out.setIfInBounds s (f s)) out).size = out.size := by
  induction order generalizing out with
  | nil => rfl
  | cons a order ih => rw [List.foldl_cons, ih, Array.size_setIfInBounds]

/-- Lengths that are set in the order of transmission are all there, if only zeros are left out. -/
theorem foldl_order {lengths : List Nat} (hcount : lengths.length = symbolCount)
    (hzero : ∀ l ∈ (inOrder lengths).drop n, l = 0) :
    ((order.take n).foldl (fun out s => out.setIfInBounds s (lengths.getD s 0))
      (Array.replicate symbolCount 0)).toList = lengths := by
  apply List.ext_getElem?
  intro s
  rw [Array.getElem?_toList]
  rcases Nat.lt_or_ge s symbolCount with hs | hs
  · have hall : ∀ s < symbolCount, s ∈ order := by decide
    have hget : lengths[s]? = some (lengths.getD s 0) := by
      rw [List.getD_eq_getElem?_getD, List.getElem?_eq_getElem (by omega), Option.getD_some]
    rw [foldl_setIfInBounds _ _ (by rwa [Array.size_replicate]), hget]
    split
    · rfl
    next hin =>
      have hlater : s ∈ order.drop n := by
        have hmem := hall s hs
        rw [← List.take_append_drop n order] at hmem
        exact (List.mem_append.mp hmem).resolve_left hin
      have hl : lengths.getD s 0 = 0 := by
        refine hzero _ ?_
        rw [inOrder, ← List.map_drop]
        exact List.mem_map_of_mem hlater
      rw [hl, Array.getElem?_replicate, if_pos hs]
  · rw [List.getElem?_eq_none (by omega), Array.getElem?_eq_none]
    rw [size_foldl_setIfInBounds, Array.size_replicate]
    exact hs

/-- The entries have a code, and three bits are enough for the length of each of its words. -/
theorem lengthsFor_spec (runs : List LengthRun) (hruns : ∀ r ∈ runs, r.symbol < symbolCount) :
    ∃ code, CodeTree.ofLengths? true (lengthsFor runs) = some code ∧ (∀ r ∈ runs, code.HasWord r.symbol) ∧
      (lengthsFor runs).length = symbolCount ∧ ∀ s, (lengthsFor runs).getD s 0 < 8 := by
  obtain ⟨code, hcode, hwords⟩ := hasWord_of_occurs (runs.map symbol) true
    (by decide : 2 ≤ symbolCount) (by decide : symbolCount ≤ 2 ^ longestWord) (by decide)
  refine ⟨code, hcode, fun r hr => hwords _ (List.mem_map_of_mem hr) (hruns r hr), ?_, ?_⟩
  · rw [lengthsFor, WordLengths.length_ofCounts, length_occurrences]
  · intro s
    rw [List.getD_eq_getElem?_getD]
    cases hs : (lengthsFor runs)[s]? with
    | none => exact (by decide : 0 < 8)
    | some l => exact Nat.lt_succ_of_le (WordLengths.le_of_mem_ofCounts (List.mem_of_getElem? hs))

/-- **A code that was transmitted is read**: the trees of its word lengths. -/
theorem transmittedCode_codedRuns {symbols distances : List Nat} {symbolTree distanceTree : CodeTree}
    (hsymbols : 257 ≤ symbols.length ∧ symbols.length ≤ 286)
    (hdistances : 1 ≤ distances.length ∧ distances.length ≤ 30)
    (hshort : ∀ l ∈ symbols ++ distances, l < 16)
    (hsymbolTree : CodeTree.ofLengths? false symbols = some symbolTree)
    (hdistanceTree : CodeTree.ofLengths? false distances = some distanceTree)
    (h : Bits.Holds src pos (codedRuns symbols.length distances.length (ofLengths (symbols ++ distances)))) :
    transmittedCode src pos = .ok (symbolTree, distanceTree,
      pos + (codedRuns symbols.length distances.length (ofLengths (symbols ++ distances))).length) := by
  have hleads := leads_ofLengths hshort
  obtain ⟨code, htree, hruns, hcount, hthree⟩ :=
    lengthsFor_spec (ofLengths (symbols ++ distances)) fun r hr => hleads.symbol_lt hr
  unfold codedRuns at h ⊢
  dsimp only at h ⊢
  generalize lengthsFor (ofLengths (symbols ++ distances)) = lengths at htree hcount hthree h ⊢
  generalize ofLengths (symbols ++ distances) = runs at hleads hruns h ⊢
  have hkept : ∀ l ∈ (inOrder lengths).drop (needed leastShort (inOrder lengths)), l = 0 :=
    fun l hl => eq_zero_of_mem_drop hl
  have hlength : (inOrder lengths).length = order.length := List.length_map _
  obtain ⟨hleast, hmost⟩ := needed_le (by rw [hlength]; decide : leastShort ≤ (inOrder lengths).length)
  have horder : order.length = 19 := rfl
  have hfour : leastShort = 4 := rfl
  rw [hlength] at hmost
  generalize needed leastShort (inOrder lengths) = n at hkept hleast hmost h ⊢
  -- the lengths in the order of transmission
  have htriples : ((inOrder lengths).take n).flatMap (Bits.numberBits 3) =
      (order.take n).flatMap fun s => Bits.numberBits 3 (lengths.getD s 0) := by
    rw [inOrder, ← List.map_take, List.flatMap_map]
  have hbits : ((order.take n).flatMap fun s => Bits.numberBits 3 (lengths.getD s 0)).length =
      3 * (order.take n).length := by
    simp [Nat.mul_comm]
  rw [htriples, htree, Option.getD_some] at h ⊢
  have hfirst := h.left.left.left.left.readNumber (by omega)
  have hsecond := h.left.left.left.right.readNumber (by omega)
  have hthird := h.left.left.right.readNumber (by omega)
  have hfourth := shortLengths_bits hthree (Array.replicate symbolCount 0) h.left.right
  have hfifth := wordLengths_runBits hleads hruns h.right
  simp only [List.length_append, Bits.length_numberBits, hbits, ← Nat.add_assoc]
    at hfirst hsecond hthird hfourth hfifth ⊢
  have htaken : n - leastShort + leastShort = n := Nat.sub_add_cancel hleast
  have hcounts : ¬ (286 < symbols.length ∨ 30 < distances.length) := by omega
  have hsymbolCount : symbols.length - 257 + 257 = symbols.length := by omega
  have hdistanceCount : distances.length - 1 + 1 = distances.length := by omega
  unfold transmittedCode tree
  simp only [bind, Except.bind, hfirst, hsecond, hthird, hsymbolCount, hdistanceCount, if_neg hcounts, htaken,
    hfourth, foldl_order hcount hkept, htree, hfifth, List.take_left, List.drop_left, hsymbolTree,
    hdistanceTree]
  rfl

theorem transmittedCode_headerBits {symbols distances : List Nat} {symbolTree distanceTree : CodeTree}
    (hsymbols : symbols.length = Token.symbolCount) (hdistances : distances.length = Token.distanceCount)
    (hshort : ∀ l ∈ symbols ++ distances, l < 16)
    (hsymbolTree : CodeTree.ofLengths? false symbols = some symbolTree)
    (hdistanceTree : CodeTree.ofLengths? false distances = some distanceTree)
    (h : Bits.Holds src pos (headerBits symbols distances)) :
    transmittedCode src pos =
      .ok (symbolTree, distanceTree, pos + (headerBits symbols distances).length) := by
  have hmany := needed_le (by rw [hsymbols]; decide : 257 ≤ symbols.length)
  have hfew := needed_le (by rw [hdistances]; decide : 1 ≤ distances.length)
  unfold headerBits at h ⊢
  refine transmittedCode_codedRuns ?_ ?_ ?_ ?_ ?_ h
  · rw [List.length_take_of_le hmany.2]
    exact ⟨hmany.1, Nat.le_trans hmany.2 (Nat.le_of_eq hsymbols)⟩
  · rw [List.length_take_of_le hfew.2]
    exact ⟨hfew.1, Nat.le_trans hfew.2 (Nat.le_of_eq hdistances)⟩
  · intro l hl
    refine hshort l ((List.mem_append.mp hl).elim ?_ ?_)
    · exact fun hl => List.mem_append_left _ (List.mem_of_mem_take hl)
    · exact fun hl => List.mem_append_right _ (List.mem_of_mem_take hl)
  · rw [CodeTree.ofLengths?_take false fun l hl => eq_zero_of_mem_drop hl]
    exact hsymbolTree
  · rw [CodeTree.ofLengths?_take false fun l hl => eq_zero_of_mem_drop hl]
    exact hdistanceTree

end Inflate

end DedupImage
