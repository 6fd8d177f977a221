import DedupImage.Proofs.Pattern.Shifts

/-!
# Tables are filled in range

The tables of a pattern are built in place: an array of the final length, a cursor, and window bounds that
go down to minus one. This module computes them in that form, with every access and every difference
checked, and shows that no check fails and that the tables are the ones of `occurrences`, `suffixLengths`
and `shifts` (`occurrencesInRange_eq`, `suffixesInRange_eq`, `shiftsInRange_eq`).

Positions are integers where the computation may leave the natural numbers. The window bound of
`extendSuffixes` is one more than the signed bound here, and the entry it reads at the distance from the
window's end stands here at the distance from the pattern's. The first pass over the suffix lengths moves
a cursor over a table full of the pattern's length; what lies before the cursor is the table of
`borderShifts` (`padded`).
-/

namespace DedupImage.Pattern

variable {α : Type} {x : ByteArray}

/-! ## Checked operations -/

/-- The entry at a position of a table. -/
def entry? (table : Array α) (k : Int) : Option α :=
  if 0 ≤ k then table[k.toNat]? else none

/-- The table with another entry at a position. -/
def replace? (table : Array α) (k : Int) (a : α) : Option (Array α) :=
  if 0 ≤ k ∧ k.toNat < table.size then some (table.setIfInBounds k.toNat a) else none

/-- The byte at a position. -/
def byte? (b : ByteArray) (k : Int) : Option UInt8 :=
  if 0 ≤ k ∧ k.toNat < b.size then some (byteAt b k.toNat) else none

/-- A difference that is not negative. -/
def difference? (a b : Nat) : Option Nat :=
  if b ≤ a then some (a - b) else none

theorem entry?_natCast (table : Array α) (k : Nat) : entry? table k = table[k]? :=
  if_pos (Int.natCast_nonneg k)

theorem entry?_of_lt {table : Array α} {k : Nat} (default : α) (hk : k < table.size) :
    entry? table k = some (table.getD k default) := by
  rw [entry?_natCast, Array.getD_eq_getD_getElem?, Array.getElem?_eq_getElem hk]
  rfl

theorem entry?_map_ofNat {table : Array Nat} {k : Nat} (hk : k < table.size) :
    entry? (table.map Int.ofNat) k = some ((table.getD k 0 : Nat) : Int) := by
  rw [entry?_natCast, Array.getElem?_map, Array.getD_eq_getD_getElem?, Array.getElem?_eq_getElem hk]
  rfl

theorem replace?_natCast {table : Array α} {k : Nat} (a : α) (hk : k < table.size) :
    replace? table k a = some (table.setIfInBounds k a) :=
  if_pos ⟨Int.natCast_nonneg k, hk⟩

theorem byte?_natCast {b : ByteArray} {k : Nat} (hk : k < b.size) : byte? b k = some (byteAt b k) :=
  if_pos ⟨Int.natCast_nonneg k, hk⟩

theorem difference?_of_le {a b : Nat} (h : b ≤ a) : difference? a b = some (a - b) :=
  if_pos h

/-! ## Occurrences -/

/-- `markOccurrences`, checked. -/
def markInRange (x : ByteArray) (table : Array Nat) (i : Nat) : Nat → Option (Array Nat)
  | 0 => some table
  | n + 1 => do
    let c ← byte? x i
    let distance ← difference? (x.size - 1) i
    markInRange x (← replace? table c.toNat distance) (i + 1) n

/-- `occurrences`, checked. -/
def occurrencesInRange (x : ByteArray) : Option (Array Nat) :=
  markInRange x (Array.replicate 256 (max x.size 1)) 0 (x.size - 1)

theorem markInRange_eq {table : Array Nat} {i n : Nat} (hn : i + n ≤ x.size - 1)
    (htable : table.size = 256) : markInRange x table i n = some (markOccurrences x table i n) := by
  induction n generalizing i table with
  | zero => rfl
  | succ n ih =>
    have hbyte := (byteAt x i).toNat_lt
    simp only [markInRange, byte?_natCast (show i < x.size by omega), Option.bind_eq_bind,
      Option.bind_some, difference?_of_le (show i ≤ x.size - 1 by omega),
      replace?_natCast _ (show (byteAt x i).toNat < table.size by omega)]
    exact ih (by omega) (by rw [Array.size_setIfInBounds, htable])

theorem occurrencesInRange_eq (x : ByteArray) : occurrencesInRange x = some (occurrences x) :=
  markInRange_eq (by omega) Array.size_replicate

/-! ## Suffix lengths -/

/-- `matchDown`, checked: the last position of the walk may be the one before the first. -/
def walkInRange (x : ByteArray) (d g : Int) : Option Int :=
  if 0 ≤ g then do
    if (← byte? x g) = (← byte? x (g + d)) then walkInRange x d (g - 1) else some g
  else
    some g
termination_by (g + 1).toNat

/-- The entry that the walk from `f` down to above `g` leads to, if it ends inside that walk. -/
def knownInRange (x : ByteArray) (f g : Int) (table : Array Int) (i : Int) : Option (Option Int) :=
  if g < i then do
    let known ← entry? table (i + x.size - 1 - f)
    return if known < i - g then some known else none
  else
    some none

/-- `extendSuffixes`, checked, on a table that has room for every position. -/
def extendInRange (x : ByteArray) (f g : Int) (table : Array Int) : (i : Nat) → Option (Array Int)
  | 0 => some table
  | i + 1 => do
    match ← knownInRange x f g table i with
    | some known => extendInRange x f g (← replace? table i known) i
    | none =>
      let g ← walkInRange x (x.size - 1 - i) (min g i)
      extendInRange x i g (← replace? table i (i - g)) i

/-- `suffixLengths`, checked. -/
def suffixesInRange (x : ByteArray) : Option (Array Int) := do
  let last : Int := x.size - 1
  let table ← replace? (Array.replicate x.size 0) last (x.size : Int)
  extendInRange x last last table (x.size - 1)

theorem walkInRange_eq {d g : Nat} (hg : g + d ≤ x.size) :
    walkInRange x d (g - 1) = some ((matchDown x d g : Int) - 1) := by
  induction g with
  | zero =>
    unfold walkInRange
    exact if_neg (by omega)
  | succ g ih =>
    unfold walkInRange matchDown
    rw [if_pos (by omega), show ((g + 1 : Nat) : Int) - 1 = (g : Int) by omega,
      show (g : Int) + d = ((g + d : Nat) : Int) by omega, byte?_natCast (by omega),
      byte?_natCast (by omega)]
    by_cases heq : byteAt x g = byteAt x (g + d)
    · simp only [Option.bind_eq_bind, Option.bind_some, heq, if_true, beq_self_eq_true]
      exact ih (by omega)
    · simp only [Option.bind_eq_bind, Option.bind_some, if_neg heq, beq_eq_false_iff_ne.mpr heq]
      rw [if_neg (by simp)]
      exact congrArg some (by omega)

/-- The table in place has the entries from `i` on that are found from the end. -/
structure Mirrors (x : ByteArray) (table : Array Int) (found : Array Nat) (i : Nat) : Prop where
  size : table.size = x.size
  entries : ∀ k, i ≤ k → k < x.size → table[k]? = some (found.getD (x.size - 1 - k) 0 : Int)

theorem Mirrors.push {table : Array Int} {found : Array Nat} {i n : Nat}
    (h : Mirrors x table found (i + 1)) (hsize : found.size + (i + 1) = x.size) :
    Mirrors x (table.setIfInBounds i n) (found.push n) i where
  size := by rw [Array.size_setIfInBounds, h.size]
  entries k hik hk := by
    rw [getD_push]
    by_cases heq : k = i
    · subst heq
      rw [if_pos (by omega), Array.getElem?_setIfInBounds_self_of_lt (by rw [h.size]; exact hk)]
    · rw [if_neg (by omega), Array.getElem?_setIfInBounds_ne (Ne.symm heq)]
      exact h.entries k (by omega) hk

/-- The entry at the window's place is the one that `extendSuffixes` reads. -/
theorem Mirrors.known {table : Array Int} {found : Array Nat} {f g i : Nat}
    (h : Mirrors x table found (i + 1)) (hfound : Extending x f g found (i + 1)) :
    knownInRange x f (g - 1) table i =
      some (if g ≤ i ∧ found.getD (f - i) 0 < i + 1 - g then some (found.getD (f - i) 0 : Int)
        else none) := by
  have habove := hfound.above
  have hlast := hfound.last
  unfold knownInRange
  by_cases hg : g ≤ i
  · have ⟨hwindow, _⟩ := hfound.window (Nat.le_succ_of_le hg)
    have hentry := h.entries (i + x.size - 1 - f) (by omega) (by omega)
    rw [show x.size - 1 - (i + x.size - 1 - f) = f - i by omega] at hentry
    rw [if_pos (by omega), show (i : Int) + x.size - 1 - f = ((i + x.size - 1 - f : Nat) : Int) by omega,
      entry?_natCast, hentry]
    have hinside : ((found.getD (f - i) 0 : Nat) : Int) < i - (g - 1) ↔
        g ≤ i ∧ found.getD (f - i) 0 < i + 1 - g := by omega
    simp only [Option.bind_eq_bind, Option.bind_some, hinside]
    rfl
  · rw [if_neg (by omega), if_neg (fun hinside => hg hinside.1)]

theorem extendInRange_eq {table : Array Int} {found : Array Nat} {f g i : Nat}
    (h : Mirrors x table found i) (hfound : Extending x f g found i) :
    ∃ table', extendInRange x f (g - 1) table i = some table' ∧
      Mirrors x table' (extendSuffixes x f g found i) 0 := by
  induction i generalizing table found f g with
  | zero => exact ⟨table, rfl, h⟩
  | succ i ih =>
    have hsize := h.size
    have hroom := hfound.size
    unfold extendInRange extendSuffixes
    dsimp only
    rw [h.known hfound]
    by_cases hinside : g ≤ i ∧ found.getD (f - i) 0 < i + 1 - g
    · simp only [if_pos hinside, Option.bind_eq_bind, Option.bind_some,
        replace?_natCast _ (show i < table.size by omega)]
      exact ih (h.push hroom) (hfound.reuse hinside)
    · have hbelow : min ((g : Int) - 1) i = ((min g (i + 1) : Nat) : Int) - 1 := by omega
      have hdistance : (x.size : Int) - 1 - i = ((x.size - 1 - i : Nat) : Int) := by omega
      have hwalk := walkInRange_eq (x := x) (d := x.size - 1 - i) (g := min g (i + 1)) (by omega)
      have hle := (matchDown_stopsAt x (x.size - 1 - i) (min g (i + 1))).le
      have hnext := hfound.compare hinside
      simp only [if_neg hinside, Option.bind_eq_bind, Option.bind_some, hbelow, hdistance, hwalk]
      generalize matchDown x (x.size - 1 - i) (min g (i + 1)) = g' at hle hnext ⊢
      rw [show (i : Int) - (g' - 1) = ((i + 1 - g' : Nat) : Int) by omega,
        replace?_natCast _ (show i < table.size by omega), Option.bind_some]
      exact ih (h.push hroom) hnext

/-- A table in place that is complete is the one found from the end, read backwards. -/
theorem Mirrors.eq_map {table : Array Int} {found : Array Nat} (h : Mirrors x table found 0)
    (hfound : found.size = x.size) : table = found.reverse.map Int.ofNat := by
  apply Array.ext
  · rw [Array.size_map, Array.size_reverse, h.size, hfound]
  · intro k hk hk'
    have hk : k < x.size := h.size ▸ hk
    have hentry := h.entries k (Nat.zero_le k) hk
    rw [Array.getElem?_eq_getElem (by omega), Option.some_inj] at hentry
    rw [hentry, Array.getElem_map, Array.getElem_reverse, Array.getD_eq_getD_getElem?,
      Array.getElem?_eq_getElem (by omega)]
    simp only [hfound, Option.getD_some, Int.ofNat_eq_natCast]

/-- **The suffix lengths are found without leaving a table or the pattern.** -/
theorem suffixesInRange_eq (hx : 0 < x.size) :
    suffixesInRange x = some ((suffixLengths x).map Int.ofNat) := by
  have hlast : (x.size : Int) - 1 = ((x.size - 1 : Nat) : Int) := by omega
  have hstart : Mirrors x ((Array.replicate x.size (0 : Int)).setIfInBounds (x.size - 1) x.size)
      #[x.size] (x.size - 1) := by
    refine ⟨by rw [Array.size_setIfInBounds, Array.size_replicate], ?_⟩
    intro k hik hk
    obtain rfl : k = x.size - 1 := by omega
    rw [Array.getElem?_setIfInBounds_self_of_lt (by rwa [Array.size_replicate]), Nat.sub_self]
    rfl
  obtain ⟨table, hrun, htable⟩ := extendInRange_eq hstart (extending_start hx)
  obtain ⟨f, g, hfound⟩ := suffixesFromEnd_extending hx
  unfold suffixesInRange
  simp only [hlast, Option.bind_eq_bind,
    replace?_natCast _ (show x.size - 1 < (Array.replicate x.size (0 : Int)).size by
      rw [Array.size_replicate]; omega), Option.bind_some]
  rw [hlast] at hrun
  rw [hrun, htable.eq_map hfound.size]
  rfl

/-! ## Shifts -/

/-- Enter a shift at the positions from the cursor on up to the shift, where the table still holds the
pattern's length; the cursor moves along. -/
def fillInRange (m shift : Nat) (table : Array Nat) (j : Nat) : Option (Array Nat × Nat) :=
  if j < shift then do
    if (← entry? table j) = m then
      fillInRange m shift (← replace? table j shift) (j + 1)
    else
      fillInRange m shift table (j + 1)
  else
    some (table, j)
termination_by shift - j

/-- `borderShifts`, checked, on a table that has room for every position. -/
def borderInRange (m : Nat) (suffixes : Array Int) (table : Array Nat) (j : Nat) :
    (i : Nat) → Option (Array Nat)
  | 0 => some table
  | i + 1 => do
    if (← entry? suffixes i) = i + 1 then
      let (table, j) ← fillInRange m (← difference? (m - 1) i) table j
      borderInRange m suffixes table j i
    else
      borderInRange m suffixes table j i

/-- `innerShifts`, checked. -/
def innerInRange (m : Nat) (suffixes : Array Int) (table : Array Nat) (i : Nat) :
    Nat → Option (Array Nat)
  | 0 => some table
  | n + 1 => do
    let length ← entry? suffixes i
    let shift ← difference? (m - 1) i
    innerInRange m suffixes (← replace? table (m - 1 - length) shift) (i + 1) n

/-- `shifts`, checked. -/
def shiftsInRange (x : ByteArray) : Option (Array Nat) :=
  let m := x.size
  if m = 0 then
    some #[]
  else do
    let suffixes ← suffixesInRange x
    let table ← borderInRange m suffixes (Array.replicate m m) 0 m
    innerInRange m suffixes table 0 (m - 1)

/-- A table that is filled up with the pattern's length. -/
def padded (m : Nat) (table : Array Nat) : Array Nat :=
  table ++ Array.replicate (m - table.size) m

theorem size_padded {m : Nat} {table : Array Nat} (h : table.size ≤ m) : (padded m table).size = m := by
  rw [padded, Array.size_append, Array.size_replicate]
  omega

theorem padded_push {m shift : Nat} {table : Array Nat} (h : table.size < m) :
    (padded m table).setIfInBounds table.size shift = padded m (table.push shift) := by
  obtain ⟨n, hn⟩ : ∃ n, m - table.size = n + 1 := ⟨m - table.size - 1, by omega⟩
  have hn' : m - (table.size + 1) = n := by omega
  apply Array.ext'
  simp [padded, hn, hn', List.replicate_succ]

theorem getElem?_padded {m : Nat} {table : Array Nat} (h : table.size < m) :
    (padded m table)[table.size]? = some m := by
  rw [padded, Array.getElem?_append_right (Nat.le_refl _), Nat.sub_self, Array.getElem?_replicate,
    if_pos (by omega)]

theorem append_replicate_succ {n shift : Nat} {table : Array Nat} :
    table ++ Array.replicate (n + 1) shift = table.push shift ++ Array.replicate n shift := by
  apply Array.ext'
  simp [List.replicate_succ]

theorem fillInRange_eq {m shift n : Nat} {table : Array Nat} (hshift : shift < m)
    (hn : n = shift - table.size) :
    fillInRange m shift (padded m table) table.size =
      some (padded m (table ++ Array.replicate n shift),
        (table ++ Array.replicate n shift).size) := by
  induction n generalizing table with
  | zero =>
    unfold fillInRange
    rw [if_neg (by omega), Array.replicate_zero, Array.append_empty]
  | succ n ih =>
    unfold fillInRange
    have hsize : (padded m table).size = m := size_padded (by omega)
    rw [if_pos (by omega), entry?_natCast, getElem?_padded (by omega)]
    simp only [Option.bind_eq_bind, Option.bind_some, if_true,
      replace?_natCast _ (show table.size < (padded m table).size by omega)]
    rw [padded_push (by omega), append_replicate_succ, ← Array.size_push shift]
    exact ih (by rw [Array.size_push]; omega)

theorem borderInRange_eq {m i : Nat} {suffixes table : Array Nat} (hsuffixes : suffixes.size = m)
    (hi : i ≤ m) :
    borderInRange m (suffixes.map Int.ofNat) (padded m table) table.size i =
      some (padded m (borderShifts m suffixes table i)) := by
  induction i generalizing table with
  | zero => rfl
  | succ i ih =>
    unfold borderInRange borderShifts
    rw [entry?_map_ofNat (by omega)]
    dsimp only
    by_cases hwhole : suffixes.getD i 0 = i + 1
    · simp only [Option.bind_eq_bind, Option.bind_some, if_pos hwhole,
        if_pos (show ((suffixes.getD i 0 : Nat) : Int) = i + 1 by omega),
        difference?_of_le (show i ≤ m - 1 by omega), fillInRange_eq (show m - 1 - i < m by omega) rfl]
      exact ih (by omega)
    · simp only [Option.bind_eq_bind, Option.bind_some, if_neg hwhole,
        if_neg (show ¬ ((suffixes.getD i 0 : Nat) : Int) = i + 1 by omega)]
      exact ih (by omega)

theorem innerInRange_eq {m i n : Nat} {suffixes table : Array Nat} (hsuffixes : suffixes.size = m)
    (hle : ∀ i < m, suffixes.getD i 0 ≤ i + 1) (hn : i + n < m) (h : table.size = m) :
    innerInRange m (suffixes.map Int.ofNat) table i n = some (innerShifts m suffixes table i n) := by
  induction n generalizing i table with
  | zero => rfl
  | succ n ih =>
    have hlength := hle i (by omega)
    unfold innerInRange innerShifts
    rw [entry?_map_ofNat (by omega)]
    simp only [Option.bind_eq_bind, Option.bind_some, difference?_of_le (show i ≤ m - 1 by omega)]
    rw [show (m : Int) - 1 - (suffixes.getD i 0 : Nat) = ((m - 1 - suffixes.getD i 0 : Nat) : Int) by omega,
      replace?_natCast _ (by omega), Option.bind_some]
    exact ih (by omega) (by rw [Array.size_setIfInBounds, h])

/-- **The shifts are found without leaving a table or the pattern.** -/
theorem shiftsInRange_eq (x : ByteArray) : shiftsInRange x = some (shifts x) := by
  unfold shiftsInRange shifts
  dsimp only
  by_cases hx : x.size = 0
  · rw [if_pos hx, if_pos hx]
  · rw [if_neg hx, if_neg hx]
    have hsize := size_suffixLengths (Nat.pos_of_ne_zero hx)
    have hle := fun i (hi : i < x.size) => (suffixLengths_exact hi).le
    have hborders : borderInRange x.size ((suffixLengths x).map Int.ofNat) (padded x.size #[]) 0 x.size =
        some (padded x.size (borderShifts x.size (suffixLengths x) #[] x.size)) :=
      borderInRange_eq hsize (Nat.le_refl x.size)
    have hbordered := borderShifts_bordered (fun i hi => suffixLengths_exact hi) (Nat.le_refl _)
      (bordered_empty x)
    have hroom := hbordered.size_le
    have hstart : Array.replicate x.size x.size = padded x.size #[] := Array.empty_append.symm
    simp only [suffixesInRange_eq (Nat.pos_of_ne_zero hx), hstart, hborders, Option.bind_eq_bind,
      Option.bind_some]
    exact innerInRange_eq hsize hle (by omega) (size_padded (by omega))

end DedupImage.Pattern
