import DedupImage.Proofs.Pattern.Overlap
import DedupImage.Proofs.Pattern.Search
import DedupImage.Proofs.Pattern.TablesInRange

/-!
# Searches stay in range

The two searches once more, with every access and every difference checked and with a bound on the rounds
of their loops. The search for the whole pattern moves it on in every round, so one round for each place
of the text and one more are enough (`findFromInRange_eq`). The search for an overlap steps through the
positions from the longest overlap's on; these are the text's end less the multiples of the granularity, so
no position passes the end (`tailFromInRange_eq`).

With what the tables and the lengths mean this settles what is found: the first occurrence
(`first_occurrence_is_found`) and the longest overlap (`longest_overlap_is_found`).
-/

namespace DedupImage.Pattern

variable {x text : ByteArray} {i j n rounds granularity shortest : Nat}

/-! ## The whole pattern -/

/-- `unmatched`, checked. -/
def unmatchedInRange (x text : ByteArray) (j : Nat) : (i : Nat) → Option Nat
  | 0 => some 0
  | i + 1 => do
    if (← byte? x i) = (← byte? text (i + j)) then unmatchedInRange x text j i else return i + 1

/-- `advance`, checked. The move by the occurrence table may be backwards. -/
def advanceInRange (p : Pattern) (i : Nat) (c : UInt8) : Option Nat := do
  let shift ← entry? p.shiftTable i
  let distance ← entry? p.occurrenceTable c.toNat
  let behind ← difference? (p.size - 1) i
  return (max (max (shift : Int) (distance - behind)) 1).toNat

/-- `findFrom`, checked, in so many rounds at most. -/
def findFromInRange (p : Pattern) (text : ByteArray) (j : Nat) : (rounds : Nat) → Option (Option Nat)
  | 0 => none
  | rounds + 1 =>
    if j + p.size ≤ text.size then do
      match ← unmatchedInRange p.bytes text j p.size with
      | 0 => return some j
      | i + 1 =>
        let move ← advanceInRange p i (← byte? text (i + j))
        findFromInRange p text (j + move) rounds
    else
      some none

/-- `find?`, checked: the tables are filled and the text is searched. -/
def findInRange (x text : ByteArray) : Option (Option Nat) := do
  let p : Pattern := ⟨x, ← occurrencesInRange x, ← shiftsInRange x⟩
  if p.size = 0 then return some 0 else findFromInRange p text 0 (text.size + 1)

theorem unmatchedInRange_eq (hi : i ≤ x.size) (hj : j + i ≤ text.size) :
    unmatchedInRange x text j i = some (unmatched x text j i) := by
  induction i with
  | zero => rfl
  | succ i ih =>
    unfold unmatchedInRange unmatched
    rw [byte?_natCast (by omega), show (i : Int) + j = ((i + j : Nat) : Int) by omega,
      byte?_natCast (by omega)]
    simp only [Option.bind_eq_bind, Option.bind_some, beq_iff_eq]
    by_cases heq : byteAt x i = byteAt text (i + j)
    · rw [if_pos heq, if_pos heq]
      exact ih (by omega) (by omega)
    · rw [if_neg heq, if_neg heq]
      rfl

theorem advanceInRange_eq (c : UInt8) (hi : i < x.size) :
    advanceInRange (ofBytes x) i c = some ((ofBytes x).advance i c) := by
  have hshift : i < (shifts x).size := by rwa [size_shifts]
  have hdistance : c.toNat < (occurrences x).size := by
    rw [size_occurrences]
    exact c.toNat_lt
  have hbehind : i ≤ x.size - 1 := by omega
  unfold advanceInRange advance
  rw [show (ofBytes x).shiftTable = shifts x from rfl,
    show (ofBytes x).occurrenceTable = occurrences x from rfl, show (ofBytes x).size = x.size from rfl,
    entry?_of_lt 0 hshift, entry?_of_lt 0 hdistance, difference?_of_le hbehind]
  refine congrArg some ?_
  omega

theorem findFromInRange_eq (hx : 0 < x.size) (hrounds : text.size - j < rounds) :
    findFromInRange (ofBytes x) text j rounds = some ((ofBytes x).findFrom text j) := by
  induction rounds generalizing j with
  | zero => omega
  | succ rounds ih =>
    unfold findFromInRange findFrom
    have hsize : (ofBytes x).size = x.size := rfl
    by_cases hj : j + (ofBytes x).size ≤ text.size
    · have hunmatched : unmatchedInRange x text j x.size = some (unmatched x text j x.size) :=
        unmatchedInRange_eq (Nat.le_refl _) hj
      rw [if_pos hj, dif_pos hj, show (ofBytes x).bytes = x from rfl,
        hsize, hunmatched, Option.bind_eq_bind, Option.bind_some]
      cases hmatch : unmatched x text j x.size with
      | zero => rfl
      | succ i =>
        have hi := (mismatch_of_unmatched hmatch).lt
        have hpos := (ofBytes x).advance_pos i (byteAt text (i + j))
        dsimp only
        rw [show (i : Int) + j = ((i + j : Nat) : Int) by omega, byte?_natCast (by omega)]
        simp only [Option.bind_eq_bind, Option.bind_some, advanceInRange_eq _ hi]
        exact ih (by omega)
    · rw [if_neg hj, dif_neg hj]

theorem findInRange_eq (x text : ByteArray) :
    findInRange x text = some ((ofBytes x).find? text) := by
  unfold findInRange find?
  simp only [occurrencesInRange_eq, shiftsInRange_eq, Option.bind_eq_bind, Option.bind_some]
  show (if (ofBytes x).size = 0 then some (some 0) else findFromInRange (ofBytes x) text 0 _) = _
  by_cases hx : (ofBytes x).size = 0
  · rw [if_pos hx, if_pos hx]
  · rw [if_neg hx, if_neg hx]
    exact findFromInRange_eq (Nat.pos_of_ne_zero hx) (by omega)

/-- **A search finds the first occurrence,** an occurrence at the beginning for the empty pattern, and
nothing only if the pattern occurs nowhere. No table and no string is read outside, and every mismatch
moves the pattern on. -/
theorem first_occurrence_is_found (x text : ByteArray) :
    findInRange x text = some ((ofBytes x).find? text) ∧
      (∀ base, (ofBytes x).find? text = some base ↔ IsLeast {k | holdsAt text k x = true} base) ∧
      ((ofBytes x).find? text = none ↔ ∀ k, ¬ holdsAt text k x = true) ∧
      (ofBytes ByteArray.empty).find? text = some 0 ∧
      ∀ i c, 0 < (ofBytes x).advance i c :=
  ⟨findInRange_eq x text, fun _ => find?_eq_some_iff, find?_eq_none_iff, if_pos rfl,
    (ofBytes x).advance_pos⟩

/-! ## Overlaps -/

/-- The bytes from one position up to another. -/
def stretch? (b : ByteArray) (start stop : Nat) : Option ByteArray :=
  if start ≤ stop ∧ stop ≤ b.size then some (b.extract start stop) else none

/-- Whether the text from a position on is a beginning of the pattern, whose first byte is given. -/
def overlapsInRange (x text : ByteArray) (first : UInt8) (position : Nat) : Option Bool := do
  if (← byte? text position) = first then
    let rest ← stretch? text (position + 1) text.size
    let length ← difference? text.size position
    return decide (rest.data = (← stretch? x 1 length).data)
  else
    return false

/-- `tailFrom`, checked, in so many rounds at most. -/
def tailFromInRange (x text : ByteArray) (first : UInt8) (shortest granularity position : Nat) :
    (rounds : Nat) → Option (Option Nat)
  | 0 => none
  | rounds + 1 => do
    if shortest ≤ (← difference? text.size position) then
      if ← overlapsInRange x text first position then
        return some position
      else
        tailFromInRange x text first shortest granularity (position + granularity) rounds
    else
      return none

/-- `tail?`, checked: the positions from the longest overlap's on. -/
def tailInRange (x text : ByteArray) (least granularity : Nat) : Option (Option Nat) := do
  if x.size = 0 ∨ granularity = 0 then
    return none
  else
    let most := min text.size x.size
    let longest ← difference? most (most % granularity)
    if longest < max least 1 then
      return none
    else
      let first ← byte? x 0
      let position ← difference? text.size longest
      tailFromInRange x text first (max least 1) granularity position (text.size + 1)

theorem stretch?_of_le {b : ByteArray} {start stop : Nat} (h : start ≤ stop) (hstop : stop ≤ b.size) :
    stretch? b start stop = some (b.extract start stop) :=
  if_pos ⟨h, hstop⟩

/-- Strings agree if their first bytes and the bytes behind do. -/
theorem agree_iff_first {length : Nat} (hpos : 0 < length) (htext : length ≤ text.size)
    (hx : length ≤ x.size) :
    agree text (text.size - length) x 0 length = true ↔
      byteAt text (text.size - length) = byteAt x 0 ∧
        text.extract (text.size - length + 1) text.size = x.extract 1 length := by
  simp only [agree_iff, Nat.zero_add]
  constructor
  · intro h
    refine ⟨h 0 hpos, eq_of_byteAt ?_ ?_⟩
    · rw [ByteArray.size_extract, ByteArray.size_extract]
      omega
    · intro k hk
      rw [ByteArray.size_extract] at hk
      rw [byteAt_extract, byteAt_extract, if_pos (by omega), if_pos (by omega), ← h (1 + k) (by omega)]
      congr 1
      omega
  · rintro ⟨hfirst, hrest⟩ k hk
    cases k with
    | zero => exact hfirst
    | succ k =>
      have hbyte := congrArg (byteAt · k) hrest
      rw [byteAt_extract, byteAt_extract, if_pos (by omega), if_pos (by omega)] at hbyte
      rwa [Nat.add_assoc, Nat.add_comm 1 k] at hbyte

theorem overlapsInRange_eq {length : Nat} (hpos : 0 < length) (htext : length ≤ text.size)
    (hx : length ≤ x.size) :
    overlapsInRange x text (byteAt x 0) (text.size - length) =
      some (agree text (text.size - length) x 0 length) := by
  have hagree := agree_iff_first hpos htext hx
  unfold overlapsInRange
  rw [byte?_natCast (by omega), Option.bind_eq_bind, Option.bind_some]
  by_cases hfirst : byteAt text (text.size - length) = byteAt x 0
  · rw [if_pos hfirst, stretch?_of_le (by omega) (Nat.le_refl _), difference?_of_le (by omega),
      show text.size - (text.size - length) = length by omega]
    simp only [Option.bind_eq_bind, Option.bind_some, stretch?_of_le hpos hx]
    refine congrArg some (Bool.eq_iff_iff.mpr ?_)
    rw [hagree, decide_eq_true_iff, ← ByteArray.ext_iff]
    exact (and_iff_right hfirst).symm
  · rw [if_neg hfirst]
    refine congrArg some (Bool.eq_iff_iff.mpr ?_)
    rw [hagree]
    exact ⟨fun h => (Bool.false_ne_true h).elim, fun h => absurd h.1 hfirst⟩

theorem tailFromInRange_eq (hpos : 0 < shortest) (hbound : n * granularity ≤ min text.size x.size)
    (hrounds : n < rounds) :
    tailFromInRange x text (byteAt x 0) shortest granularity (text.size - n * granularity) rounds =
      some (tailFrom x text shortest granularity n) := by
  induction n generalizing rounds with
  | zero =>
    obtain ⟨rounds, rfl⟩ : ∃ k, rounds = k + 1 := ⟨rounds - 1, by omega⟩
    unfold tailFromInRange
    rw [Nat.zero_mul, Nat.sub_zero, difference?_of_le (Nat.le_refl _), Nat.sub_self, Option.bind_eq_bind,
      Option.bind_some, if_neg (by omega)]
    rfl
  | succ n ih =>
    obtain ⟨rounds, rfl⟩ : ∃ k, rounds = k + 1 := ⟨rounds - 1, by omega⟩
    have hstep : (n + 1) * granularity = n * granularity + granularity := Nat.succ_mul n granularity
    unfold tailFromInRange tailFrom
    rw [difference?_of_le (Nat.sub_le _ _),
      show text.size - (text.size - (n + 1) * granularity) = (n + 1) * granularity by omega,
      Option.bind_eq_bind, Option.bind_some]
    dsimp only
    by_cases hshort : (n + 1) * granularity < shortest
    · rw [if_neg (by omega), if_pos hshort]
      rfl
    · rw [if_pos (by omega), if_neg hshort, overlapsInRange_eq (by omega) (by omega) (by omega),
        Option.bind_eq_bind, Option.bind_some]
      by_cases hagree : agree text (text.size - (n + 1) * granularity) x 0 ((n + 1) * granularity) = true
      · rw [if_pos hagree, if_pos hagree]
        rfl
      · rw [if_neg hagree, if_neg hagree,
          show text.size - (n + 1) * granularity + granularity = text.size - n * granularity by omega]
        exact ih (by omega) (by omega)

/-- A length that is too short ends the search. -/
theorem tailFrom_of_lt (h : n * granularity < shortest) :
    tailFrom x text shortest granularity n = none := by
  cases n with
  | zero => rfl
  | succ n => exact if_pos h

theorem tailInRange_eq (x text : ByteArray) (least granularity : Nat) :
    tailInRange x text least granularity = some ((ofBytes x).tail? text least granularity) := by
  have hsize : (ofBytes x).size = x.size := rfl
  have hbytes : (ofBytes x).bytes = x := rfl
  unfold tailInRange tail?
  by_cases hgranularity : granularity = 0
  · rw [if_pos (.inr hgranularity), if_pos hgranularity]
    rfl
  · rw [if_neg hgranularity, hsize, hbytes]
    by_cases hx : x.size = 0
    · rw [if_pos (.inl hx), hx, Nat.min_zero, Nat.zero_div]
      rfl
    · rw [if_neg (not_or.mpr ⟨hx, hgranularity⟩)]
      have hlongest : min text.size x.size - min text.size x.size % granularity =
          min text.size x.size / granularity * granularity := Nat.div_mul_self_eq_mod_sub_self.symm
      have hbound := Nat.div_mul_le_self (min text.size x.size) granularity
      generalize min text.size x.size / granularity = n at hlongest hbound
      have hn : n ≤ n * granularity := Nat.le_mul_of_pos_right n (Nat.pos_of_ne_zero hgranularity)
      simp only [difference?_of_le (Nat.mod_le _ _), hlongest, Option.bind_eq_bind, Option.bind_some]
      by_cases hshort : n * granularity < max least 1
      · rw [if_pos hshort, tailFrom_of_lt hshort]
        rfl
      · rw [if_neg hshort, show (0 : Int) = ((0 : Nat) : Int) from rfl, byte?_natCast (by omega),
          difference?_of_le (by omega), Option.bind_some, Option.bind_some]
        exact tailFromInRange_eq (by omega) hbound (by omega)

/-- **A search for an overlap finds the longest one,** and nothing only if there is none, as for an empty
pattern or granularity zero. The position never passes the end of the text, and no string is read
outside. -/
theorem longest_overlap_is_found (x text : ByteArray) (least granularity : Nat) :
    tailInRange x text least granularity = some ((ofBytes x).tail? text least granularity) ∧
      (∀ base, (ofBytes x).tail? text least granularity = some base ↔
        base ≤ text.size ∧
          IsGreatest {length | Overlap x text least granularity length} (text.size - base)) ∧
      ((ofBytes x).tail? text least granularity = none ↔
        ∀ length, ¬ Overlap x text least granularity length) ∧
      (ofBytes x).tail? text least 0 = none ∧
      (ofBytes ByteArray.empty).tail? text least granularity = none := by
  refine ⟨tailInRange_eq x text least granularity, fun _ => tail?_eq_some_iff, tail?_eq_none_iff,
    if_pos rfl, tail?_eq_none_iff.mpr ?_⟩
  intro length hoverlap
  have hpos := hoverlap.least_le
  have hempty : length ≤ 0 := hoverlap.le_pattern
  omega

end DedupImage.Pattern
