import DedupImage.Bytes
import Mathlib.Algebra.GroupWithZero.Nat

/-!
# Laws of byte strings

A byte string is known by its size and by `byteAt`, the total look-up. Every operation of the library
has one law for each of the two here, and two strings of one size that agree at every position below
it are equal (`eq_of_byteAt`). Nothing after this module opens a loop over bytes.

`holdsAt_iff` is the form in which the rest uses comparisons: a piece is stored at a position if it
ends inside the string and every one of its bytes is there. Growing a string at its end keeps every
piece (`holdsAt_append`), and the piece at a position is unique (`holdsAt_unique`).
-/

namespace DedupImage

/-! ## The look-up -/

theorem byteAt_of_lt {b : ByteArray} {i : Nat} (h : i < b.size) : byteAt b i = b[i] :=
  dif_pos h

theorem byteAt_of_le {b : ByteArray} {i : Nat} (h : b.size ≤ i) : byteAt b i = 0 :=
  dif_neg (Nat.not_lt.mpr h)

/-- Two strings of one size are equal if they agree below it. -/
theorem eq_of_byteAt {a b : ByteArray} (size : a.size = b.size)
    (h : ∀ i < a.size, byteAt a i = byteAt b i) : a = b := by
  apply ByteArray.ext_getElem size
  intro i ha hb
  have := h i ha
  rwa [byteAt_of_lt ha, byteAt_of_lt hb] at this

theorem byteAt_append (a b : ByteArray) (i : Nat) :
    byteAt (a ++ b) i = if i < a.size then byteAt a i else byteAt b (i - a.size) := by
  by_cases ha : i < a.size
  · have h : i < (a ++ b).size := by rw [ByteArray.size_append]; omega
    rw [if_pos ha, byteAt_of_lt h, byteAt_of_lt ha, ByteArray.getElem_append_left ha]
  · rw [if_neg ha]
    by_cases hb : i - a.size < b.size
    · have h : i < (a ++ b).size := by rw [ByteArray.size_append]; omega
      rw [byteAt_of_lt h, byteAt_of_lt hb, ByteArray.getElem_append_right (Nat.not_lt.mp ha)]
    · rw [byteAt_of_le (Nat.not_lt.mp hb), byteAt_of_le]
      rw [ByteArray.size_append]
      omega

theorem byteAt_append_left {a b : ByteArray} {i : Nat} (h : i < a.size) :
    byteAt (a ++ b) i = byteAt a i := by
  rw [byteAt_append, if_pos h]

theorem byteAt_push (b : ByteArray) (byte : UInt8) (i : Nat) :
    byteAt (b.push byte) i = if i = b.size then byte else byteAt b i := by
  by_cases hlt : i < b.size
  · have h : i < (b.push byte).size := by rw [ByteArray.size_push]; omega
    rw [if_neg (Nat.ne_of_lt hlt), byteAt_of_lt h, byteAt_of_lt hlt]
    exact Array.getElem_push_lt hlt
  · by_cases heq : i = b.size
    · subst heq
      have h : b.size < (b.push byte).size := by rw [ByteArray.size_push]; omega
      rw [if_pos rfl, byteAt_of_lt h]
      exact Array.getElem_push_eq
    · rw [if_neg heq, byteAt_of_le (Nat.not_lt.mp hlt), byteAt_of_le]
      rw [ByteArray.size_push]
      omega

theorem byteAt_extract (b : ByteArray) (start stop i : Nat) :
    byteAt (b.extract start stop) i = if start + i < stop then byteAt b (start + i) else 0 := by
  by_cases h : i < (b.extract start stop).size
  · have hs := ByteArray.size_extract (a := b) (b := start) (e := stop)
    have hb : start + i < b.size := by omega
    rw [if_pos (by omega), byteAt_of_lt h, byteAt_of_lt hb, ByteArray.getElem_extract]
  · have hs := ByteArray.size_extract (a := b) (b := start) (e := stop)
    rw [byteAt_of_le (Nat.not_lt.mp h)]
    split
    · rw [byteAt_of_le (by omega)]
    · rfl

/-- Nothing lies behind the end. -/
theorem extract_min_size (b : ByteArray) (start stop : Nat) :
    b.extract start (min stop b.size) = b.extract start stop := by
  apply eq_of_byteAt
  · rw [ByteArray.size_extract, ByteArray.size_extract]
    omega
  · intro i hi
    rw [ByteArray.size_extract] at hi
    rw [byteAt_extract, byteAt_extract, if_pos (by omega), if_pos (by omega)]

/-! ## Stretches -/

@[simp] theorem size_slice (b : ByteArray) (start n : Nat) :
    (slice b start n).size = min (start + n) b.size - start :=
  ByteArray.size_extract

theorem size_slice_of_le {b : ByteArray} {start n : Nat} (h : start + n ≤ b.size) :
    (slice b start n).size = n := by
  rw [size_slice]
  omega

theorem byteAt_slice {b : ByteArray} {start n i : Nat} (h : i < n) :
    byteAt (slice b start n) i = byteAt b (start + i) := by
  unfold slice
  rw [byteAt_extract, if_pos (by omega)]

theorem slice_zero (b : ByteArray) (start : Nat) : slice b start 0 = ByteArray.empty :=
  ByteArray.size_eq_zero_iff.mp (by rw [size_slice]; omega)

theorem slice_all (b : ByteArray) : slice b 0 b.size = b := by
  rw [slice, Nat.zero_add, ByteArray.extract_zero_size]

/-- A string that grew at its end keeps every stretch that it had. -/
theorem slice_append {b : ByteArray} {start n : Nat} (tail : ByteArray) (h : start + n ≤ b.size) :
    slice (b ++ tail) start n = slice b start n := by
  have hs : start + n ≤ (b ++ tail).size := by rw [ByteArray.size_append]; omega
  apply eq_of_byteAt
  · rw [size_slice_of_le hs, size_slice_of_le h]
  · intro i hi
    rw [size_slice_of_le hs] at hi
    rw [byteAt_slice hi, byteAt_slice hi, byteAt_append_left (by omega)]

/-- Stretches that meet make one. -/
theorem slice_add {b : ByteArray} (start m n : Nat) :
    slice b start m ++ slice b (start + m) n = slice b start (m + n) := by
  unfold slice
  rw [ByteArray.extract_append_extract]
  congr 1 <;> omega

/-- Two strings agree on a stretch if they have the same bytes there. -/
theorem agree_iff {a b : ByteArray} {i j n : Nat} :
    agree a i b j n = true ↔ ∀ k < n, byteAt a (i + k) = byteAt b (j + k) := by
  induction n with
  | zero => exact ⟨fun _ k hk => absurd hk (Nat.not_lt_zero k), fun _ => rfl⟩
  | succ n ih =>
    unfold agree
    rw [Bool.and_eq_true, beq_iff_eq, ih]
    constructor
    · intro ⟨hn, h⟩ k hk
      by_cases hkn : k = n
      · exact hkn ▸ hn
      · exact h k (by omega)
    · intro h
      exact ⟨h n (Nat.lt_succ_self n), fun k hk => h k (Nat.lt_succ_of_lt hk)⟩

/-! ## Stored pieces -/

/-- A piece is stored at a position if it ends inside the string and all its bytes are there. -/
theorem holdsAt_iff {b piece : ByteArray} {start : Nat} :
    holdsAt b start piece = true ↔
      start + piece.size ≤ b.size ∧ ∀ k < piece.size, byteAt b (start + k) = byteAt piece k := by
  unfold holdsAt
  rw [Bool.and_eq_true, decide_eq_true_eq, agree_iff]
  simp only [Nat.zero_add]

/-- A piece is stored at a position if it is the stretch there. -/
theorem holdsAt_iff_slice {b piece : ByteArray} {start : Nat} :
    holdsAt b start piece = true ↔
      start + piece.size ≤ b.size ∧ slice b start piece.size = piece := by
  rw [holdsAt_iff]
  constructor
  · intro ⟨hsize, h⟩
    refine ⟨hsize, eq_of_byteAt (size_slice_of_le hsize) ?_⟩
    intro i hi
    rw [size_slice_of_le hsize] at hi
    rw [byteAt_slice hi, h i hi]
  · intro ⟨hsize, h⟩
    refine ⟨hsize, ?_⟩
    intro k hk
    rw [← byteAt_slice hk, h]

/-- A string that grows at its end keeps every piece. -/
theorem holdsAt_append {b piece : ByteArray} {start : Nat} (tail : ByteArray)
    (h : holdsAt b start piece = true) : holdsAt (b ++ tail) start piece = true := by
  obtain ⟨hsize, hbytes⟩ := holdsAt_iff.mp h
  refine holdsAt_iff.mpr ⟨by rw [ByteArray.size_append]; omega, ?_⟩
  intro k hk
  rw [byteAt_append_left (by omega), hbytes k hk]

/-- Two pieces of one size that are stored at one position are equal. -/
theorem holdsAt_unique {b p q : ByteArray} {start : Nat} (hp : holdsAt b start p = true)
    (hq : holdsAt b start q = true) (size : p.size = q.size) : p = q := by
  have hp := (holdsAt_iff_slice.mp hp).2
  have hq := (holdsAt_iff_slice.mp hq).2
  rw [← hp, ← hq, size]

/-- The empty piece is stored at every position up to the end. -/
theorem holdsAt_empty {b : ByteArray} {start : Nat} (h : start ≤ b.size) :
    holdsAt b start ByteArray.empty = true := by
  rw [holdsAt_iff, ByteArray.size_empty]
  exact ⟨h, fun k hk => absurd hk (Nat.not_lt_zero k)⟩

/-- Where a beginning of a block is stored at the end of a string, the string with the rest of the
block behind it stores the whole block. -/
theorem holdsAt_append_rest {b block : ByteArray} {base : Nat} (hbase : base ≤ b.size)
    (h : ∀ k, k < block.size → base + k < b.size → byteAt b (base + k) = byteAt block k) :
    holdsAt (b ++ block.extract (b.size - base) block.size) base block = true := by
  have hrest := ByteArray.size_extract (a := block) (b := b.size - base) (e := block.size)
  refine holdsAt_iff.mpr ⟨?_, ?_⟩
  · rw [ByteArray.size_append]
    omega
  · intro k hk
    rw [byteAt_append]
    split
    · exact h k hk ‹_›
    · rw [byteAt_extract, if_pos (by omega)]
      congr 1
      omega

/-! ## Strings that are put over others -/

@[simp] theorem size_pushCopies (b : ByteArray) (byte : UInt8) (n : Nat) :
    (pushCopies b byte n).size = b.size + n := by
  induction n generalizing b with
  | zero => rfl
  | succ n ih =>
    rw [pushCopies, ih, ByteArray.size_push]
    omega

/-- A gap that is filled with zeros reads as it did before. -/
theorem byteAt_pushCopies_zero (b : ByteArray) (n i : Nat) :
    byteAt (pushCopies b 0 n) i = byteAt b i := by
  induction n generalizing b with
  | zero => rfl
  | succ n ih =>
    rw [pushCopies, ih, byteAt_push]
    by_cases h : i = b.size
    · rw [if_pos h, byteAt_of_le (by omega)]
    · rw [if_neg h]

theorem byteAt_pushCopies_of_lt {b : ByteArray} {i : Nat} (h : i < b.size) (byte : UInt8) (n : Nat) :
    byteAt (pushCopies b byte n) i = byteAt b i := by
  induction n generalizing b with
  | zero => rfl
  | succ n ih =>
    rw [pushCopies, ih (by rw [ByteArray.size_push]; omega), byteAt_push, if_neg (Nat.ne_of_lt h)]

theorem byteAt_pushCopies_of_le {b : ByteArray} {n i : Nat} (hfirst : b.size ≤ i) (hlast : i < b.size + n)
    (byte : UInt8) : byteAt (pushCopies b byte n) i = byte := by
  induction n generalizing b with
  | zero => omega
  | succ n ih =>
    rw [pushCopies]
    rcases Nat.eq_or_lt_of_le hfirst with rfl | hbehind
    · rw [byteAt_pushCopies_of_lt (by rw [ByteArray.size_push]; omega), byteAt_push, if_pos rfl]
    · exact ih (by rw [ByteArray.size_push]; exact hbehind) (by rw [ByteArray.size_push]; omega)

/-- A stretch of equal bytes is made of copies. -/
theorem pushCopies_eq_append_slice {src : ByteArray} {start n : Nat} {byte : UInt8} (out : ByteArray)
    (hsize : start + n ≤ src.size) (h : ∀ i < n, byteAt src (start + i) = byte) :
    pushCopies out byte n = out ++ slice src start n := by
  have hslice := size_slice_of_le hsize
  apply eq_of_byteAt
  · rw [size_pushCopies, ByteArray.size_append, hslice]
  · intro i hi
    rw [size_pushCopies] at hi
    rw [byteAt_append]
    split
    next hout => exact byteAt_pushCopies_of_lt hout byte n
    next hout =>
      rw [byteAt_pushCopies_of_le (Nat.not_lt.mp hout) hi, byteAt_slice (by omega), h _ (by omega)]

theorem size_zeros (n : Nat) : (zeros n).size = n := by
  rw [zeros, size_pushCopies, ByteArray.size_empty, Nat.zero_add]

theorem byteAt_zeros (n i : Nat) : byteAt (zeros n) i = 0 := by
  rw [zeros, byteAt_pushCopies_zero, byteAt_of_le (Nat.zero_le i)]

theorem overwrite_eq (b piece : ByteArray) (start : Nat) :
    overwrite b start piece =
      b.extract 0 start ++ piece ++ b.extract (start + piece.size) b.size := by
  rw [overwrite, ByteArray.copySlice_eq_append, Nat.zero_add, ByteArray.extract_zero_size]
  simp

theorem size_overwrite {b piece : ByteArray} {start : Nat} (h : start ≤ b.size) :
    (overwrite b start piece).size = max b.size (start + piece.size) := by
  rw [overwrite_eq]
  simp only [ByteArray.size_append, ByteArray.size_extract]
  omega

theorem byteAt_overwrite {b piece : ByteArray} {start : Nat} (h : start ≤ b.size) (i : Nat) :
    byteAt (overwrite b start piece) i =
      if start ≤ i ∧ i < start + piece.size then byteAt piece (i - start) else byteAt b i := by
  have hfirst : (b.extract 0 start).size = start := by
    rw [ByteArray.size_extract]
    omega
  rw [overwrite_eq, ByteArray.append_assoc, byteAt_append, byteAt_append, byteAt_extract,
    byteAt_extract, hfirst]
  by_cases hbefore : i < start
  · simp [hbefore, Nat.not_le.mpr hbefore]
  · by_cases hinside : i < start + piece.size
    · simp [hbefore, Nat.not_lt.mp hbefore, hinside, show i - start < piece.size by omega]
    · simp only [hbefore, hinside, and_false, if_false, show ¬ i - start < piece.size by omega]
      split
      · congr 1
        omega
      · rw [byteAt_of_le (by omega)]

/-- What was put at the front is there. -/
theorem slice_overwrite_zero {b piece : ByteArray} : slice (overwrite b 0 piece) 0 piece.size = piece := by
  have hsize : (overwrite b 0 piece).size = max b.size (0 + piece.size) := size_overwrite (Nat.zero_le _)
  apply eq_of_byteAt
  · rw [size_slice_of_le (by omega)]
  · intro i hi
    rw [size_slice_of_le (by omega)] at hi
    rw [byteAt_slice hi, byteAt_overwrite (Nat.zero_le _), if_pos (by omega)]
    congr 1
    omega

/-! ## Numbers -/

@[simp] theorem size_pushNumber (out : ByteArray) (width n : Nat) :
    (pushNumber out width n).size = out.size + width := by
  induction width generalizing out n with
  | zero => rfl
  | succ w ih =>
    rw [pushNumber, ih, ByteArray.size_push]
    omega

@[simp] theorem size_numberBytes (width n : Nat) : (numberBytes width n).size = width := by
  simp [numberBytes]

/-- A byte is added as a string of one byte. -/
theorem push_eq_append (out : ByteArray) (byte : UInt8) :
    out.push byte = out ++ ByteArray.empty.push byte := by
  ext1
  simp

/-- A number is added as its bytes. -/
theorem pushNumber_eq (out : ByteArray) (width n : Nat) :
    pushNumber out width n = out ++ numberBytes width n := by
  induction width generalizing out n with
  | zero => exact ByteArray.append_empty.symm
  | succ w ih =>
    rw [numberBytes, pushNumber, pushNumber, ih, ih (ByteArray.empty.push _), push_eq_append,
      ByteArray.append_assoc]

theorem byteAt_pushNumber_of_lt {out : ByteArray} {width n i : Nat} (h : i < out.size) :
    byteAt (pushNumber out width n) i = byteAt out i := by
  rw [pushNumber_eq, byteAt_append_left h]

/-- Only the bytes of a number matter to it. -/
theorem numberAt_congr {a b : ByteArray} {i j width : Nat}
    (h : ∀ k < width, byteAt a (i + k) = byteAt b (j + k)) :
    numberAt a i width = numberAt b j width := by
  induction width generalizing i j with
  | zero => rfl
  | succ w ih =>
    have hfirst := h 0 (Nat.succ_pos w)
    have hrest : numberAt a (i + 1) w = numberAt b (j + 1) w := by
      apply ih
      intro k hk
      have := h (k + 1) (by omega)
      rwa [show i + (k + 1) = i + 1 + k by omega, show j + (k + 1) = j + 1 + k by omega] at this
    rw [numberAt, numberAt, hrest]
    simp only [Nat.add_zero] at hfirst
    rw [hfirst]

/-- A number is below the powers of its width. -/
theorem numberAt_lt (b : ByteArray) (start width : Nat) : numberAt b start width < 256 ^ width := by
  induction width generalizing start with
  | zero => exact Nat.one_pos
  | succ w ih =>
    have hfirst := (byteAt b start).toNat_lt
    have hrest := ih (start + 1)
    rw [numberAt, Nat.pow_succ']
    omega

/-- A string that grew at its end keeps its numbers. -/
theorem numberAt_append_left {a b : ByteArray} {start width : Nat} (h : start + width ≤ a.size) :
    numberAt (a ++ b) start width = numberAt a start width := by
  apply numberAt_congr
  intro k hk
  exact byteAt_append_left (by omega)

/-- A number that was added reads as what remains of it in its width. -/
theorem numberAt_pushNumber (out : ByteArray) (width n : Nat) :
    numberAt (pushNumber out width n) out.size width = n % 256 ^ width := by
  induction width generalizing out n with
  | zero => simp [numberAt, Nat.mod_one]
  | succ w ih =>
    have hrest := ih (out.push (n % 256).toUInt8) (n / 256)
    rw [ByteArray.size_push] at hrest
    have hfirst : byteAt (pushNumber (out.push (n % 256).toUInt8) w (n / 256)) out.size =
        (n % 256).toUInt8 := by
      rw [byteAt_pushNumber_of_lt (by rw [ByteArray.size_push]; omega), byteAt_push, if_pos rfl]
    rw [pushNumber, numberAt, hrest, hfirst, Nat.pow_succ', Nat.mod_mul]
    congr 1
    exact UInt8.toNat_ofNat_of_lt' (Nat.mod_lt n (by decide))

/-- Numbers that were added before are kept. -/
theorem numberAt_pushNumber_of_le {out : ByteArray} {width n start w : Nat}
    (h : start + w ≤ out.size) : numberAt (pushNumber out width n) start w = numberAt out start w := by
  rw [pushNumber_eq, numberAt_append_left h]

/-- A number that was read is written as the bytes that it was read from. -/
theorem numberBytes_numberAt {b : ByteArray} {start width : Nat} (h : start + width ≤ b.size) :
    numberBytes width (numberAt b start width) = slice b start width := by
  induction width generalizing start with
  | zero =>
    apply eq_of_byteAt
    · rw [size_numberBytes, size_slice_of_le h]
    · intro i hi
      rw [size_numberBytes] at hi
      omega
  | succ w ih =>
    have hfirst : ByteArray.empty.push (numberAt b start (w + 1) % 256).toUInt8 = slice b start 1 := by
      apply eq_of_byteAt
      · rw [size_slice_of_le (by omega)]
        rfl
      · intro i hi
        obtain rfl : i = 0 := Nat.lt_one_iff.mp hi
        have hbyte := (byteAt b start).toNat_lt
        rw [byteAt_slice Nat.one_pos, Nat.add_zero, byteAt_push, if_pos ByteArray.size_empty.symm,
          numberAt, Nat.add_mul_mod_self_left, Nat.mod_eq_of_lt hbyte]
        exact UInt8.ofNat_toNat
    have hrest : numberAt b start (w + 1) / 256 = numberAt b (start + 1) w := by
      have hbyte := (byteAt b start).toNat_lt
      rw [numberAt]
      omega
    rw [numberBytes, pushNumber, pushNumber_eq, hfirst, hrest, ih (by omega), slice_add]
    congr 1
    omega

/-- A number that stands between others is read there, as far as its width reaches. -/
theorem numberAt_middle (before after : ByteArray) (width n : Nat) :
    numberAt (before ++ numberBytes width n ++ after) before.size width = n % 256 ^ width := by
  rw [numberAt_append_left (by simp), ← pushNumber_eq, numberAt_pushNumber]

theorem numberAt_numberBytes (before after : ByteArray) {width n : Nat} (hn : n < 256 ^ width) :
    numberAt (before ++ numberBytes width n ++ after) before.size width = n := by
  rw [numberAt_middle, Nat.mod_eq_of_lt hn]

/-- What does not fit a number's width leaves no trace in its bytes. -/
theorem numberBytes_mod (width n : Nat) : numberBytes width (n % 256 ^ width) = numberBytes width n := by
  have hread := numberAt_pushNumber ByteArray.empty width n
  rw [ByteArray.size_empty] at hread
  have hwhole := slice_all (numberBytes width n)
  rw [size_numberBytes] at hwhole
  rw [← hread]
  exact (numberBytes_numberAt (by simp)).trans hwhole

/-! ## Words as numbers -/

theorem toNat_toUInt32 {n : Nat} (h : n < 2 ^ 32) : n.toUInt32.toNat = n :=
  UInt32.toNat_ofNat_of_lt' h

theorem toNat_toUInt64 {n : Nat} (h : n < 2 ^ 64) : n.toUInt64.toNat = n :=
  UInt64.toNat_ofNat_of_lt' h

theorem toUInt16_mod (w : UInt16) : (w.toNat % 256 ^ 2).toUInt16 = w := by
  rw [show w.toNat % 256 ^ 2 = w.toNat from Nat.mod_eq_of_lt w.toNat_lt]
  exact UInt16.ofNat_toNat

theorem toUInt32_mod (w : UInt32) : (w.toNat % 256 ^ 4).toUInt32 = w := by
  rw [show w.toNat % 256 ^ 4 = w.toNat from Nat.mod_eq_of_lt w.toNat_lt]
  exact UInt32.ofNat_toNat

theorem toUInt64_mod (w : UInt64) : (w.toNat % 256 ^ 8).toUInt64 = w := by
  rw [show w.toNat % 256 ^ 8 = w.toNat from Nat.mod_eq_of_lt w.toNat_lt]
  exact UInt64.ofNat_toNat

/-! ## Rows of numbers -/

/-- Add numbers of given widths, one behind the other. -/
def pushFields (out : ByteArray) : (fields : List (Nat × Nat)) → ByteArray
  | [] => out
  | (width, n) :: rest => pushFields (pushNumber out width n) rest

/-- Where a field starts. -/
def fieldStart : (fields : List (Nat × Nat)) → (i : Nat) → Nat
  | (width, _) :: rest, i + 1 => width + fieldStart rest i
  | _, _ => 0

theorem numberAt_pushFields_of_le {out : ByteArray} {fields : List (Nat × Nat)} {start width : Nat}
    (h : start + width ≤ out.size) :
    numberAt (pushFields out fields) start width = numberAt out start width := by
  induction fields generalizing out with
  | nil => rfl
  | cons field rest ih =>
    obtain ⟨w, n⟩ := field
    rw [pushFields, ih (by rw [size_pushNumber]; omega), numberAt_pushNumber_of_le h]

/-- A field reads as what was put into it, as far as its width reaches. -/
theorem numberAt_pushFields {fields : List (Nat × Nat)} {i width n : Nat}
    (h : fields[i]? = some (width, n)) (out : ByteArray) :
    numberAt (pushFields out fields) (out.size + fieldStart fields i) width = n % 256 ^ width := by
  induction fields generalizing out i with
  | nil => cases h
  | cons field rest ih =>
    obtain ⟨w, m⟩ := field
    cases i with
    | zero =>
      obtain ⟨rfl, rfl⟩ := Prod.mk.inj (Option.some.inj h)
      rw [pushFields, numberAt_pushFields_of_le (by simp [fieldStart])]
      exact numberAt_pushNumber out w m
    | succ i =>
      have := ih (i := i) h (pushNumber out w m)
      rwa [size_pushNumber, Nat.add_assoc] at this

end DedupImage
