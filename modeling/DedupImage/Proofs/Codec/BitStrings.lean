import DedupImage.Codec.Bits
import DedupImage.Proofs.Bytes
import Mathlib.Tactic.Ring

/-!
# Bits that a byte string holds

A writer of a bit stream makes a list of bits, a reader looks at bits of a byte string from a position on.
`Bits.Holds` says that the byte string holds the list there, and every law about reading what was written
has it as a premise. The bits of a list are held where `pushBits` adds them (`Bits.holds_pushBits`), and a
number is read as it was written (`Bits.Holds.readNumber`).
-/

namespace DedupImage.Bits

variable {src : ByteArray} {pos n v i : Nat} {bits : List Bool}

/-! ## Single bits -/

/-- Bits are numbered within a byte as within a number. -/
theorem bit?_eq_testBit (h : pos < total src) :
    bit? src pos = some ((byteAt src (pos / 8)).toNat.testBit (pos % 8)) := by
  have hlow : pos % 8 < 8 := Nat.mod_lt _ (by decide)
  have hshift : ((pos % 8).toUInt8 : UInt8).toNat % 8 = pos % 8 := by
    rw [Nat.toUInt8, UInt8.toNat_ofNat_of_lt' (by change _ < 256; omega)]
    omega
  have hbit : ∀ b : UInt8, ((b >>> (pos % 8).toUInt8) &&& 1 == 1) = b.toNat.testBit (pos % 8) := by
    intro b
    rw [Bool.eq_iff_iff, beq_iff_eq, ← UInt8.toNat_inj, UInt8.toNat_and, UInt8.toNat_shiftRight, hshift,
      Nat.testBit_eq_decide_div_mod_eq, decide_eq_true_eq, Nat.shiftRight_eq_div_pow]
    change _ &&& 1 = 1 ↔ _
    rw [Nat.and_one_is_mod]
  unfold bit?
  rw [if_pos h, hbit]

theorem bit?_append {b : Bool} (h : bit? src pos = some b) (tail : ByteArray) :
    bit? (src ++ tail) pos = some b := by
  have hpos : pos < total src := bit?_eq_some h
  have hbyte : pos / 8 < src.size := Nat.div_lt_of_lt_mul hpos
  have hlonger : pos < total (src ++ tail) := by
    rw [total, ByteArray.size_append, Nat.mul_add]
    exact Nat.lt_add_right _ hpos
  rw [← h]
  unfold bit?
  rw [if_pos hlonger, if_pos hpos, byteAt_append_left hbyte]

/-- Bits move with the bytes that hold them. -/
theorem bit?_append_right (before : ByteArray) (h : pos < total src) :
    bit? (before ++ src) (8 * before.size + pos) = bit? src pos := by
  have hlonger : 8 * before.size + pos < total (before ++ src) := by
    rw [total, ByteArray.size_append, Nat.mul_add]
    exact Nat.add_lt_add_left h _
  rw [bit?_eq_testBit hlonger, bit?_eq_testBit h, Nat.mul_add_mod, Nat.mul_add_div (by decide),
    byteAt_append, if_neg (Nat.not_lt.mpr (Nat.le_add_right _ _)), Nat.add_sub_cancel_left]

/-! ## Lists of bits -/

/-- Whether a byte string holds these bits from a position on. -/
def Holds (src : ByteArray) : (pos : Nat) → List Bool → Prop
  | _, [] => True
  | pos, b :: bits => bit? src pos = some b ∧ Holds src (pos + 1) bits

theorem holds_append {front back : List Bool} :
    Holds src pos (front ++ back) ↔ Holds src pos front ∧ Holds src (pos + front.length) back := by
  induction front generalizing pos with
  | nil => simp [Holds]
  | cons b front ih =>
    rw [List.cons_append, Holds, Holds, ih, and_assoc, List.length_cons,
      show pos + 1 + front.length = pos + (front.length + 1) by omega]

namespace Holds

theorem left {front back : List Bool} (h : Holds src pos (front ++ back)) : Holds src pos front :=
  (holds_append.mp h).1

theorem right {front back : List Bool} (h : Holds src pos (front ++ back)) :
    Holds src (pos + front.length) back :=
  (holds_append.mp h).2

theorem bit (h : Holds src pos bits) (hi : i < bits.length) : bit? src (pos + i) = some bits[i] := by
  induction bits generalizing pos i with
  | nil => cases hi
  | cons b bits ih =>
    cases i with
    | zero => exact h.1
    | succ i =>
      have hbit := ih h.2 (Nat.lt_of_succ_lt_succ hi)
      rwa [Nat.add_assoc, Nat.add_comm 1 i] at hbit

/-- All bits are there. -/
theorem le_total (h : Holds src pos bits) (hsome : bits ≠ []) : pos + bits.length ≤ total src := by
  have hpos : 0 < bits.length := List.length_pos_iff.mpr hsome
  have hlast := bit?_eq_some (h.bit (i := bits.length - 1) (by omega))
  omega

theorem append (h : Holds src pos bits) (tail : ByteArray) : Holds (src ++ tail) pos bits := by
  induction bits generalizing pos with
  | nil => trivial
  | cons b bits ih => exact ⟨bit?_append h.1 tail, ih h.2⟩

theorem append_right (before : ByteArray) (h : Holds src pos bits) :
    Holds (before ++ src) (8 * before.size + pos) bits := by
  induction bits generalizing pos with
  | nil => trivial
  | cons b bits ih =>
    refine ⟨?_, ih h.2⟩
    rw [bit?_append_right before (bit?_eq_some h.1)]
    exact h.1

end Holds

theorem holds_of_bit (h : ∀ i (hi : i < bits.length), bit? src (pos + i) = some bits[i]) :
    Holds src pos bits := by
  induction bits generalizing pos with
  | nil => trivial
  | cons b bits ih =>
    refine ⟨h 0 (Nat.succ_pos _), ih fun i hi => ?_⟩
    have hbit := h (i + 1) (Nat.succ_lt_succ hi)
    rwa [show pos + (i + 1) = pos + 1 + i by omega] at hbit

/-! ## Numbers -/

@[simp] theorem length_numberBits (n v : Nat) : (numberBits n v).length = n := by
  induction n generalizing v with
  | zero => rfl
  | succ n ih => rw [numberBits, List.length_cons, ih]

theorem getElem_numberBits (hi : i < (numberBits n v).length) : (numberBits n v)[i] = v.testBit i := by
  induction n generalizing v i with
  | zero => cases hi
  | succ n ih =>
    cases i with
    | zero =>
      rw [Nat.testBit_zero]
      exact Bool.beq_eq_decide_eq (v % 2) 1
    | succ i =>
      rw [Nat.testBit_succ]
      exact ih (Nat.lt_of_succ_lt_succ hi)

theorem testBit_toNumber (bits : List Bool) (i : Nat) :
    (toNumber bits).testBit i = bits.getD i false := by
  induction bits generalizing i with
  | nil => exact Nat.zero_testBit i
  | cons b bits ih =>
    have hrest : (b.toNat + 2 * toNumber bits) / 2 = toNumber bits := by
      have := b.toNat_lt
      omega
    cases i with
    | zero => cases b <;> simp [toNumber, Nat.testBit_zero]
    | succ i => rw [toNumber, Nat.testBit_succ, hrest, ih, List.getD_cons_succ]

/-- A number is as great as its bits allow. -/
theorem toNumber_lt (bits : List Bool) : toNumber bits < 2 ^ bits.length := by
  induction bits with
  | nil => decide
  | cons b bits ih =>
    have := b.toNat_lt
    rw [toNumber, List.length_cons, Nat.pow_succ]
    omega

/-- A number that was written is read. -/
theorem Holds.readNumber (h : Holds src pos (numberBits n v)) (hv : v < 2 ^ n) :
    readNumber src pos n = .ok (v, pos + n) := by
  induction n generalizing pos v with
  | zero =>
    obtain rfl : v = 0 := by omega
    rfl
  | succ n ih =>
    rw [Nat.pow_succ] at hv
    have hrest := ih h.2 (by omega)
    have hfirst : (v % 2 == 1).toNat + 2 * (v / 2) = v := by
      rcases Nat.mod_two_eq_zero_or_one v with hbit | hbit <;> simp [hbit] <;> omega
    rw [Bits.readNumber, h.1]
    simp only [hrest, hfirst]
    rw [Nat.add_assoc, Nat.add_comm 1 n]

theorem numberBits_add (m n v : Nat) : numberBits (m + n) v = numberBits m v ++ numberBits n (v / 2 ^ m) := by
  induction m generalizing v with
  | zero => rw [Nat.zero_add, Nat.pow_zero, Nat.div_one, numberBits, List.nil_append]
  | succ m ih =>
    rw [show m + 1 + n = m + n + 1 by omega, numberBits, numberBits, ih, Nat.div_div_eq_div_mul, Nat.pow_succ',
      List.cons_append]

/-- A byte is known by its bits. -/
theorem Holds.byteAt (h : Holds src (8 * i) (numberBits 8 v)) :
    i < src.size ∧ (byteAt src i).toNat = v % 256 := by
  have hsize : i < src.size := by
    have hlast := h.le_total (by simp [numberBits])
    rw [length_numberBits, total] at hlast
    omega
  refine ⟨hsize, Nat.eq_of_testBit_eq fun k => ?_⟩
  rw [show 256 = 2 ^ 8 from rfl, Nat.testBit_mod_two_pow]
  rcases Nat.lt_or_ge k 8 with hk | hk
  · have hbit := h.bit (i := k) (by rwa [length_numberBits])
    rw [bit?_eq_testBit (by unfold total; omega), Nat.mul_add_mod, Nat.mod_eq_of_lt hk,
      Nat.mul_add_div (by decide), Nat.div_eq_of_lt hk, Nat.add_zero, getElem_numberBits] at hbit
    rw [Option.some.inj hbit, decide_eq_true hk, Bool.true_and]
  · have hpow : 2 ^ 8 ≤ 2 ^ k := Nat.pow_le_pow_right (by decide) hk
    have hbyte := (DedupImage.byteAt src i).toNat_lt
    rw [Nat.testBit_lt_two_pow (by omega), decide_eq_false (by omega), Bool.false_and]

/-- Whole bytes spell a number lowest bit first as they do lowest byte first. -/
theorem Holds.numberAt {w : Nat} (h : Holds src (8 * i) (numberBits (8 * w) v)) (hv : v < 256 ^ w) :
    numberAt src i w = v := by
  induction w generalizing i v with
  | zero =>
    obtain rfl : v = 0 := by omega
    rfl
  | succ w ih =>
    rw [show 8 * (w + 1) = 8 + 8 * w by omega, numberBits_add] at h
    have hrest := h.right
    rw [length_numberBits, show 8 * i + 8 = 8 * (i + 1) by omega] at hrest
    rw [Nat.pow_succ'] at hv
    rw [DedupImage.numberAt, h.left.byteAt.2, ih hrest (Nat.div_lt_of_lt_mul hv)]
    exact Nat.mod_add_div v 256

@[simp] theorem length_ofBytes (b : ByteArray) : (ofBytes b).length = 8 * b.size := by
  have hlength : ∀ bs : List UInt8, (bs.flatMap fun byte => numberBits 8 byte.toNat).length = 8 * bs.length := by
    intro bs
    induction bs with
    | nil => rfl
    | cons byte bs ih =>
      rw [List.flatMap_cons, List.length_append, ih, length_numberBits, List.length_cons]
      omega
  exact hlength b.data.toList

/-- Bytes are known by their bits. -/
theorem Holds.bytes {bs : List UInt8} (h : Holds src (8 * i) (bs.flatMap fun b => numberBits 8 b.toNat)) {k : Nat}
    (hk : k < bs.length) : i + k < src.size ∧ DedupImage.byteAt src (i + k) = bs[k] := by
  induction bs generalizing i k with
  | nil => cases hk
  | cons b bs ih =>
    rw [List.flatMap_cons] at h
    cases k with
    | zero =>
      obtain ⟨hinside, hvalue⟩ := h.left.byteAt
      rw [Nat.mod_eq_of_lt b.toNat_lt, UInt8.toNat_inj] at hvalue
      exact ⟨hinside, hvalue⟩
    | succ k =>
      have hrest := h.right
      rw [length_numberBits, show 8 * i + 8 = 8 * (i + 1) by omega] at hrest
      rw [show i + (k + 1) = i + 1 + k by omega]
      exact ih hrest (Nat.lt_of_succ_lt_succ hk)

/-- The bits of a byte string are held where the string stands. -/
theorem Holds.slice {data : ByteArray} (h : Holds src (8 * i) (ofBytes data)) :
    slice src i data.size = data ∧ (0 < data.size → i + data.size ≤ src.size) := by
  have hbytes : ∀ k < data.size,
      i + k < src.size ∧ DedupImage.byteAt src (i + k) = DedupImage.byteAt data k := by
    intro k hk
    rw [byteAt_of_lt hk]
    exact h.bytes hk
  have hinside : 0 < data.size → i + data.size ≤ src.size := fun hpos => by
    have := (hbytes (data.size - 1) (by omega)).1
    omega
  have hsize : (DedupImage.slice src i data.size).size = data.size := by
    rw [size_slice]
    omega
  refine ⟨eq_of_byteAt hsize fun k hk => ?_, hinside⟩
  rw [hsize] at hk
  rw [byteAt_slice hk, (hbytes k hk).2]

/-! ## Bits as bytes -/

/-- A byte made of bits has them. -/
theorem holds_push (out : ByteArray) (hbits : bits.length ≤ 8) :
    Holds (out.push (toNumber bits).toUInt8) (8 * out.size) bits := by
  have hbyte : ((toNumber bits).toUInt8).toNat = toNumber bits := by
    have hlt := toNumber_lt bits
    have hpow : 2 ^ bits.length ≤ 2 ^ 8 := Nat.pow_le_pow_right (by decide) hbits
    exact UInt8.toNat_ofNat_of_lt' (by change _ < 256; omega)
  apply holds_of_bit
  intro i hi
  have hinside : 8 * out.size + i < total (out.push (toNumber bits).toUInt8) := by
    rw [total, ByteArray.size_push]
    omega
  rw [bit?_eq_testBit hinside, Nat.mul_add_mod, Nat.mod_eq_of_lt (by omega), Nat.mul_add_div (by decide),
    Nat.div_eq_of_lt (by omega), Nat.add_zero, byteAt_push, if_pos rfl, hbyte, testBit_toNumber,
    List.getD_eq_getElem?_getD, List.getElem?_eq_getElem hi, Option.getD_some]

/-- Bits are added behind what is there. -/
theorem pushBits_append (before out : ByteArray) (bits : List Bool) :
    pushBits (before ++ out) bits = before ++ pushBits out bits := by
  fun_induction pushBits out bits with
  | case1 out => rw [pushBits, dif_pos rfl]
  | case2 out bits hsome ih =>
    rw [← ih, pushBits, dif_neg hsome, push_eq_append, push_eq_append out, ByteArray.append_assoc]

theorem pushBits_eq (out : ByteArray) (bits : List Bool) :
    pushBits out bits = out ++ pushBits ByteArray.empty bits := by
  rw [← pushBits_append, ByteArray.append_empty]

/-- **Bits are held where they were added.** -/
theorem holds_pushBits (out : ByteArray) (bits : List Bool) :
    Holds (pushBits out bits) (8 * out.size) bits := by
  fun_induction pushBits out bits with
  | case1 out => trivial
  | case2 out bits hsome ih =>
    have hfront := (holds_push out (List.length_take_le 8 bits)).append
      (pushBits ByteArray.empty (bits.drop 8))
    rw [← pushBits_eq] at hfront
    rw [ByteArray.size_push, Nat.mul_add] at ih
    rw [← List.take_append_drop 8 bits, holds_append]
    simp only [List.take_append_drop]
    refine ⟨hfront, ?_⟩
    rcases Nat.lt_or_ge bits.length 8 with hshort | hlong
    · rw [List.drop_eq_nil_of_le (Nat.le_of_lt hshort)]
      trivial
    · rwa [List.length_take_of_le hlong]

/-- Bits take up whole bytes. -/
theorem size_pushBits (out : ByteArray) (bits : List Bool) :
    (pushBits out bits).size = out.size + byteAfter bits.length := by
  fun_induction pushBits out bits with
  | case1 out => rfl
  | case2 out bits hsome ih =>
    have hpos : 0 < bits.length := List.length_pos_iff.mpr hsome
    rw [ih, ByteArray.size_push, List.length_drop]
    unfold byteAfter
    omega

/-! ## Bits from the end -/

theorem toNumber_append (front back : List Bool) :
    toNumber (front ++ back) = toNumber front + 2 ^ front.length * toNumber back := by
  induction front with
  | nil => simp [toNumber]
  | cons b front ih =>
    rw [List.cons_append, toNumber, toNumber, ih, List.length_cons, Nat.pow_succ']
    ring

/-- The bits of a number are those that it was made of, and zero bits. -/
theorem numberBits_toNumber (bits : List Bool) (k : Nat) :
    numberBits (bits.length + k) (toNumber bits) = bits ++ List.replicate k false := by
  induction bits with
  | nil =>
    rw [List.length_nil, Nat.zero_add]
    induction k with
    | zero => rfl
    | succ k ih => exact congrArg (false :: ·) ih
  | cons b bits ih =>
    have hbit : ((b.toNat + 2 * toNumber bits) % 2 == 1) = b := by cases b <;> simp
    have hrest : (b.toNat + 2 * toNumber bits) / 2 = toNumber bits := by
      have := b.toNat_lt
      omega
    rw [List.length_cons, Nat.add_right_comm, numberBits, toNumber, hbit, hrest, ih, List.cons_append]

theorem ofBytes_push (out : ByteArray) (byte : UInt8) :
    ofBytes (out.push byte) = ofBytes out ++ numberBits 8 byte.toNat := by
  simp [ofBytes]

/-- The bits of whole bytes are those that were added, and zero bits up to the end of a byte. -/
theorem ofBytes_pushBits (out : ByteArray) (bits : List Bool) :
    ∃ k < 8, ofBytes (pushBits out bits) = ofBytes out ++ (bits ++ List.replicate k false) := by
  fun_induction pushBits out bits with
  | case1 out => exact ⟨0, by decide, by simp⟩
  | case2 out bits hsome ih =>
    have hbyte : ((toNumber (bits.take 8)).toUInt8).toNat = toNumber (bits.take 8) := by
      have hlt := toNumber_lt (bits.take 8)
      have hpow : 2 ^ (bits.take 8).length ≤ 2 ^ 8 :=
        Nat.pow_le_pow_right (by decide) (List.length_take_le 8 bits)
      exact UInt8.toNat_ofNat_of_lt' (by change _ < 256; omega)
    have hpositive : 0 < bits.length := List.length_pos_iff.mpr hsome
    have hpad := numberBits_toNumber (bits.take 8) (8 - (bits.take 8).length)
    rw [Nat.add_sub_cancel' (List.length_take_le 8 bits)] at hpad
    rcases Nat.lt_or_ge bits.length 8 with hshort | hlong
    · rw [List.take_of_length_le (Nat.le_of_lt hshort)] at hbyte hpad ⊢
      rw [List.drop_eq_nil_of_le (Nat.le_of_lt hshort), pushBits, dif_pos rfl, ofBytes_push, hbyte, hpad]
      exact ⟨8 - bits.length, by omega, rfl⟩
    · obtain ⟨k, hk, hrest⟩ := ih
      rw [List.length_take_of_le hlong, Nat.sub_self, List.replicate_zero, List.append_nil] at hpad
      refine ⟨k, hk, ?_⟩
      rw [hrest, ofBytes_push, hbyte, hpad, List.append_assoc, ← List.append_assoc (bits.take 8),
        List.take_append_drop]

/-- **Bits that were added are read from the end**, if a one bit ends them. -/
theorem backward?_pushBits (bits : List Bool) :
    backward? (pushBits ByteArray.empty (bits.reverse ++ [true])) = some bits := by
  obtain ⟨k, hk, hbits⟩ := ofBytes_pushBits ByteArray.empty (bits.reverse ++ [true])
  rw [show ofBytes ByteArray.empty = [] from rfl, List.nil_append] at hbits
  have hsize := congrArg List.length hbits
  rw [length_ofBytes, List.length_append, List.length_append, List.length_reverse, List.length_singleton,
    List.length_replicate] at hsize
  have hdrop : ∀ n, (List.replicate n false ++ true :: bits).dropWhile (! ·) = true :: bits := by
    intro n
    induction n with
    | zero => rfl
    | succ n ih => exact ih
  rw [backward?, hbits, List.reverse_append, List.reverse_append, List.reverse_reverse, List.reverse_replicate]
  rw [List.reverse_singleton, List.singleton_append, hdrop]
  dsimp only
  rw [if_pos (by omega)]

/-- A number is known by its bits. -/
theorem toNumber_numberBits (hv : v < 2 ^ n) : toNumber (numberBits n v) = v := by
  induction n generalizing v with
  | zero =>
    obtain rfl : v = 0 := by omega
    rfl
  | succ n ih =>
    rw [Nat.pow_succ'] at hv
    have hbit : (v % 2 == 1).toNat = v % 2 := by
      rcases Nat.mod_two_eq_zero_or_one v with h | h <;> rw [h] <;> rfl
    rw [numberBits, toNumber, ih (by omega), hbit]
    omega

theorem take?_append (high : Nat) (front rest : List Bool) :
    take? front.length high (front ++ rest) = some (high * 2 ^ front.length + toNumber front.reverse, rest) := by
  induction front generalizing high with
  | nil => simp [take?, toNumber]
  | cons b front ih =>
    rw [List.length_cons, List.cons_append, take?, ih, List.reverse_cons, toNumber_append, List.length_reverse,
      Nat.pow_succ']
    simp only [toNumber, Option.some.injEq, Prod.mk.injEq, and_true]
    ring

/-- **A number that was written highest bit first is taken.** -/
theorem take?_numberBits (hv : v < 2 ^ n) (rest : List Bool) :
    take? n 0 ((numberBits n v).reverse ++ rest) = some (v, rest) := by
  have h := take?_append 0 (numberBits n v).reverse rest
  rwa [List.length_reverse, length_numberBits, List.reverse_reverse, toNumber_numberBits hv, Nat.zero_mul,
    Nat.zero_add] at h

end DedupImage.Bits
