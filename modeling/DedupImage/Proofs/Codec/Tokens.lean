import DedupImage.Codec.Block
import DedupImage.Codec.Inflate
import DedupImage.Proofs.Codec.CodeTrees

/-!
# Tokens come back

A token is written as the words of its symbols and extra bits, and read as it was written
(`Token.read_bits`), if its symbols have words (`Token.Worded`). The class of a value and its extra bits give
the value again, because the classes leave no gaps (`Token.classOf_spec`).

A text is spelled by tokens if each of them produces the bytes that come next (`Token.Spelled`). A reader that
has produced the text up to a position and reads such tokens has produced it up to a later position
(`Inflate.codedBlock_tokenBits`).
-/

namespace DedupImage

variable {src text : ByteArray} {pos stop room bit : Nat} {symbols distances : CodeTree}

namespace Token

/-! ## Classes -/

/-- The base and the number of extra bits of a class. -/
def classAt (classes : Array (Nat × Nat)) (c : Nat) : Nat × Nat := classes.toList.getD c (0, 0)

/-- Whether every class goes on to the base of the next one, and the last one to `limit`. -/
def Gapless (classes : Array (Nat × Nat)) (limit : Nat) : Prop :=
  ∀ c < classes.toList.length,
    (classes.toList.getD (c + 1) (limit, 0)).1 ≤ (classAt classes c).1 + 2 ^ (classAt classes c).2

instance (classes : Array (Nat × Nat)) (limit : Nat) : Decidable (Gapless classes limit) :=
  inferInstanceAs (Decidable (∀ c < classes.toList.length, _))

theorem size_lengthClasses : lengthClasses.size = 29 := rfl

theorem size_distanceClasses : distanceClasses.size = distanceCount := rfl

theorem gapless_lengthClasses : Gapless lengthClasses (longestCopy + 1) := by decide

theorem gapless_distanceClasses : Gapless distanceClasses (window + 1) := by decide

/-- **A value is in its class.** -/
theorem classOf_spec {classes : Array (Nat × Nat)} {limit value : Nat} (hgapless : Gapless classes limit)
    (hsome : 0 < classes.size) (hfirst : (classAt classes 0).1 ≤ value) (hlimit : value < limit) :
    classOf classes value < classes.size ∧ (classAt classes (classOf classes value)).1 ≤ value ∧
      value < (classAt classes (classOf classes value)).1 + 2 ^ (classAt classes (classOf classes value)).2 := by
  have hget : ∀ c (hc : c < classes.size), classAt classes c = classes[c] := by
    intro c hc
    rw [classAt, List.getD_eq_getElem?_getD, Array.getElem?_toList, Array.getElem?_eq_getElem hc,
      Option.getD_some]
  unfold Gapless at hgapless
  simp only [Array.length_toList, List.getD_eq_getElem?_getD, Array.getElem?_toList] at hgapless
  unfold classOf
  cases hfind : classes.findIdx? fun c => decide (value < c.1) with
  | none =>
    rw [Array.findIdx?_eq_none_iff] at hfind
    have hlast : classes.size - 1 < classes.size := by omega
    have hall := hfind _ (Array.getElem_mem hlast)
    rw [← hget _ hlast, decide_eq_false_iff_not] at hall
    have hnext := hgapless _ hlast
    rw [Array.getElem?_eq_none (by omega)] at hnext
    dsimp only [Option.getD] at hnext ⊢
    omega
  | some i =>
    obtain ⟨hi, habove, hbelow⟩ := Array.findIdx?_eq_some_iff_getElem.mp hfind
    rw [decide_eq_true_eq] at habove
    -- the first class does not lie above the value
    obtain ⟨c, rfl⟩ : ∃ c, i = c + 1 := by
      refine ⟨i - 1, ?_⟩
      rcases Nat.eq_zero_or_pos i with rfl | hpos
      · rw [hget 0 hi] at hfirst
        omega
      · omega
    have hc : c < classes.size := by omega
    have hbase := hbelow c (Nat.lt_succ_self c)
    rw [Bool.not_eq_true, decide_eq_false_iff_not, ← hget c hc] at hbase
    have hnext := hgapless c hc
    rw [Array.getElem?_eq_getElem hi, Option.getD_some] at hnext
    dsimp only [Option.getD_some]
    rw [Nat.add_sub_cancel]
    omega

/-- **The extra bits of a value give it again.** -/
theorem readValue_extra {classes : Array (Nat × Nat)} {limit value : Nat} (hgapless : Gapless classes limit)
    (hsome : 0 < classes.size) (hfirst : (classAt classes 0).1 ≤ value) (hlimit : value < limit)
    (h : Bits.Holds src pos (extra classes value)) :
    readValue classes src (classOf classes value) pos = .ok (value, pos + (extra classes value).length) := by
  obtain ⟨hclass, hbase, hwidth⟩ := classOf_spec hgapless hsome hfirst hlimit
  have hget : classes[classOf classes value]? = some (classAt classes (classOf classes value)) := by
    rw [classAt, List.getD_eq_getElem?_getD, Array.getElem?_toList, Array.getElem?_eq_getElem hclass]
    rfl
  have hextra : extra classes value =
      Bits.numberBits (classAt classes (classOf classes value)).2
        (value - (classAt classes (classOf classes value)).1) := by
    rw [extra, Array.getD_eq_getD_getElem?, hget]
    rfl
  rw [hextra] at h ⊢
  rw [readValue, hget]
  dsimp only
  rw [h.readNumber (by omega), Bits.length_numberBits]
  dsimp only
  rw [Nat.add_sub_cancel' hbase]

/-! ## Reading a token -/

/-- Whether a token is one that a stream can hold. -/
def Valid : Token → Prop
  | literal _ => True
  | copy length distance =>
    (shortestCopy ≤ length ∧ length ≤ longestCopy) ∧ 0 < distance ∧ distance ≤ window

/-- Whether the symbols of a token have words. -/
def Worded (symbols distances : CodeTree) (t : Token) : Prop :=
  symbols.HasWord t.symbol ∧ ∀ d, t.distanceSymbol? = some d → distances.HasWord d

theorem symbol_copy (length distance : Nat) :
    (copy length distance).symbol = 257 + classOf lengthClasses length := rfl

theorem symbol_lt {t : Token} (h : t.Valid) : t.symbol < symbolCount := by
  cases t with
  | literal byte =>
    have := byte.toNat_lt
    change byte.toNat < 286
    omega
  | copy length distance =>
    obtain ⟨⟨hshort, hlong⟩, -⟩ := h
    have hclass := (classOf_spec gapless_lengthClasses (by decide) hshort (Nat.lt_succ_of_le hlong)).1
    rw [size_lengthClasses] at hclass
    rw [symbol_copy, symbolCount]
    omega

theorem distanceSymbol_lt {t : Token} (h : t.Valid) {d : Nat} (hd : t.distanceSymbol? = some d) :
    d < distanceCount := by
  cases t with
  | literal byte => cases hd
  | copy length distance =>
    obtain ⟨-, hpos, hwindow⟩ := h
    obtain rfl := Option.some.inj hd
    rw [← size_distanceClasses]
    exact (classOf_spec gapless_distanceClasses (by decide) hpos (Nat.lt_succ_of_le hwindow)).1

/-- The word of a symbol, from the table of words. -/
theorem words_of_hasWord {t : CodeTree} {n s : Nat} (h : t.HasWord s) (hs : s < n) :
    t.word? s = some ((t.words n).getD s []) ∧ (t.words n).getD s [] ≠ [] := by
  obtain ⟨w, hw, hsome⟩ := h
  rw [CodeTree.getD_words t hs, hw]
  exact ⟨rfl, hsome⟩

/-- A copy is read in four steps. -/
theorem read_copy {s d length distance second third fourth : Nat}
    (hsymbol : symbols.readSymbol src pos = .ok (s, second)) (habove : endSymbol < s)
    (hlength : readValue lengthClasses src (s - firstLengthSymbol) second = .ok (length, third))
    (hdistance : distances.readSymbol src third = .ok (d, fourth))
    (hback : readValue distanceClasses src d fourth = .ok (distance, stop)) :
    read src symbols distances pos = .ok (some (copy length distance), stop) := by
  unfold read
  rw [hsymbol]
  dsimp only
  rw [if_neg (Nat.lt_asymm habove), if_neg (Nat.ne_of_gt habove), hlength]
  dsimp only
  rw [hdistance]
  dsimp only
  rw [hback]

/-- **A token that was written is read.** -/
theorem read_bits {t : Token} (hvalid : t.Valid) (hwords : t.Worded symbols distances)
    (h : Bits.Holds src pos (t.bits (symbols.words 288) (distances.words 32))) :
    read src symbols distances pos =
      .ok (some t, pos + (t.bits (symbols.words 288) (distances.words 32)).length) := by
  have hcount : symbolCount < 288 := by decide
  obtain ⟨hword, hsome⟩ := words_of_hasWord hwords.1 (Nat.lt_trans (symbol_lt hvalid) hcount)
  cases t with
  | literal byte =>
    have hbyte : (literal byte).symbol < endSymbol := byte.toNat_lt
    have hback : (literal byte).symbol.toUInt8 = byte := UInt8.ofNat_toNat
    rw [bits] at h ⊢
    unfold read
    rw [CodeTree.readSymbol_word hword hsome h]
    dsimp only
    rw [if_pos hbyte, hback]
  | copy length distance =>
    have hdistance : classOf distanceClasses distance < 32 :=
      Nat.lt_trans (distanceSymbol_lt hvalid rfl) (by decide)
    obtain ⟨⟨hshort, hlong⟩, hpos, hwindow⟩ := hvalid
    obtain ⟨hdword, hdsome⟩ := words_of_hasWord (hwords.2 _ rfl) hdistance
    have habove : endSymbol < (copy length distance).symbol := by
      rw [symbol_copy, endSymbol]
      omega
    have hsymbol : (copy length distance).symbol - firstLengthSymbol = classOf lengthClasses length :=
      Nat.add_sub_cancel_left _ _
    rw [bits] at h ⊢
    have hlength := readValue_extra gapless_lengthClasses (by decide) hshort (Nat.lt_succ_of_le hlong)
      h.left.left.right
    have hback := readValue_extra gapless_distanceClasses (by decide) hpos (Nat.lt_succ_of_le hwindow) h.right
    have hsecond := CodeTree.readSymbol_word hdword hdsome h.left.right
    simp only [List.length_append, ← Nat.add_assoc] at hlength hsecond hback ⊢
    rw [← hsymbol] at hlength
    exact read_copy (CodeTree.readSymbol_word hword hsome h.left.left.left) habove hlength hsecond hback

/-- The end of a block is read. -/
theorem read_end_word (hword : symbols.HasWord endSymbol)
    (h : Bits.Holds src pos ((symbols.words 288).getD endSymbol [])) :
    read src symbols distances pos =
      .ok (none, pos + ((symbols.words 288).getD endSymbol []).length) := by
  obtain ⟨hword, hsome⟩ := words_of_hasWord hword (show endSymbol < 288 by decide)
  have hliteral : ¬ endSymbol < endSymbol := Nat.lt_irrefl _
  unfold read
  rw [CodeTree.readSymbol_word hword hsome h]
  dsimp only
  rw [if_neg hliteral, if_pos rfl]

/-! ## What tokens produce -/

/-- Whether a token produces the bytes of a text from `pos` on. -/
def Spells (text : ByteArray) (pos : Nat) : Token → Prop
  | literal byte => pos < text.size ∧ byteAt text pos = byte
  | copy length distance =>
    distance ≤ pos ∧ pos + length ≤ text.size ∧
      ∀ k < length, byteAt text (pos - distance + k) = byteAt text (pos + k)

/-- Whether tokens produce the bytes of a text from `pos` to `stop`, one after the other. -/
def Spelled (text : ByteArray) : (pos : Nat) → List Token → (stop : Nat) → Prop
  | pos, [], stop => pos = stop
  | pos, t :: ts, stop => (t.Valid ∧ t.Spells text pos) ∧ Spelled text (pos + t.size) ts stop

theorem spelled_append {a b : List Token} {middle : Nat} (ha : Spelled text pos a middle)
    (hb : Spelled text middle b stop) : Spelled text pos (a ++ b) stop := by
  induction a generalizing pos with
  | nil =>
    obtain rfl : pos = middle := ha
    exact hb
  | cons t a ih => exact ⟨ha.1, ih ha.2⟩

theorem Spelled.valid {ts : List Token} (h : Spelled text pos ts stop) : ∀ t ∈ ts, t.Valid := by
  induction ts generalizing pos with
  | nil => exact fun t ht => by cases ht
  | cons t ts ih =>
    intro u hu
    rcases List.mem_cons.mp hu with rfl | hu
    · exact h.1.1
    · exact ih h.2 u hu

/-- The sizes of tokens are what lies between the ends of what they spell. -/
theorem Spelled.stop_eq {ts : List Token} (h : Spelled text pos ts stop) :
    stop = pos + (ts.map Token.size).sum := by
  induction ts generalizing pos with
  | nil => exact h.symm
  | cons t ts ih => rw [ih h.2, List.map_cons, List.sum_cons, Nat.add_assoc]

theorem Spelled.split {a b : List Token} (h : Spelled text pos (a ++ b) stop) :
    Spelled text pos a (pos + (a.map Token.size).sum) ∧
      Spelled text (pos + (a.map Token.size).sum) b stop := by
  induction a generalizing pos with
  | nil => exact ⟨rfl, h⟩
  | cons t a ih =>
    rw [List.map_cons, List.sum_cons, ← Nat.add_assoc]
    exact ⟨⟨h.1, (ih h.2).1⟩, (ih h.2).2⟩

theorem Spells.stop_le {t : Token} (h : t.Spells text pos) : pos + t.size ≤ text.size := by
  cases t with
  | literal byte => exact h.1
  | copy length distance => exact h.2.1

theorem push_slice (start n : Nat) (h : start + n < text.size) :
    (slice text start n).push (byteAt text (start + n)) = slice text start (n + 1) := by
  have hshort : (slice text start n).size = n := size_slice_of_le (by omega)
  have hlong : (slice text start (n + 1)).size = n + 1 := size_slice_of_le (by omega)
  apply eq_of_byteAt
  · rw [ByteArray.size_push, hshort, hlong]
  · intro i hi
    rw [ByteArray.size_push, hshort] at hi
    rw [byteAt_push, hshort, byteAt_slice hi]
    split
    next heq => rw [heq]
    · rw [byteAt_slice (by omega)]

/-- The next byte of a text. -/
theorem push_next (h : pos < text.size) :
    (slice text 0 pos).push (byteAt text pos) = slice text 0 (pos + 1) := by
  have hpush := push_slice 0 pos (by omega : 0 + pos < text.size)
  rwa [Nat.zero_add] at hpush

/-- A copy repeats bytes of the text if they come again. -/
theorem copyBack_slice {distance n : Nat} (hpos : 0 < distance) (hdistance : distance ≤ pos)
    (hsize : pos + n ≤ text.size)
    (hagain : ∀ k < n, byteAt text (pos - distance + k) = byteAt text (pos + k)) :
    copyBack (slice text 0 pos) distance n = slice text 0 (pos + n) := by
  induction n generalizing pos with
  | zero => rfl
  | succ n ih =>
    have hsource : (slice text 0 pos).size - distance = pos - distance := by
      rw [size_slice]
      omega
    have hbyte : byteAt (slice text 0 pos) (pos - distance) = byteAt text pos := by
      rw [byteAt_slice (by omega), Nat.zero_add]
      exact hagain 0 (Nat.succ_pos n)
    rw [copyBack, hsource, hbyte, push_next (by omega), ih (by omega) (by omega), Nat.add_assoc,
      Nat.add_comm 1 n]
    intro k hk
    have := hagain (k + 1) (Nat.succ_lt_succ hk)
    rwa [show pos + 1 - distance + k = pos - distance + (k + 1) by omega, Nat.add_assoc, Nat.add_comm 1 k]

/-- A token that spells the next bytes of a text adds them. -/
theorem apply_of_spells {t : Token} (hvalid : t.Valid) (h : t.Spells text pos)
    (hroom : pos + t.size ≤ room) :
    t.apply room (slice text 0 pos) = .ok (slice text 0 (pos + t.size)) := by
  have hsize := h.stop_le
  have hout : (slice text 0 pos).size = pos := size_slice_of_le (by omega)
  cases t with
  | literal byte =>
    obtain ⟨hpos, rfl⟩ := h
    change pos + 1 ≤ room at hroom
    rw [apply, hout, if_pos (by omega), push_next hpos]
    rfl
  | copy length distance =>
    obtain ⟨hdistance, -, hagain⟩ := h
    change pos + length ≤ room at hroom
    have hpos := hvalid.2.1
    rw [apply, hout, if_neg (by omega), if_pos hroom]
    exact congrArg Except.ok (copyBack_slice hpos hdistance hsize hagain)

end Token

/-! ## The contents of a block -/

namespace Inflate

/-- One token of a block, and the tokens after it. -/
theorem codedBlock_eq (src : ByteArray) (symbols distances : CodeTree) (room pos : Nat)
    (out : ByteArray) :
    codedBlock src symbols distances room pos out =
      match Token.read src symbols distances pos with
      | .error e => .error e
      | .ok (none, stop) => .ok (out, stop)
      | .ok (some t, stop) =>
        match t.apply room out with
        | .error e => .error e
        | .ok out => codedBlock src symbols distances room stop out := by
  rw [codedBlock]
  split
  next hread => simp only [hread]
  next hread => simp only [hread]
  next t stop hread =>
    cases happly : t.apply room out with
    | error e => simp only [hread, happly]
    | ok out => simp only [hread, happly]

/-- **The contents of a coded block are read** if its symbols have words. -/
theorem codedBlock_tokenBits {ts : List Token} (hspelled : Token.Spelled text pos ts stop)
    (hwords : ∀ t ∈ ts, t.Worded symbols distances) (hend : symbols.HasWord Token.endSymbol)
    (h : Bits.Holds src bit (Block.tokenBits symbols distances ts)) (hroom : stop ≤ room) :
    codedBlock src symbols distances room bit (slice text 0 pos) =
      .ok (slice text 0 stop, bit + (Block.tokenBits symbols distances ts).length) := by
  induction ts generalizing pos bit with
  | nil =>
    obtain rfl : pos = stop := hspelled
    rw [Block.tokenBits, List.flatMap_nil, List.nil_append] at h ⊢
    rw [codedBlock_eq, Token.read_end_word hend h]
  | cons t ts ih =>
    have hbits : Block.tokenBits symbols distances (t :: ts) =
        t.bits (symbols.words 288) (distances.words 32) ++ Block.tokenBits symbols distances ts := by
      rw [Block.tokenBits, Block.tokenBits, List.flatMap_cons, List.append_assoc]
    obtain ⟨⟨hvalid, hspells⟩, hrest⟩ := hspelled
    have hstop := hrest.stop_eq
    rw [hbits] at h ⊢
    rw [codedBlock_eq, Token.read_bits hvalid (hwords t List.mem_cons_self) h.left]
    dsimp only
    rw [Token.apply_of_spells hvalid hspells (by omega)]
    dsimp only
    rw [ih hrest (fun u hu => hwords u (List.mem_cons_of_mem t hu)) h.right, List.length_append,
      Nat.add_assoc]

end Inflate

end DedupImage
