import DedupImage.Codec.ZstdWriter
import DedupImage.Proofs.Codec.Repetitions

/-!
# Sequences come back

The writer of sequences begins with the last one and looks for states that stand for its classes, from the
states behind it back to the first (`Zstd.encode?`). The reader goes the other way. Since from every state that
was found the bits lead to the state behind it (`FseTable.before?_spec`), it takes each sequence as it was written
(`Zstd.takeSequences?_encode?`).

Carried out on the literals of tokens, their sequences spell what the tokens spell (`Zstd.carryOut_sequencesFrom`).
-/

namespace DedupImage

/-! ## States -/

namespace FseTable

variable {t : FseTable} {symbol state next log : Nat}

theorem foldl_set_size (entries : List (Nat × Nat)) (out : Array Nat) :
    (entries.foldl (fun out e => out.setIfInBounds e.1 e.2) out).size = out.size := by
  induction entries generalizing out with
  | nil => rfl
  | cons e entries ih => rw [List.foldl_cons, ih, Array.size_setIfInBounds]

theorem size_cellsFrom (log : Nat) (ranks : Array Nat) (out : Array FseCell) (symbols : List Nat) :
    (cellsFrom log ranks out symbols).size = out.size + symbols.length := by
  induction symbols generalizing ranks out with
  | nil => rfl
  | cons symbol rest ih =>
    rw [cellsFrom, ih, Array.size_push, List.length_cons]
    omega

/-- A table has a cell for each of its states. -/
theorem size_ofCounts (log : Nat) (counts : List Int) : (ofCounts log counts).cells.size = 2 ^ log := by
  rw [ofCounts]
  dsimp only
  rw [size_cellsFrom, Array.length_toList, symbols]
  dsimp only
  rw [foldl_set_size, foldl_set_size, Array.size_replicate, Nat.one_shiftLeft]
  exact Nat.zero_add _

theorem cell_of_findIdx? {p : FseCell → Bool} (h : t.cells.findIdx? p = some state) :
    state < t.cells.size ∧ p (t.cell state) = true := by
  obtain ⟨hstate, hp, -⟩ := Array.findIdx?_eq_some_iff_getElem.mp h
  refine ⟨hstate, ?_⟩
  rwa [cell, Array.getD_eq_getD_getElem?, Array.getElem?_eq_getElem hstate, Option.getD_some]

theorem start?_spec (h : t.start? symbol = some state) :
    state < t.cells.size ∧ (t.cell state).symbol = symbol := by
  obtain ⟨hstate, hcell⟩ := cell_of_findIdx? h
  exact ⟨hstate, eq_of_beq hcell⟩

/-- **From a state that was found, bits lead to the state behind it.** -/
theorem before?_spec (h : t.before? symbol next = some state) :
    (state < t.cells.size ∧ (t.cell state).symbol = symbol) ∧
      (t.cell state).base ≤ next ∧ next < (t.cell state).base + 2 ^ (t.cell state).width := by
  obtain ⟨hstate, hcell⟩ := cell_of_findIdx? h
  rw [Bool.and_eq_true, Bool.and_eq_true, beq_iff_eq, decide_eq_true_eq, decide_eq_true_eq,
    Nat.one_shiftLeft] at hcell
  exact ⟨⟨hstate, hcell.1.1⟩, hcell.1.2, hcell.2⟩

end FseTable

namespace Zstd

variable {tables : Triple FseTable} {states next : Triple Nat} {s : Sequence} {ss : List Sequence}
variable {bits rest : List Bool}

/-- The bits between two states are taken. -/
theorem takeState?_stepBits {t : FseTable} {state after : Nat} (hbase : (t.cell state).base ≤ after)
    (hwidth : after < (t.cell state).base + 2 ^ (t.cell state).width) (rest : List Bool) :
    takeState? t state (stepBits t state after ++ rest) = some (after, rest) := by
  rw [takeState?, stepBits, Bits.take?_numberBits (by omega), Option.map_some]
  simp only [Nat.add_sub_cancel' hbase]

/-! ## Classes -/

/-- Whether a sequence is one that classes can tell. -/
structure Sequence.Fits (s : Sequence) : Prop where
  literals : s.literals < 131072
  length : 3 ≤ s.length ∧ s.length < 131075
  form : 1 ≤ s.form ∧ s.form < 2 ^ 32

theorem gapless_literalClasses : Token.Gapless literalClasses 131072 := by decide

theorem gapless_lengthClasses : Token.Gapless lengthClasses 131075 := by decide

theorem gapless_formClasses : Token.Gapless formClasses (2 ^ 32) := by decide

/-- The extra bits of a value are taken, highest first. -/
theorem takeValue?_extra {classes : Array (Nat × Nat)} {limit value : Nat}
    (hgapless : Token.Gapless classes limit) (hsome : 0 < classes.size)
    (hfirst : (Token.classAt classes 0).1 ≤ value) (hlimit : value < limit)
    (rest : List Bool) :
    takeValue? classes (Token.classOf classes value) ((Token.extra classes value).reverse ++ rest) =
      some (value, rest) := by
  obtain ⟨hclass, hbase, hwidth⟩ := Token.classOf_spec hgapless hsome hfirst hlimit
  have hget : classes[Token.classOf classes value]? =
      some (Token.classAt classes (Token.classOf classes value)) := by
    rw [Token.classAt, List.getD_eq_getElem?_getD, Array.getElem?_toList, Array.getElem?_eq_getElem hclass]
    rfl
  have hextra : Token.extra classes value =
      Bits.numberBits (Token.classAt classes (Token.classOf classes value)).2
        (value - (Token.classAt classes (Token.classOf classes value)).1) := by
    rw [Token.extra, Array.getD_eq_getD_getElem?, hget]
    rfl
  rw [takeValue?, hget, hextra]
  dsimp only
  rw [Bits.take?_numberBits (by omega), Option.map_some]
  simp only [Nat.add_sub_cancel' hbase]

/-- Whether states stand for these classes. -/
structure Stands (tables : Triple FseTable) (states classes : Triple Nat) : Prop where
  literals : states.literals < tables.literals.cells.size ∧
    (tables.literals.cell states.literals).symbol = classes.literals
  forms : states.forms < tables.forms.cells.size ∧ (tables.forms.cell states.forms).symbol = classes.forms
  lengths : states.lengths < tables.lengths.cells.size ∧
    (tables.lengths.cell states.lengths).symbol = classes.lengths

/-- **A sequence is taken as it was written.** -/
theorem takeSequence?_extra (hs : s.Fits) (hstates : Stands tables states s.classes) (rest : List Bool) :
    takeSequence? tables states (s.extra ++ rest) = some (s, rest) := by
  have hform := takeValue?_extra gapless_formClasses (by decide) hs.form.1 hs.form.2
    ((Token.extra lengthClasses s.length).reverse ++ ((Token.extra literalClasses s.literals).reverse ++ rest))
  have hlength := takeValue?_extra gapless_lengthClasses (by decide) hs.length.1 hs.length.2
    ((Token.extra literalClasses s.literals).reverse ++ rest)
  have hliterals := takeValue?_extra gapless_literalClasses (by decide) (Nat.zero_le _) hs.literals rest
  rw [takeSequence?, hstates.literals.2, hstates.forms.2, hstates.lengths.2]
  simp only [Sequence.classes, Sequence.extra, List.append_assoc, hform, hlength, hliterals, Option.bind_eq_bind,
    Option.bind_some]
  rfl

/-! ## All sequences -/

theorem startStates?_spec {classes : Triple Nat} (h : startStates? tables classes = some states) :
    Stands tables states classes := by
  simp only [startStates?, Option.bind_eq_bind, Option.bind_eq_some_iff] at h
  obtain ⟨l, hl, f, hf, m, hm, h⟩ := h
  obtain rfl := Option.some.inj h
  exact ⟨FseTable.start?_spec hl, FseTable.start?_spec hf, FseTable.start?_spec hm⟩

/-- States that were found stand for their classes, and the bits lead from them to the states behind. -/
theorem statesBefore?_spec {classes : Triple Nat} (h : statesBefore? tables classes next = some states)
    (rest : List Bool) :
    Stands tables states classes ∧
      takeStates? tables states (stepsBits tables states next ++ rest) = some (next, rest) := by
  simp only [statesBefore?, Option.bind_eq_bind, Option.bind_eq_some_iff] at h
  obtain ⟨l, hl, f, hf, m, hm, h⟩ := h
  obtain rfl := Option.some.inj h
  obtain ⟨hliterals, hl⟩ := FseTable.before?_spec hl
  obtain ⟨hforms, hf⟩ := FseTable.before?_spec hf
  obtain ⟨hlengths, hm⟩ := FseTable.before?_spec hm
  refine ⟨⟨hliterals, hforms, hlengths⟩, ?_⟩
  simp only [takeStates?, stepsBits, List.append_assoc, takeState?_stepBits hl.1 hl.2,
    takeState?_stepBits hm.1 hm.2, takeState?_stepBits hf.1 hf.2, Option.bind_eq_bind, Option.bind_some]
  rfl

/-- **Sequences are taken as they were written.** -/
theorem takeSequences?_encode? (hfits : ∀ s ∈ ss, s.Fits) (h : encode? tables ss = some (states, bits)) :
    ∃ s rest, ss = s :: rest ∧ Stands tables states s.classes ∧
      takeSequences? tables ss.length states bits = some ss := by
  fun_induction encode? tables ss generalizing states bits with
  | case1 => cases h
  | case2 s =>
    obtain ⟨found, hfound, h⟩ := Option.map_eq_some_iff.mp h
    obtain ⟨rfl, rfl⟩ := Prod.mk.inj h
    have hstands := startStates?_spec hfound
    have hread := takeSequence?_extra (hfits s List.mem_cons_self) hstands []
    rw [List.append_nil] at hread
    refine ⟨s, [], rfl, hstands, ?_⟩
    rw [List.length_singleton, takeSequences?, hread]
    rfl
  | case3 s rest hsome ih =>
    simp only [Option.bind_eq_bind, Option.bind_eq_some_iff] at h
    obtain ⟨⟨next, later⟩, hlater, found, hfound, h⟩ := h
    obtain ⟨rfl, rfl⟩ := Prod.mk.inj (Option.some.inj h)
    obtain ⟨s', rest', hrest, -, hread⟩ := ih (fun q hq => hfits q (List.mem_cons_of_mem _ hq)) hlater
    obtain ⟨hstands, hsteps⟩ := statesBefore?_spec hfound later
    refine ⟨s, rest, rfl, hstands, ?_⟩
    have hpositive : rest.length ≠ 0 := by simp [hrest]
    rw [List.length_cons, takeSequences?, List.append_assoc,
      takeSequence?_extra (hfits s List.mem_cons_self) hstands]
    dsimp only
    rw [if_neg hpositive, hsteps]
    dsimp only
    rw [hread, Option.map_some]

/-! ## Carrying out -/

variable {ts : List Token} {text literals out : ByteArray} {pos stop n most : Nat}

theorem literalsOf_nil : literalsOf [] = ByteArray.empty := rfl

theorem literalsOf_literal (byte : UInt8) (ts : List Token) :
    literalsOf (.literal byte :: ts) = ByteArray.empty.push byte ++ literalsOf ts := by
  ext1
  apply Array.toList_inj.mp
  simp [literalsOf]

theorem literalsOf_copy (length distance : Nat) (ts : List Token) :
    literalsOf (.copy length distance :: ts) = literalsOf ts := rfl

/-- A piece between others. -/
theorem slice_middle (front piece back : ByteArray) :
    slice (front ++ piece ++ back) front.size piece.size = piece := by
  rw [slice_append back (Nat.le_of_eq ByteArray.size_append.symm)]
  exact ByteArray.extract_append_eq_right rfl rfl

/-- The bytes before the literals that wait, and these. -/
theorem slice_waiting (text : ByteArray) (hn : n ≤ pos) :
    slice text 0 (pos - n) ++ slice text (pos - n) n = slice text 0 pos := by
  have hadd := slice_add (b := text) 0 (pos - n) n
  rwa [Nat.zero_add, Nat.sub_add_cancel hn] at hadd

/-- What is left at the end are the literals that wait. -/
theorem carryOut_waiting (hn : n ≤ pos) (hpos : pos ≤ text.size) (hmost : pos ≤ most) (front : ByteArray)
    (recent : Nat × Nat × Nat) :
    carryOut (front ++ slice text (pos - n) n) most [] front.size recent (slice text 0 (pos - n)) =
      some (slice text 0 pos, recent) := by
  have hbefore : (slice text 0 (pos - n)).size = pos - n := size_slice_of_le (by omega)
  have hwaiting : (slice text (pos - n) n).size = n := size_slice_of_le (by omega)
  have htaken := slice_middle front (slice text (pos - n) n) ByteArray.empty
  rw [hwaiting, ByteArray.append_empty] at htaken
  have hleft : (front ++ slice text (pos - n) n).size - front.size = n := by
    rw [ByteArray.size_append, hwaiting, Nat.add_sub_cancel_left]
  rw [carryOut, hleft, if_pos (by omega), htaken, slice_waiting text hn]

/-- A sequence spells the literals that wait, and a copy. -/
theorem carryOut_copy {length distance : Nat} (hn : n ≤ pos) (hpos : pos ≤ text.size)
    (hvalid : (Token.copy length distance).Valid)
    (hspells : (Token.copy length distance).Spells text pos) (hmost : pos + length ≤ most)
    (front later : ByteArray) (rest : List Sequence) (recent : Nat × Nat × Nat) :
    carryOut (front ++ slice text (pos - n) n ++ later) most (⟨n, length, distance + 3⟩ :: rest) front.size
        recent (slice text 0 (pos - n)) =
      carryOut (front ++ slice text (pos - n) n ++ later) most rest (front.size + n)
        (distance, recent.1, recent.2.1) (slice text 0 (pos + length)) := by
  have hinside := hspells.stop_le
  obtain ⟨hdistance, -, hagain⟩ := hspells
  have hpositive := hvalid.2.1
  have hbefore : (slice text 0 (pos - n)).size = pos - n := size_slice_of_le (by omega)
  have hwaiting : (slice text (pos - n) n).size = n := size_slice_of_le (by omega)
  have hfront : (slice text 0 pos).size = pos := size_slice_of_le (by omega)
  have hall : (front ++ slice text (pos - n) n ++ later).size = front.size + n + later.size := by
    rw [ByteArray.size_append, ByteArray.size_append, hwaiting]
  have htaken := slice_middle front (slice text (pos - n) n) later
  rw [hwaiting] at htaken
  have hform : distanceOf (distance + 3) n recent = (distance, (distance, recent.1, recent.2.1)) := by
    rw [distanceOf, if_pos (by omega), Nat.add_sub_cancel]
  have hback : Token.copyBack (slice text 0 pos) distance length = slice text 0 (pos + length) :=
    Token.copyBack_slice hpositive hdistance hinside hagain
  rw [carryOut]
  dsimp only
  rw [hform]
  dsimp only
  rw [hall, hbefore, if_neg (by omega), htaken, slice_waiting text hn, hfront, if_neg (by omega), hback]

/-- **The sequences of tokens, carried out on their literals, spell what the tokens spell.** The `n` literals
before `pos` wait for the next copy. -/
theorem carryOut_sequencesFrom (hspelled : Token.Spelled text pos ts stop) (hn : n ≤ pos) (front : ByteArray)
    (recent : Nat × Nat × Nat) (hmost : stop ≤ most) (hpos : pos ≤ text.size) :
    ∃ recent', carryOut (front ++ slice text (pos - n) n ++ literalsOf ts) most (sequencesFrom n ts)
      front.size recent (slice text 0 (pos - n)) = some (slice text 0 stop, recent') := by
  induction ts generalizing pos n front recent with
  | nil =>
    obtain rfl : pos = stop := hspelled
    refine ⟨recent, ?_⟩
    rw [literalsOf_nil, ByteArray.append_empty, sequencesFrom]
    exact carryOut_waiting hn hpos hmost front recent
  | cons t ts ih =>
    obtain ⟨⟨hvalid, hspells⟩, hrest⟩ := hspelled
    have hinside := hspells.stop_le
    have hstop := hrest.stop_eq
    cases t with
    | literal byte =>
      obtain ⟨hbyte, rfl⟩ := hspells
      have hmore : slice text (pos - n) n ++ ByteArray.empty.push (byteAt text pos) =
          slice text (pos - n) (n + 1) := by
        have hpush := Token.push_slice (pos - n) n (by omega : pos - n + n < text.size)
        rwa [Nat.sub_add_cancel hn, push_eq_append] at hpush
      obtain ⟨recent', hread⟩ := ih (n := n + 1) hrest (Nat.succ_le_succ hn) front recent hinside
      rw [show pos + (Token.literal (byteAt text pos)).size - (n + 1) = pos - n from
        Nat.add_sub_add_right pos 1 n]
        at hread
      refine ⟨recent', ?_⟩
      rw [literalsOf_literal, ← ByteArray.append_assoc, ByteArray.append_assoc (a := front), hmore]
      exact hread
    | copy length distance =>
      have hsize : (Token.copy length distance).size = length := rfl
      rw [hsize] at hstop
      have hwaiting : (slice text (pos - n) n).size = n := size_slice_of_le (by omega)
      obtain ⟨recent', hread⟩ := ih (n := 0) hrest (Nat.zero_le _) (front ++ slice text (pos - n) n)
        (distance, recent.1, recent.2.1) hinside
      rw [slice_zero, ByteArray.append_empty, Nat.sub_zero, ByteArray.size_append, hwaiting] at hread
      refine ⟨recent', ?_⟩
      rw [literalsOf_copy, sequencesFrom, carryOut_copy hn hpos hvalid hspells (by omega)]
      exact hread

end Zstd

end DedupImage
