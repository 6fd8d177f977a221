import DedupImage.Codec.Zstd
import DedupImage.Proofs.Codec.ZstdSequences

/-!
# Blocks of a Zstandard frame come back

The contents of a compressed block are its literals, the number of its sequences, and their bits. A reader takes
each of these as it was written, and carries the sequences out on the literals (`Zstd.block?_contents?`).
-/

namespace DedupImage.Zstd

variable {src text out literals rest tail : ByteArray} {pos stop start n v w : Nat} {ts : List Token}

/-! ## Compressed contents -/

/-- The first byte of a number. -/
theorem byteAt_numberBytes (hw : 0 < w) (hv : v < 256 ^ w) (tail : ByteArray) :
    (byteAt (numberBytes w v ++ tail) 0).toNat = v % 256 := by
  obtain ⟨w, rfl⟩ : ∃ w', w = w' + 1 := ⟨w - 1, by omega⟩
  have hread := numberAt_numberBytes ByteArray.empty tail hv
  rw [ByteArray.empty_append, ByteArray.size_empty, numberAt] at hread
  have hbyte := (byteAt (numberBytes (w + 1) v ++ tail) 0).toNat_lt
  omega

/-- Literals as they are, behind a number of this width and format. -/
theorem literals?_numberBytes (format : Nat) (known : Option LiteralCode) (rest : ByteArray)
    (hn : literals.size ≤ longestBlock) (hw : 0 < w) (hv : v < 256 ^ w) (hkind : v % 4 = 0)
    (hformat : v / 4 % 4 = format)
    (hform : (w = 1 ∧ format % 2 = 0 ∧ v / 8 = literals.size) ∨
      (w = 2 ∧ format = 1 ∧ v / 16 = literals.size) ∨ (w = 3 ∧ format = 3 ∧ v / 16 = literals.size)) :
    literals? (numberBytes w v ++ literals ++ rest) known =
      some (literals, known, (numberBytes w v ++ literals).size) := by
  have hbyte := byteAt_numberBytes hw hv (literals ++ rest)
  have hread := numberAt_numberBytes ByteArray.empty (literals ++ rest) hv
  have hpiece := slice_middle (numberBytes w v) literals rest
  rw [ByteArray.empty_append, ByteArray.size_empty, ← ByteArray.append_assoc] at hread
  rw [← ByteArray.append_assoc] at hbyte
  rw [size_numberBytes] at hpiece
  have hsize : (numberBytes w v ++ literals ++ rest).size = w + literals.size + rest.size := by
    rw [ByteArray.size_append, ByteArray.size_append, size_numberBytes]
  have hzero : (byteAt (numberBytes w v ++ literals ++ rest) 0).toNat % 4 = 0 := by omega
  have hway : (byteAt (numberBytes w v ++ literals ++ rest) 0).toNat / 4 % 4 = format := by omega
  have hall : (numberBytes w v ++ literals).size = w + literals.size := by
    rw [ByteArray.size_append, size_numberBytes]
  unfold literals?
  simp only [hzero, hway]
  rcases hform with ⟨rfl, heven, hvalue⟩ | ⟨rfl, rfl, hvalue⟩ | ⟨rfl, rfl, hvalue⟩
  · simp [heven, hread, hvalue, hpiece, guard, hn, hall]
  · simp [hread, hvalue, hpiece, guard, hn, hall]
  · simp [hread, hvalue, hpiece, guard, hn, hall]

/-- **Literals are read as they were written.** -/
theorem literals?_pushLiterals (known : Option LiteralCode) (literals rest : ByteArray)
    (hn : literals.size ≤ longestBlock) :
    literals? (pushLiterals ByteArray.empty literals ++ rest) known =
      some (literals, known, (pushLiterals ByteArray.empty literals).size) := by
  have hn' := hn
  unfold longestBlock at hn'
  unfold pushLiterals
  dsimp only
  split
  next hone =>
    exact literals?_numberBytes (literals.size * 8 / 4 % 4) known rest hn (by decide) (by omega) (by omega) rfl
      (.inl ⟨rfl, by omega, by omega⟩)
  next hone =>
  split
  next htwo =>
    exact literals?_numberBytes 1 known rest hn (by decide) (by omega) (by omega) (by omega)
      (.inr (.inl ⟨rfl, rfl, by omega⟩))
  next htwo =>
    exact literals?_numberBytes 3 known rest hn (by decide) (by omega) (by omega) (by omega)
      (.inr (.inr ⟨rfl, rfl, by omega⟩))

/-- A number that was added is read. -/
theorem numberAt_added (out tail : ByteArray) (hv : v < 256 ^ w) :
    numberAt (pushNumber out w v ++ tail) out.size w = v := by
  rw [pushNumber_eq]
  exact numberAt_numberBytes out tail hv

/-- A number that was added stays when another is added. -/
theorem numberAt_stays {u : Nat} (out tail : ByteArray) (hv : v < 256 ^ w) :
    numberAt (pushNumber (pushNumber out w v) u n ++ tail) out.size w = v := by
  rw [pushNumber_eq (pushNumber out w v), ByteArray.append_assoc]
  exact numberAt_added out _ hv

/-- **The number of sequences is read as it was written.** -/
theorem count?_pushCount (out rest : ByteArray) (hn : n < 0x7F00 + 65536) :
    count? (pushCount out n ++ rest) out.size = some (n, (pushCount out n).size) := by
  unfold pushCount count?
  split
  next hone =>
    rw [numberAt_added out rest (by omega)]
    dsimp only
    rw [if_pos hone]
    simp
  next hone =>
  split
  next htwo =>
    have hsecond := numberAt_added (pushNumber out 1 (n / 256 + 128)) rest (v := n % 256) (w := 1) (by omega)
    rw [size_pushNumber] at hsecond
    rw [numberAt_stays out rest (by omega), hsecond]
    dsimp only
    rw [if_neg (show ¬ n / 256 + 128 < 128 by omega), if_pos (show n / 256 + 128 < 255 by omega)]
    dsimp only
    rw [if_pos (by simp), size_pushNumber, size_pushNumber,
      show (n / 256 + 128 - 128) * 256 + n % 256 = n by omega]
  next htwo =>
    have hsecond := numberAt_added (pushNumber out 1 255) rest (v := n - 0x7F00) (w := 2) (by omega)
    rw [size_pushNumber] at hsecond
    rw [numberAt_stays out rest (by decide), hsecond]
    dsimp only
    rw [if_neg (show ¬ 255 < 128 by decide), if_neg (show ¬ 255 < 255 by decide)]
    dsimp only
    rw [if_pos (by simp), size_pushNumber, size_pushNumber, show n - 0x7F00 + 0x7F00 = n by omega]

/-- The first states and the sequences behind them. -/
theorem sequencesOf?_startBits {tables : Triple FseTable} {states : Triple Nat} {bits : List Bool}
    {ss : List Sequence} (hstates : states.literals < 2 ^ tables.literals.log ∧
      states.forms < 2 ^ tables.forms.log ∧ states.lengths < 2 ^ tables.lengths.log)
    (h : takeSequences? tables n states bits = some ss) :
    sequencesOf? tables n (startBits tables states ++ bits) = some ss := by
  obtain ⟨hliterals, hforms, hlengths⟩ := hstates
  simp only [sequencesOf?, startBits, List.append_assoc, Bits.take?_numberBits hliterals,
    Bits.take?_numberBits hforms, Bits.take?_numberBits hlengths, Option.bind_eq_bind, Option.bind_some]
  exact h

/-- The predefined codes have as many cells as states. -/
theorem size_predefined :
    predefined.literals.cells.size = 2 ^ predefined.literals.log ∧
      predefined.forms.cells.size = 2 ^ predefined.forms.log ∧
      predefined.lengths.cells.size = 2 ^ predefined.lengths.log :=
  ⟨FseTable.size_ofCounts _ _, FseTable.size_ofCounts _ _, FseTable.size_ofCounts _ _⟩

theorem tables?_predefined (b : ByteArray) (pos : Nat) (known : Triple (Option FseTable)) :
    tables? b (UInt8.toNat 0) pos known = some (predefined, pos) := rfl

/-- **Sequences in the predefined codes are read as they were written.** -/
theorem sequences?_pushBits (known : Triple (Option FseTable)) {states : Triple Nat} {bits : List Bool}
    {ss : List Sequence} (hfits : ∀ s ∈ ss, s.Fits) (hn : ss.length < 0x7F00 + 65536)
    (h : encode? predefined ss = some (states, bits)) (out : ByteArray) :
    ∃ known', sequences? (Bits.pushBits ((pushCount out ss.length).push 0)
      ((startBits predefined states ++ bits).reverse ++ [true])) out.size known = some (ss, known') := by
  obtain ⟨s, rest, hss, hstands, hread⟩ := takeSequences?_encode? hfits h
  obtain ⟨hliterals, hforms, hlengths⟩ := size_predefined
  have hstates : states.literals < 2 ^ predefined.literals.log ∧ states.forms < 2 ^ predefined.forms.log ∧
      states.lengths < 2 ^ predefined.lengths.log :=
    ⟨hliterals ▸ hstands.literals.1, hforms ▸ hstands.forms.1, hlengths ▸ hstands.lengths.1⟩
  have hsome : ss.length ≠ 0 := by simp [hss]
  have hbits := Bits.backward?_pushBits (startBits predefined states ++ bits)
  rw [Bits.pushBits_eq]
  generalize Bits.pushBits ByteArray.empty ((startBits predefined states ++ bits).reverse ++ [true]) = body
    at hbits ⊢
  have hcount := count?_pushCount out (ByteArray.empty.push 0 ++ body) hn
  rw [← ByteArray.append_assoc, ← push_eq_append] at hcount
  have hmode : byteAt ((pushCount out ss.length).push 0 ++ body) (pushCount out ss.length).size = 0 := by
    rw [byteAt_append_left (by simp), byteAt_push, if_pos rfl]
  have hinside : (pushCount out ss.length).size < ((pushCount out ss.length).push 0 ++ body).size := by
    rw [ByteArray.size_append, ByteArray.size_push]
    omega
  have hbody := slice_middle ((pushCount out ss.length).push 0) body ByteArray.empty
  have hleft : ((pushCount out ss.length).push 0 ++ body).size - ((pushCount out ss.length).size + 1) =
      body.size := by
    rw [ByteArray.size_append, ByteArray.size_push]
    omega
  rw [ByteArray.append_empty, ByteArray.size_push] at hbody
  have hsequences := sequencesOf?_startBits hstates hread
  refine ⟨⟨some predefinedLiterals, some predefinedForms, some predefinedLengths⟩, ?_⟩
  have hwritten : (pushCount out ss.length).size < ((pushCount out ss.length).push 0 ++ body).size ∧
      UInt8.toNat 0 % 4 = 0 := ⟨hinside, rfl⟩
  simp only [sequences?, hcount, Option.bind_eq_bind, Option.bind_some, if_neg hsome, hmode, guard,
    if_pos hwritten, tables?_predefined, hleft, hbody, hbits, hsequences]
  rfl

theorem exists_pushCount_eq (out : ByteArray) (n : Nat) : ∃ field, pushCount out n = out ++ field := by
  unfold pushCount
  split
  · exact ⟨_, pushNumber_eq _ _ _⟩
  split
  · exact ⟨_, by rw [pushNumber_eq, pushNumber_eq out, ByteArray.append_assoc]⟩
  · exact ⟨_, by rw [pushNumber_eq, pushNumber_eq out, ByteArray.append_assoc]⟩

theorem size_literalsOf_le (ts : List Token) : (literalsOf ts).size ≤ (ts.map Token.size).sum := by
  induction ts with
  | nil => exact Nat.le_refl 0
  | cons t ts ih =>
    rw [List.map_cons, List.sum_cons]
    cases t with
    | literal byte =>
      rw [literalsOf_literal, ByteArray.size_append]
      exact Nat.add_le_add_left ih 1
    | copy length distance =>
      rw [literalsOf_copy]
      exact Nat.le_trans ih (Nat.le_add_left _ _)

/-- What a sequence produces is produced by the tokens it comes from, and its copy is one of them. -/
theorem mem_sequencesFrom {s : Sequence} (hvalid : ∀ t ∈ ts, t.Valid) (h : s ∈ sequencesFrom n ts) :
    s.literals + s.length ≤ n + (ts.map Token.size).sum ∧ (3 ≤ s.length ∧ s.length ≤ 258) ∧
      (1 ≤ s.form ∧ s.form ≤ 32771) := by
  induction ts generalizing n with
  | nil => cases h
  | cons t ts ih =>
    have hrest : ∀ t ∈ ts, t.Valid := fun t ht => hvalid t (List.mem_cons_of_mem _ ht)
    rw [List.map_cons, List.sum_cons]
    cases t with
    | literal byte =>
      obtain ⟨hsize, hcopy⟩ := ih hrest h
      have hone : (Token.literal byte).size = 1 := rfl
      exact ⟨by omega, hcopy⟩
    | copy length distance =>
      have hthis : (Token.copy length distance).size = length := rfl
      rcases List.mem_cons.mp h with rfl | h
      · obtain ⟨⟨hshort, hlong⟩, hpos, hwindow⟩ := hvalid _ List.mem_cons_self
        unfold Token.shortestCopy at hshort
        unfold Token.longestCopy at hlong
        unfold Token.window at hwindow
        exact ⟨by dsimp only; omega, ⟨hshort, hlong⟩, by dsimp only; omega⟩
      · obtain ⟨hsize, hcopy⟩ := ih hrest h
        exact ⟨by omega, hcopy⟩

/-- A sequence produces three bytes or more. -/
theorem length_sequencesFrom_le (hvalid : ∀ t ∈ ts, t.Valid) :
    3 * (sequencesFrom n ts).length ≤ (ts.map Token.size).sum := by
  induction ts generalizing n with
  | nil => exact Nat.le_refl 0
  | cons t ts ih =>
    have hrest := fun n => ih (n := n) fun t ht => hvalid t (List.mem_cons_of_mem _ ht)
    rw [List.map_cons, List.sum_cons]
    cases t with
    | literal byte => exact Nat.le_trans (hrest (n + 1)) (Nat.le_add_left _ _)
    | copy length distance =>
      have hcopy := (hvalid _ List.mem_cons_self).1.1
      unfold Token.shortestCopy at hcopy
      have hthis : (Token.copy length distance).size = length := rfl
      have := hrest 0
      rw [sequencesFrom, List.length_cons]
      omega

/-- **The contents of a compressed block are read as they were written**, whatever the reader knows. -/
theorem block?_contents? {contents : ByteArray} (memory : Memory) (h : contents? ts = some contents)
    (hspelled : Token.Spelled text pos ts stop) (hstop : stop ≤ text.size) (hshort : stop ≤ pos + longestBlock) :
    ∃ memory', block? contents memory (slice text 0 pos) = some (slice text 0 stop, memory') := by
  have hsize := hspelled.stop_eq
  have hliterals := size_literalsOf_le ts
  have hcount := length_sequencesFrom_le (n := 0) hspelled.valid
  have hbefore : (slice text 0 pos).size = pos := size_slice_of_le (by omega)
  have hlimit : longestBlock = 131072 := rfl
  have hfits : ∀ s ∈ sequencesFrom 0 ts, s.Fits := by
    intro s hs
    obtain ⟨hboth, hlength, hform⟩ := mem_sequencesFrom hspelled.valid hs
    exact ⟨by omega, by omega, by omega⟩
  unfold contents? at h
  dsimp only at h
  split at h
  · cases h
  next states bits hencode =>
  obtain rfl := Option.some.inj h
  obtain ⟨known, hsequences⟩ :=
    sequences?_pushBits memory.tables hfits (by omega) hencode (pushLiterals ByteArray.empty (literalsOf ts))
  obtain ⟨field, hfield⟩ :=
    exists_pushCount_eq (pushLiterals ByteArray.empty (literalsOf ts)) (sequencesFrom 0 ts).length
  have hpos : pos ≤ text.size := by omega
  obtain ⟨recent, hcarried⟩ :=
    carryOut_sequencesFrom hspelled (Nat.zero_le pos) ByteArray.empty memory.recent hshort hpos
  rw [slice_zero, ByteArray.append_empty, ByteArray.empty_append, ByteArray.size_empty, Nat.sub_zero]
    at hcarried
  refine ⟨⟨memory.code, known, recent⟩, ?_⟩
  have hread := literals?_pushLiterals memory.code (literalsOf ts)
    ((field.push 0) ++ Bits.pushBits ByteArray.empty ((startBits predefined states ++ bits).reverse ++ [true]))
    (by omega)
  rw [push_eq_append, ← ByteArray.append_assoc, ← ByteArray.append_assoc, ← hfield, ← push_eq_append,
    ← Bits.pushBits_eq] at hread
  simp only [block?, hread, hsequences, hbefore, hcarried, Option.bind_eq_bind, Option.bind_some]
  rfl

/-! ## One block -/

namespace Block

/-- The number of a block's kind. -/
def kind : Block → Nat
  | .plain _ _ => 0
  | .run _ _ => 1
  | .packed _ _ => 2

/-- The number in the header of a block. -/
def field : Block → Nat
  | .plain _ length => length
  | .run _ length => length
  | .packed contents _ => contents.size

/-- What follows the header of a block. -/
def payload (src : ByteArray) : Block → ByteArray
  | .plain start length => slice src start length
  | .run byte _ => ByteArray.empty.push byte
  | .packed contents _ => contents

theorem kind_lt (b : Block) : b.kind < 3 := by
  cases b with
  | plain start length => exact (by decide : 0 < 3)
  | run byte length => exact (by decide : 1 < 3)
  | packed contents length => exact (by decide : 2 < 3)

end Block

variable {b : Block} {last : Bool} {acc acc' : ByteArray} {room : Nat} {memory memory' : Memory}

theorem pushBlock_eq (src out : ByteArray) (last : Bool) (b : Block) :
    pushBlock src out last b =
      out ++ numberBytes 3 (b.field * 8 + 2 * b.kind + last.toNat) ++ b.payload src := by
  cases b with
  | plain start length => rw [pushBlock, pushNumber_eq]; rfl
  | run byte length => rw [pushBlock, pushNumber_eq, push_eq_append]; rfl
  | packed contents length => rw [pushBlock, pushNumber_eq]; rfl

theorem size_pushBlock (src out : ByteArray) (last : Bool) (b : Block) :
    (pushBlock src out last b).size = out.size + 3 + (b.payload src).size := by
  rw [pushBlock_eq, ByteArray.size_append, ByteArray.size_append, size_numberBytes]

/-- A block does not depend on what stands before it. -/
theorem pushBlock_append (before out : ByteArray) (last : Bool) (b : Block) :
    pushBlock src (before ++ out) last b = before ++ pushBlock src out last b := by
  simp only [pushBlock_eq, ByteArray.append_assoc]

/-- The payload stands behind the header. -/
theorem slice_pushBlock (src out tail : ByteArray) (last : Bool) (b : Block) :
    slice (pushBlock src out last b ++ tail) (out.size + 3) (b.payload src).size = b.payload src := by
  have hpiece :=
    slice_middle (out ++ numberBytes 3 (b.field * 8 + 2 * b.kind + last.toNat)) (b.payload src) tail
  rwa [← pushBlock_eq, ByteArray.size_append, size_numberBytes] at hpiece

/-- Whether a reader of a block at the end of what was written makes of the text before it the text up to
`stop`. -/
def Block.Gives (src : ByteArray) (b : Block) (start stop : Nat) : Prop :=
  ∀ (out tail : ByteArray) (last : Bool) (memory : Memory), ∃ memory',
    blockOfKind? (pushBlock src out last b ++ tail) b.kind (out.size + 3) b.field memory (slice src 0 start) =
      some (slice src 0 stop, memory')

theorem gives_plain {length : Nat} (hinside : start + length ≤ src.size) :
    (Block.plain start length).Gives src start (start + length) := by
  intro out tail last memory
  have hpayload : ((Block.plain start length).payload src).size = length := size_slice_of_le hinside
  have hsize := size_pushBlock src out last (.plain start length)
  have hpiece := slice_pushBlock src out tail last (.plain start length)
  rw [hpayload] at hsize hpiece
  have hmeet := slice_add (b := src) 0 start length
  rw [Nat.zero_add] at hmeet
  refine ⟨memory, ?_⟩
  change blockOfKind? _ 0 _ length memory _ = _
  rw [blockOfKind?, if_neg (by decide), if_neg (by rw [ByteArray.size_append]; omega), if_pos rfl, hpiece,
    Block.payload, hmeet]

theorem gives_run {length : Nat} (hinside : start + length ≤ src.size)
    (hrun : ∀ k < length, byteAt src (start + k) = byteAt src start) :
    (Block.run (byteAt src start) length).Gives src start (start + length) := by
  intro out tail last memory
  have hsize := size_pushBlock src out last (.run (byteAt src start) length)
  have hpiece := slice_pushBlock src out tail last (.run (byteAt src start) length)
  have hpayload : (Block.payload src (.run (byteAt src start) length)).size = 1 := rfl
  have hbyte : byteAt (pushBlock src out last (.run (byteAt src start) length) ++ tail) (out.size + 3) =
      byteAt src start := by
    have hfirst := congrArg (byteAt · 0) hpiece
    rwa [hpayload, byteAt_slice Nat.one_pos] at hfirst
  have hmeet := slice_add (b := src) 0 start length
  rw [Nat.zero_add] at hmeet
  refine ⟨memory, ?_⟩
  change blockOfKind? _ 1 _ length memory _ = _
  rw [blockOfKind?, if_pos rfl, if_pos (by rw [ByteArray.size_append]; omega), hbyte,
    pushCopies_eq_append_slice _ hinside hrun, hmeet]

theorem gives_packed {contents : ByteArray} {length : Nat} (h : contents? ts = some contents)
    (hspelled : Token.Spelled src start ts stop) (hstop : stop ≤ src.size)
    (hshort : stop ≤ start + longestBlock) :
    (Block.packed contents length).Gives src start stop := by
  intro out tail last memory
  obtain ⟨memory', hread⟩ := block?_contents? memory h hspelled hstop hshort
  have hsize := size_pushBlock src out last (.packed contents length)
  have hpiece := slice_pushBlock src out tail last (.packed contents length)
  simp only [Block.payload] at hsize hpiece
  refine ⟨memory', ?_⟩
  change blockOfKind? _ 2 _ contents.size memory _ = _
  rw [blockOfKind?, if_neg (by decide), if_neg (by rw [ByteArray.size_append]; omega), if_neg (by decide),
    if_pos rfl, hpiece, hread]

/-- Whether a block stands for the text from `start` to `stop`: a reader makes it of the text before it, its
payload is no longer than that text, and its header tells how long it is. -/
structure Block.Writes (src : ByteArray) (b : Block) (start stop : Nat) : Prop where
  gives : b.Gives src start stop
  short : (b.payload src).size ≤ stop - start
  width : (b.payload src).size = if b.kind = 1 then 1 else b.field
  field : b.field ≤ longestBlock

theorem writes_plain (hstart : start ≤ stop) (hstop : stop ≤ src.size) (hshort : stop ≤ start + longestBlock) :
    (Block.plain start (stop - start)).Writes src start stop := by
  have hgives : (Block.plain start (stop - start)).Gives src start (start + (stop - start)) :=
    gives_plain (by omega)
  have hpayload : (Block.payload src (.plain start (stop - start))).size = stop - start :=
    size_slice_of_le (by omega)
  rw [Nat.add_sub_cancel' hstart] at hgives
  exact ⟨hgives, Nat.le_of_eq hpayload, hpayload, Nat.sub_le_of_le_add (Nat.add_comm _ _ ▸ hshort)⟩

/-- **The block of tokens stands for the text that they spell.** -/
theorem writes_blockOf (hspelled : Token.Spelled src start ts stop) (hstop : stop ≤ src.size)
    (hshort : stop ≤ start + longestBlock) : (blockOf src start (stop - start) ts).Writes src start stop := by
  have hsize := hspelled.stop_eq
  have hplain : (Block.plain start (stop - start)).Writes src start stop := writes_plain (by omega) hstop hshort
  unfold blockOf
  split
  next hrun =>
    have hall : ∀ k < stop - start, byteAt src (start + k) = byteAt src start := by
      intro k hk
      induction k with
      | zero => rfl
      | succ k ih =>
        have hstep := agree_iff.mp hrun.2 k (by omega)
        rw [← ih (by omega), hstep, Nat.add_right_comm, Nat.add_assoc]
    have hgives := gives_run (by omega) hall
    rw [Nat.add_sub_cancel' (by omega)] at hgives
    exact ⟨hgives, Nat.le_of_lt hrun.1, rfl, Nat.sub_le_of_le_add (Nat.add_comm _ _ ▸ hshort)⟩
  next hrun =>
  split
  next => exact hplain
  next contents hcontents =>
  split
  next hless =>
    have hfield : contents.size ≤ longestBlock := by omega
    exact ⟨gives_packed hcontents hspelled hstop hshort, Nat.le_of_lt hless, rfl, hfield⟩
  next => exact hplain

/-- A reader at the end of what was written carries out the next block. -/
theorem unpackBlocks_pushBlock {start : Nat} (hwrites : b.Writes src start stop) (hroom : stop ≤ room)
    (out tail : ByteArray) (last : Bool) (memory : Memory) :
    ∃ memory', unpackBlocks (pushBlock src out last b ++ tail) room out.size memory (slice src 0 start) =
      if last then
        some (slice src 0 stop, (pushBlock src out last b).size)
      else
        unpackBlocks (pushBlock src out last b ++ tail) room (pushBlock src out last b).size memory'
          (slice src 0 stop) := by
  obtain ⟨memory', hblock⟩ := hwrites.gives out tail last memory
  have hsize := size_pushBlock src out last b
  have hfield := hwrites.field
  have hkind := b.kind_lt
  have hlast := Bool.toNat_lt last
  unfold longestBlock at hfield
  have hhead : numberAt (pushBlock src out last b ++ tail) out.size 3 =
      b.field * 8 + 2 * b.kind + last.toNat := by
    rw [pushBlock_eq, ByteArray.append_assoc]
    exact numberAt_numberBytes out _ (by omega)
  have hfieldRead : (b.field * 8 + 2 * b.kind + last.toNat) / 8 = b.field := by omega
  have hkindRead : (b.field * 8 + 2 * b.kind + last.toNat) / 2 % 4 = b.kind := by omega
  have hlastRead : (b.field * 8 + 2 * b.kind + last.toNat) % 2 = last.toNat := by omega
  have hroomLeft : ¬ room < (slice src 0 stop).size := by
    rw [size_slice]
    omega
  refine ⟨memory', ?_⟩
  rw [unpackBlocks, if_neg (by rw [ByteArray.size_append]; omega), hhead]
  dsimp only
  rw [hfieldRead, hkindRead, hlastRead, ← hwrites.width, ← hsize, hblock]
  dsimp only
  rw [if_neg hroomLeft]
  cases last <;> rfl

/-! ## All blocks -/

/-- The first block is added, and then the others. -/
theorem pushBlocks_cons (src out : ByteArray) (pos : Nat) (ts : List Token) (rest : List (List Token)) :
    pushBlocks src pos out (ts :: rest) =
      pushBlocks src (pos + (ts.map Token.size).sum)
        (pushBlock src out rest.isEmpty (blockOf src pos (ts.map Token.size).sum ts)) rest := by
  rw [pushBlocks, ← List.sum_eq_foldl_nat]

/-- Blocks do not depend on what stands before them. -/
theorem pushBlocks_append (before out : ByteArray) (pos : Nat) (tss : List (List Token)) :
    pushBlocks src pos (before ++ out) tss = before ++ pushBlocks src pos out tss := by
  induction tss generalizing pos out with
  | nil => rfl
  | cons ts rest ih => rw [pushBlocks_cons, pushBlock_append, ih, pushBlocks_cons]

/-- **Blocks that were written are carried out**, one after the other. -/
theorem unpackBlocks_pushBlocks {tss : List (List Token)} (hsome : tss ≠ [])
    (hshort : ∀ ts ∈ tss, (ts.map Token.size).sum ≤ longestBlock)
    (hspelled : Token.Spelled src pos tss.flatten src.size) (hroom : src.size ≤ room)
    (out tail : ByteArray) (memory : Memory) :
    unpackBlocks (pushBlocks src pos out tss ++ tail) room out.size memory (slice src 0 pos) =
      some (src, (pushBlocks src pos out tss).size) := by
  induction tss generalizing pos out memory with
  | nil => exact absurd rfl hsome
  | cons ts rest ih =>
    rw [List.flatten_cons] at hspelled
    obtain ⟨hfirst, hrest⟩ := hspelled.split
    have hstop := hrest.stop_eq
    have hwrites := writes_blockOf hfirst (by omega) (by have := hshort ts List.mem_cons_self; omega)
    rw [Nat.add_sub_cancel_left] at hwrites
    rw [pushBlocks_cons]
    cases rest with
    | nil =>
      have hall : pos + (ts.map Token.size).sum = src.size := hrest
      have hfits : pos + (ts.map Token.size).sum ≤ room := by omega
      obtain ⟨memory', hread⟩ := unpackBlocks_pushBlock hwrites hfits out tail true memory
      rw [if_pos rfl, hall, slice_all] at hread
      exact hread
    | cons next rest =>
      -- the blocks to come stand behind this one
      obtain ⟨behind, hbehind⟩ : ∃ behind, pushBlocks src (pos + (ts.map Token.size).sum)
          (pushBlock src out (next :: rest).isEmpty (blockOf src pos (ts.map Token.size).sum ts)) (next :: rest) =
            pushBlock src out (next :: rest).isEmpty (blockOf src pos (ts.map Token.size).sum ts) ++ behind := by
        refine ⟨pushBlocks src (pos + (ts.map Token.size).sum) ByteArray.empty (next :: rest), ?_⟩
        rw [← pushBlocks_append, ByteArray.append_empty]
      have hfits : pos + (ts.map Token.size).sum ≤ room := by omega
      obtain ⟨memory', hread⟩ :=
        unpackBlocks_pushBlock hwrites hfits out (behind ++ tail) (next :: rest).isEmpty memory
      have hlater := ih (List.cons_ne_nil _ _) (fun ts hts => hshort ts (List.mem_cons_of_mem _ hts)) hrest
        (pushBlock src out (next :: rest).isEmpty (blockOf src pos (ts.map Token.size).sum ts)) memory'
      rw [hbehind, ByteArray.append_assoc] at hlater ⊢
      rw [hread, if_neg (by simp), hlater]

/-! ## Cutting tokens into blocks -/

theorem cutFrom_ne_nil (length : Nat) (block ts : List Token) : cutFrom length block ts ≠ [] := by
  fun_induction cutFrom length block ts with
  | case1 => exact List.cons_ne_nil _ _
  | case2 => exact List.cons_ne_nil _ _
  | case3 length block t ts hfits ih => exact ih

/-- Nothing is lost when tokens are cut into blocks. -/
theorem flatten_cutFrom (length : Nat) (block ts : List Token) :
    (cutFrom length block ts).flatten = block.reverse ++ ts := by
  fun_induction cutFrom length block ts with
  | case1 length block => simp
  | case2 length block t ts hfull ih => simp [ih]
  | case3 length block t ts hfits ih => simp [ih]

theorem size_le_of_valid {t : Token} (h : t.Valid) : t.size ≤ 258 := by
  cases t with
  | literal byte => exact (by decide : 1 ≤ 258)
  | copy length distance => exact h.1.2

/-- No block is longer than a block may be. -/
theorem sum_le_of_mem_cutFrom {length : Nat} {block : List Token} (hlength : length = (block.map Token.size).sum)
    (hshort : length ≤ longestBlock) (hvalid : ∀ t ∈ ts, t.Valid) :
    ∀ b ∈ cutFrom length block ts, (b.map Token.size).sum ≤ longestBlock := by
  fun_induction cutFrom length block ts with
  | case1 length block =>
    intro b hb
    obtain rfl := List.mem_singleton.mp hb
    rwa [List.map_reverse, List.sum_reverse, ← hlength]
  | case2 length block t ts hfull ih =>
    have hsize := size_le_of_valid (hvalid t List.mem_cons_self)
    intro b hb
    rcases List.mem_cons.mp hb with rfl | hb
    · rwa [List.map_reverse, List.sum_reverse, ← hlength]
    · exact ih (by simp) (Nat.le_trans hsize (by decide)) (fun t ht => hvalid t (List.mem_cons_of_mem _ ht)) b hb
  | case3 length block t ts hfits ih =>
    refine ih ?_ (Nat.not_lt.mp hfits) fun t ht => hvalid t (List.mem_cons_of_mem _ ht)
    rw [hlength, List.map_cons, List.sum_cons, Nat.add_comm]

/-- All blocks but the last are nearly as long as a block may be. -/
theorem many_of_mem_cutFrom {length : Nat} {block : List Token} (hlength : length = (block.map Token.size).sum)
    (hvalid : ∀ t ∈ ts, t.Valid) :
    ∀ b ∈ (cutFrom length block ts).dropLast, longestBlock < (b.map Token.size).sum + 258 := by
  fun_induction cutFrom length block ts with
  | case1 => exact fun b hb => by cases hb
  | case2 length block t ts hfull ih =>
    have hsize := size_le_of_valid (hvalid t List.mem_cons_self)
    intro b hb
    rw [List.dropLast_cons_of_ne_nil (cutFrom_ne_nil _ _ _)] at hb
    rcases List.mem_cons.mp hb with rfl | hb
    · rw [List.map_reverse, List.sum_reverse, ← hlength]
      omega
    · exact ih (by simp) (fun t ht => hvalid t (List.mem_cons_of_mem _ ht)) b hb
  | case3 length block t ts hfits ih =>
    refine ih ?_ fun t ht => hvalid t (List.mem_cons_of_mem _ ht)
    rw [hlength, List.map_cons, List.sum_cons, Nat.add_comm]

/-- **Blocks cost three bytes each**, and there is one for every 130000 bytes that are begun. -/
theorem size_pushBlocks_le {tss : List (List Token)} (hsome : tss ≠ [])
    (hshort : ∀ ts ∈ tss, (ts.map Token.size).sum ≤ longestBlock)
    (hmany : ∀ ts ∈ tss.dropLast, longestBlock < (ts.map Token.size).sum + 258)
    (hspelled : Token.Spelled src pos tss.flatten src.size) (out : ByteArray) :
    (pushBlocks src pos out tss).size ≤ out.size + (src.size - pos) + 3 * ((src.size - pos) / 130000 + 1) := by
  induction tss generalizing pos out with
  | nil => exact absurd rfl hsome
  | cons ts rest ih =>
    rw [List.flatten_cons] at hspelled
    obtain ⟨hfirst, hrest⟩ := hspelled.split
    have hstop := hrest.stop_eq
    have hwrites := writes_blockOf hfirst (by omega) (by have := hshort ts List.mem_cons_self; omega)
    rw [Nat.add_sub_cancel_left] at hwrites
    have hsize := size_pushBlock src out rest.isEmpty (blockOf src pos (ts.map Token.size).sum ts)
    have hless := hwrites.short
    rw [pushBlocks_cons]
    cases rest with
    | nil =>
      have hall : pos + (ts.map Token.size).sum = src.size := hrest
      rw [pushBlocks]
      omega
    | cons next rest =>
      have hlong := hmany ts (by simp)
      have hlater := ih (List.cons_ne_nil _ _) (fun ts hts => hshort ts (List.mem_cons_of_mem _ hts))
        (fun ts hts => hmany ts (List.mem_cons_of_mem _ hts)) hrest
        (pushBlock src out (next :: rest).isEmpty (blockOf src pos (ts.map Token.size).sum ts))
      refine Nat.le_trans hlater ?_
      unfold longestBlock at hlong
      omega

end DedupImage.Zstd
