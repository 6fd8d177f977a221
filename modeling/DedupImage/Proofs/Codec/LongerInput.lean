import DedupImage.Proofs.Codec.TransmittedCodes

/-!
# Reading on in a longer input

A reader of a Deflate stream looks at bits one after the other and stops at the end of the last block. So
what it makes of a stream it also makes of any input that begins with it, and if the bytes find room, they
find more room too (`Inflate.stream_append`). Room is never exceeded (`Inflate.stream_size_le`).

There is one law of each kind for each reader, from single bits up to the whole stream.
-/

namespace DedupImage

variable {src : ByteArray} {pos stop : Nat}

/-! ## Bits and symbols -/

namespace Bits

theorem readNumber_append {n v : Nat} (h : readNumber src pos n = .ok (v, stop)) (tail : ByteArray) :
    readNumber (src ++ tail) pos n = .ok (v, stop) := by
  induction n generalizing pos v stop with
  | zero => exact h
  | succ n ih =>
    rw [readNumber] at h ⊢
    split at h
    · cases h
    next hbit =>
    split at h
    · cases h
    next hrest =>
    simp only [bit?_append hbit tail, ih hrest]
    exact h

end Bits

namespace CodeTree

variable {t : CodeTree} {s : Nat}

theorem walk_append (h : walk src t pos = .ok (s, stop)) (tail : ByteArray) :
    walk (src ++ tail) t pos = .ok (s, stop) := by
  induction t generalizing pos with
  | hole => cases h
  | leaf symbol => exact h
  | node zero one ihzero ihone =>
    rw [walk] at h ⊢
    split at h
    · cases h
    next hbit =>
      simp only [Bits.bit?_append hbit tail]
      exact ihzero h
    next hbit =>
      simp only [Bits.bit?_append hbit tail]
      exact ihone h

theorem readSymbol_append (h : readSymbol src t pos = .ok (s, stop)) (tail : ByteArray) :
    readSymbol (src ++ tail) t pos = .ok (s, stop) := by
  unfold readSymbol at h ⊢
  split at h
  · cases h
  next hbit =>
  simp only [Bits.bit?_append hbit tail]
  exact walk_append h tail

end CodeTree

namespace Token

variable {symbols distances : CodeTree} {room room' : Nat} {out out' : ByteArray}

theorem readValue_append {classes : Array (Nat × Nat)} {c value : Nat}
    (h : readValue classes src c pos = .ok (value, stop)) (tail : ByteArray) :
    readValue classes (src ++ tail) c pos = .ok (value, stop) := by
  unfold readValue at h ⊢
  split at h
  · cases h
  split at h
  · cases h
  next habove =>
  simp only [Bits.readNumber_append habove tail]
  exact h

theorem read_append {t : Option Token} (h : read src symbols distances pos = .ok (t, stop))
    (tail : ByteArray) : read (src ++ tail) symbols distances pos = .ok (t, stop) := by
  unfold read at h ⊢
  split at h
  · cases h
  next hsymbol =>
  simp only [CodeTree.readSymbol_append hsymbol tail]
  split at h
  next hliteral =>
    rw [if_pos hliteral]
    exact h
  next hliteral =>
  rw [if_neg hliteral]
  split at h
  next hend =>
    rw [if_pos hend]
    exact h
  next hend =>
  rw [if_neg hend]
  split at h
  · cases h
  next hlength =>
  simp only [readValue_append hlength tail]
  split at h
  · cases h
  next hdistance =>
  simp only [CodeTree.readSymbol_append hdistance tail]
  split at h
  · cases h
  next hback =>
  simp only [readValue_append hback tail]
  exact h

/-- What a token produces in some room it produces in more. -/
theorem apply_of_le {t : Token} (h : t.apply room out = .ok out') (hroom : room ≤ room') :
    t.apply room' out = .ok out' := by
  cases t with
  | literal byte =>
    rw [apply] at h ⊢
    split at h
    · rw [if_pos (by omega)]
      exact h
    · cases h
  | copy length distance =>
    rw [apply] at h ⊢
    split at h
    · cases h
    · rw [if_neg ‹_›]
      split at h
      · rw [if_pos (by omega)]
        exact h
      · cases h

theorem size_copyBack (out : ByteArray) (distance n : Nat) :
    (copyBack out distance n).size = out.size + n := by
  induction n generalizing out with
  | zero => rfl
  | succ n ih =>
    rw [copyBack, ih, ByteArray.size_push]
    omega

/-- No token exceeds the room. -/
theorem apply_size_le {t : Token} (h : t.apply room out = .ok out') : out'.size ≤ room := by
  cases t with
  | literal byte =>
    rw [apply] at h
    split at h
    · obtain rfl := Except.ok.inj h
      rw [ByteArray.size_push]
      omega
    · cases h
  | copy length distance =>
    rw [apply] at h
    split at h
    · cases h
    · split at h
      · obtain rfl := Except.ok.inj h
        rw [size_copyBack]
        omega
      · cases h

end Token

/-! ## Blocks -/

namespace Inflate

variable {symbols distances code : CodeTree} {room room' n : Nat} {out out' : ByteArray}

theorem codedBlock_append (h : codedBlock src symbols distances room pos out = .ok (out', stop))
    (hroom : room ≤ room') (tail : ByteArray) :
    codedBlock (src ++ tail) symbols distances room' pos out = .ok (out', stop) := by
  fun_induction codedBlock src symbols distances room pos out with
  | case1 => cases h
  | case2 pos out stop' hread =>
    rw [codedBlock_eq, Token.read_append hread tail]
    exact h
  | case3 => cases h
  | case4 pos out t stop' hread out'' happly ih =>
    rw [codedBlock_eq, Token.read_append hread tail]
    simp only [Token.apply_of_le happly hroom]
    exact ih h

theorem codedBlock_size_le (h : codedBlock src symbols distances room pos out = .ok (out', stop))
    (hout : out.size ≤ room) : out'.size ≤ room := by
  fun_induction codedBlock src symbols distances room pos out with
  | case1 => cases h
  | case2 =>
    obtain ⟨rfl, -⟩ := Prod.mk.inj (Except.ok.inj h)
    exact hout
  | case3 => cases h
  | case4 pos out t stop' hread out'' happly ih => exact ih h (Token.apply_size_le happly)

theorem storedBlock_append (h : storedBlock src room pos out = .ok (out', stop))
    (hroom : room ≤ room') (tail : ByteArray) :
    storedBlock (src ++ tail) room' pos out = .ok (out', stop) := by
  unfold storedBlock at h ⊢
  dsimp only at h ⊢
  split at h
  next hheader =>
    rw [if_pos (by rw [ByteArray.size_append]; omega), numberAt_append_left (by omega),
      numberAt_append_left (by omega)]
    split at h
    next hlength =>
      rw [if_pos hlength]
      split at h
      next hfits =>
        rw [if_pos (by rw [ByteArray.size_append]; omega), slice_append tail hfits.1]
        exact h
      · cases h
    · cases h
  · cases h

theorem storedBlock_size_le (h : storedBlock src room pos out = .ok (out', stop)) :
    out'.size ≤ room := by
  unfold storedBlock at h
  dsimp only at h
  split at h
  · split at h
    · split at h
      next hfits =>
        obtain ⟨rfl, -⟩ := Prod.mk.inj (Except.ok.inj h)
        rw [ByteArray.size_append, size_slice_of_le hfits.1]
        exact hfits.2
      · cases h
    · cases h
  · cases h

/-! ## Transmitted codes -/

theorem shortLengths_append {lengths lengths' : Array Nat} {order : List Nat}
    (h : shortLengths src pos lengths order = .ok (lengths', stop)) (tail : ByteArray) :
    shortLengths (src ++ tail) pos lengths order = .ok (lengths', stop) := by
  induction order generalizing pos lengths with
  | nil => exact h
  | cons symbol rest ih =>
    rw [shortLengths] at h ⊢
    split at h
    · cases h
    next hnumber =>
    simp only [Bits.readNumber_append hnumber tail]
    exact ih h

theorem lengthRun_append {last : Option Nat} {l : Nat}
    (h : lengthRun src code pos last = .ok (n, l, stop)) (tail : ByteArray) :
    lengthRun (src ++ tail) code pos last = .ok (n, l, stop) := by
  unfold lengthRun at h ⊢
  split at h
  · cases h
  next hsymbol =>
  simp only [CodeTree.readSymbol_append hsymbol tail]
  split at h
  next hone =>
    rw [if_pos hone]
    exact h
  next hone =>
  rw [if_neg hone]
  split at h
  next hagain =>
    rw [if_pos hagain]
    split at h
    · cases h
    split at h
    · cases h
    next hcount =>
    simp only [Bits.readNumber_append hcount tail]
    exact h
  next hagain =>
  rw [if_neg hagain]
  split at h
  next hshort =>
    rw [if_pos hshort]
    split at h
    · cases h
    next hcount =>
    simp only [Bits.readNumber_append hcount tail]
    exact h
  next hshort =>
  rw [if_neg hshort]
  split at h
  · cases h
  next hcount =>
  simp only [Bits.readNumber_append hcount tail]
  exact h

theorem wordLengths_append {count : Nat} {lengths lengths' : Array Nat}
    (h : wordLengths src code count pos lengths = .ok (lengths', stop)) (tail : ByteArray) :
    wordLengths (src ++ tail) code count pos lengths = .ok (lengths', stop) := by
  fun_induction wordLengths src code count pos lengths with
  | case1 => cases h
  | case2 pos lengths hmore n l pos' hrun ih =>
    rw [wordLengths_eq, if_pos hmore, lengthRun_append hrun tail]
    exact ih h
  | case3 pos lengths hmore hall =>
    rw [wordLengths_eq, if_neg hmore, if_pos hall]
    exact h
  | case4 => cases h

theorem transmittedCode_append (h : transmittedCode src pos = .ok (symbols, distances, stop))
    (tail : ByteArray) : transmittedCode (src ++ tail) pos = .ok (symbols, distances, stop) := by
  unfold transmittedCode at h ⊢
  simp only [bind, Except.bind] at h ⊢
  split at h
  · cases h
  next hsymbols =>
  simp only [Bits.readNumber_append hsymbols tail]
  split at h
  · cases h
  next hdistances =>
  simp only [Bits.readNumber_append hdistances tail]
  split at h
  · cases h
  next hshort =>
  simp only [Bits.readNumber_append hshort tail]
  split at h
  · cases h
  next hcounts =>
  rw [if_neg hcounts]
  split at h
  · cases h
  next hlengths =>
  simp only [shortLengths_append hlengths tail]
  split at h
  · cases h
  split at h
  · cases h
  next hwords =>
  simp only [wordLengths_append hwords tail]
  exact h

/-! ## Streams -/

theorem block_append {kind : Nat} (h : block src kind room pos out = .ok (out', stop))
    (hroom : room ≤ room') (tail : ByteArray) :
    block (src ++ tail) kind room' pos out = .ok (out', stop) := by
  unfold block at h ⊢
  split at h
  next hstored =>
    rw [if_pos hstored]
    exact storedBlock_append h hroom tail
  next hstored =>
  rw [if_neg hstored]
  split at h
  next hfixed =>
    rw [if_pos hfixed]
    exact codedBlock_append h hroom tail
  next hfixed =>
  rw [if_neg hfixed]
  split at h
  next hkind =>
    rw [if_pos hkind]
    split at h
    · cases h
    next hcode =>
    simp only [transmittedCode_append hcode tail]
    exact codedBlock_append h hroom tail
  · cases h

theorem block_size_le {kind : Nat} (h : block src kind room pos out = .ok (out', stop))
    (hout : out.size ≤ room) : out'.size ≤ room := by
  unfold block at h
  split at h
  · exact storedBlock_size_le h
  split at h
  · exact codedBlock_size_le h hout
  split at h
  · split at h
    · cases h
    · exact codedBlock_size_le h hout
  · cases h

theorem blocks_append {m : Nat} (h : blocks src room pos out n = .ok (out', stop))
    (hroom : room ≤ room') (hn : n ≤ m) (tail : ByteArray) :
    blocks (src ++ tail) room' pos out m = .ok (out', stop) := by
  induction n generalizing pos out m with
  | zero => cases h
  | succ n ih =>
    obtain ⟨m, rfl⟩ : ∃ m', m = m' + 1 := ⟨m - 1, by omega⟩
    rw [blocks] at h ⊢
    split at h
    · cases h
    next hheader =>
    simp only [Bits.readNumber_append hheader tail]
    split at h
    · cases h
    next hblock =>
    simp only [block_append hblock hroom tail]
    split at h
    next hlast =>
      rw [if_pos hlast]
      exact h
    next hlast =>
      rw [if_neg hlast]
      exact ih h (by omega)

theorem blocks_size_le (h : blocks src room pos out n = .ok (out', stop)) (hout : out.size ≤ room) :
    out'.size ≤ room := by
  induction n generalizing pos out with
  | zero => cases h
  | succ n ih =>
    rw [blocks] at h
    split at h
    · cases h
    split at h
    · cases h
    next hblock =>
    split at h
    · obtain ⟨rfl, -⟩ := Prod.mk.inj (Except.ok.inj h)
      exact block_size_le hblock hout
    · exact ih h (block_size_le hblock hout)

/-- **A stream is read the same in a longer input, and with more room.** -/
theorem stream_append (h : stream src room pos = .ok (out, stop)) (hroom : room ≤ room')
    (tail : ByteArray) : stream (src ++ tail) room' pos = .ok (out, stop) := by
  apply blocks_append h hroom
  unfold Bits.total
  rw [ByteArray.size_append]
  omega

/-- **A stream never exceeds the room.** -/
theorem stream_size_le (h : stream src room pos = .ok (out, stop)) : out.size ≤ room :=
  blocks_size_le h (Nat.zero_le room)

end Inflate

end DedupImage
