import DedupImage.Codec.Repetition
import DedupImage.Proofs.Codec.Tokens

/-!
# The tokens of a text spell it

Where the bytes of a copy are looked for does not matter: how far two places agree is counted byte by byte, so
every copy that is found repeats bytes that come again (`Repetition.repeats_of_copyAt?`). A copy that waits began
one byte earlier. So the tokens so far, and the copy that waits, spell the text up to the place that is looked
at, and in the end all of it (`Repetition.spelled_tokens`).
-/

namespace DedupImage.Repetition

variable {src : ByteArray} {pos i j n : Nat}

theorem commonLength_spec (src : ByteArray) (i j n : Nat) :
    commonLength src i j n ≤ n ∧
      ∀ k < commonLength src i j n, byteAt src (i + k) = byteAt src (j + k) := by
  induction n generalizing i j with
  | zero => exact ⟨Nat.le_refl 0, fun k hk => by cases hk⟩
  | succ n ih =>
    rw [commonLength]
    split
    next hbyte =>
      obtain ⟨hle, hagree⟩ := ih (i + 1) (j + 1)
      refine ⟨Nat.succ_le_succ hle, fun k hk => ?_⟩
      cases k with
      | zero => exact eq_of_beq hbyte
      | succ k =>
        have := hagree k (Nat.lt_of_succ_lt_succ hk)
        rwa [Nat.add_assoc, Nat.add_assoc, Nat.add_comm 1 k] at this
    · exact ⟨Nat.zero_le _, fun k hk => by cases hk⟩

/-- Whether a copy repeats bytes that come again at `pos`, at most `most` of them and from at most `reach`
bytes before. -/
structure Repeats (src : ByteArray) (pos reach most : Nat) (c : Copy) : Prop where
  short : c.length ≤ most
  near : c.distance ≤ reach
  inside : c.distance ≤ pos
  again : ∀ k < c.length, byteAt src (pos - c.distance + k) = byteAt src (pos + k)

/-- The copy that is found repeats bytes, unless it has no distance. -/
theorem longest_repeats (links : Array Nat) {reach most : Nat} (place patience : Nat) {best : Copy}
    (hbest : best.distance = 0 ∨ Repeats src pos reach most best) :
    (longest src links pos reach most place best patience).distance = 0 ∨
      Repeats src pos reach most (longest src links pos reach most place best patience) := by
  fun_induction longest src links pos reach most place best patience with
  | case1 => exact hbest
  | case2 place best patience hgo hagrees length best' ih =>
    apply ih
    change (if best.length < length then (⟨length, pos - place⟩ : Copy) else best).distance = 0 ∨
      Repeats src pos reach most (if best.length < length then ⟨length, pos - place⟩ else best)
    split
    · rcases Nat.eq_zero_or_pos (pos - place) with hzero | hback
      · exact .inl hzero
      · obtain ⟨hle, hagree⟩ := commonLength_spec src place pos most
        refine .inr ⟨hle, ?_, Nat.sub_le _ _, ?_⟩
        · dsimp only
          omega
        · intro k hk
          dsimp only
          rw [show pos - (pos - place) = place by omega]
          exact hagree k hk
    · exact hbest
  | case3 place best patience hgo hagrees ih => exact ih hbest

/-- The token of a copy. -/
def Copy.token (c : Copy) : Token := .copy c.length c.distance

/-- **A copy that is made is one that a stream can hold, and spells the bytes that come next.** -/
theorem repeats_of_copyAt? {level least : Nat} {links : Array Nat} {c : Copy}
    (h : copyAt? level src links pos least = some c) : c.token.Valid ∧ c.token.Spells src pos := by
  unfold copyAt? at h
  dsimp only at h
  split at h
  · cases h
  next hgood =>
    obtain rfl := Option.some.inj h
    have hnone : (⟨least, 0⟩ : Copy).distance = 0 ∨ Repeats src pos
        (Token.window - min Token.longestCopy (src.size - pos)) (min Token.longestCopy (src.size - pos))
        ⟨least, 0⟩ :=
      .inl rfl
    have hfound := longest_repeats links (links.getD pos 0) (patience level least) hnone
    generalize longest src links pos _ _ _ _ _ = c at *
    simp only [not_or] at hgood
    have hrepeats := hfound.resolve_left hgood.1
    have hshort := hrepeats.short
    have hnear := hrepeats.near
    unfold Token.shortestCopy at hgood
    refine ⟨⟨⟨by unfold Token.shortestCopy; omega, by omega⟩, by omega, by omega⟩, hrepeats.inside, by omega,
      hrepeats.again⟩

/-- Whether the tokens so far, and the copy that waits, fit the place that is looked at. -/
def Ready (src : ByteArray) (pos : Nat) (waiting : Option Copy) (out : Array Token) : Prop :=
  match waiting with
  | none => Token.Spelled src 0 out.toList pos
  | some w => ∃ start, start + 1 = pos ∧ Token.Spelled src 0 out.toList start ∧ w.token.Valid ∧
      w.token.Spells src start

theorem spelled_push {out : Array Token} {t : Token} {stop : Nat} (h : Token.Spelled src 0 out.toList pos)
    (hvalid : t.Valid) (hspells : t.Spells src pos) (hstop : pos + t.size = stop) :
    Token.Spelled src 0 (out.push t).toList stop := by
  rw [Array.toList_push]
  exact Token.spelled_append h ⟨⟨hvalid, hspells⟩, hstop⟩

/-- The token of a byte spells it. -/
theorem literal_spells (h : pos < src.size) :
    (Token.literal (byteAt src pos)).Valid ∧ (Token.literal (byteAt src pos)).Spells src pos :=
  ⟨trivial, h, rfl⟩

/-- A copy takes three bytes or more of the text. -/
theorem shortest_le_of_spells {w : Copy} (hvalid : w.token.Valid) (hspells : w.token.Spells src pos) :
    3 ≤ w.length ∧ pos + w.length ≤ src.size :=
  ⟨hvalid.1.1, hspells.stop_le⟩

/-- The tokens so far and the first byte of a copy that is given up end where the next copy begins. -/
theorem giveUp_spelled {waiting : Option Copy} {out : Array Token} (h : Ready src pos waiting out) :
    Token.Spelled src 0 (giveUp src pos waiting out).toList pos := by
  cases waiting with
  | none => exact h
  | some w =>
    obtain ⟨start, rfl, hout, hvalid, hspells⟩ := h
    have hinside := shortest_le_of_spells hvalid hspells
    obtain ⟨hvalid, hliteral⟩ := literal_spells (show start < src.size by omega)
    exact spelled_push hout hvalid hliteral rfl

/-- **The tokens of a text spell it**, from the place that is looked at on. -/
theorem tokensFrom_spelled {level : Nat} {links : Array Nat} {waiting : Option Copy} {out : Array Token}
    (hpos : pos ≤ src.size) (h : Ready src pos waiting out) :
    Token.Spelled src 0 (tokensFrom level src links pos waiting out).toList src.size := by
  fun_induction tokensFrom level src links pos waiting out with
  | case1 pos waiting out hmore c hcopy out' hlong ih =>
    obtain ⟨hvalid, hspells⟩ := repeats_of_copyAt? hcopy
    exact ih hspells.stop_le (spelled_push (giveUp_spelled h) hvalid hspells rfl)
  | case2 pos waiting out hmore c hcopy out' hshort ih =>
    obtain ⟨hvalid, hspells⟩ := repeats_of_copyAt? hcopy
    exact ih hmore ⟨pos, rfl, giveUp_spelled h, hvalid, hspells⟩
  | case3 pos out hmore hnone ih =>
    obtain ⟨hvalid, hspells⟩ := literal_spells hmore
    exact ih hmore (spelled_push h hvalid hspells rfl)
  | case4 pos out hmore w hnone ih =>
    obtain ⟨start, rfl, hout, hvalid, hspells⟩ := h
    have hinside := shortest_le_of_spells hvalid hspells
    have hstop : start + w.length = start + 1 + (w.length - 2) + 1 := by omega
    exact ih (by omega) (spelled_push hout hvalid hspells hstop)
  | case5 pos out hend =>
    obtain rfl : pos = src.size := by omega
    exact h
  | case6 pos out hend w =>
    -- a copy that waits would go past the end
    obtain ⟨start, rfl, -, hvalid, hspells⟩ := h
    have hinside := shortest_le_of_spells hvalid hspells
    omega

/-- **The tokens of a text spell all of it.** -/
theorem spelled_tokens (level : Nat) (src : ByteArray) :
    Token.Spelled src 0 (tokens level src) src.size :=
  tokensFrom_spelled (Nat.zero_le _) rfl

end DedupImage.Repetition
