import DedupImage.Image.Medium
import DedupImage.Proofs.Bytes

/-!
# What stays on a medium

Bytes that were written are stored (`Stored`), and stay stored while writes go elsewhere. The writes of
an image go from the front to the back (`Ascending`), so if all of them succeed, all of them are stored
at the end (`writeEach_stored`), whatever the medium held before.
-/

namespace DedupImage

/-- The position behind the last byte of a write. -/
def PositionedWrite.stop (w : PositionedWrite) : Nat := w.position + w.data.size

namespace Medium

variable {bytes : ByteArray} {v w : PositionedWrite} {m m' : Medium}

/-! ## One write -/

theorem byteAt_put (bytes : ByteArray) (w : PositionedWrite) (i : Nat) :
    byteAt (put bytes w) i =
      if w.position ≤ i ∧ i < w.stop then byteAt w.data (i - w.position) else byteAt bytes i := by
  unfold put PositionedWrite.stop
  by_cases hgap : bytes.size < w.position
  · have hsize : bytes.size + (w.position - bytes.size) = w.position := by omega
    rw [if_pos hgap, byteAt_append, size_pushCopies, byteAt_pushCopies_zero, hsize]
    by_cases hbefore : i < w.position
    · simp [hbefore, Nat.not_le.mpr hbefore]
    · by_cases hinside : i < w.position + w.data.size
      · simp [hbefore, Nat.not_lt.mp hbefore, hinside]
      · simp only [hbefore, hinside, and_false, if_false]
        rw [byteAt_of_le (by omega), byteAt_of_le (by omega)]
  · rw [if_neg hgap, byteAt_overwrite (by omega)]

theorem size_put (bytes : ByteArray) (w : PositionedWrite) :
    (put bytes w).size = max bytes.size w.stop := by
  unfold put PositionedWrite.stop
  by_cases hgap : bytes.size < w.position
  · rw [if_pos hgap, ByteArray.size_append, size_pushCopies]
    omega
  · rw [if_neg hgap, size_overwrite (by omega)]

/-- The bytes of a write are there. -/
def Stored (bytes : ByteArray) (w : PositionedWrite) : Prop :=
  w.data.size = 0 ∨ holdsAt bytes w.position w.data = true

/-- Two writes do not touch each other. -/
def Apart (v w : PositionedWrite) : Prop := v.stop ≤ w.position ∨ w.stop ≤ v.position

theorem put_stored (bytes : ByteArray) (w : PositionedWrite) : Stored (put bytes w) w := by
  right
  rw [holdsAt_iff, size_put]
  refine ⟨Nat.le_max_right _ _, ?_⟩
  intro k hk
  rw [byteAt_put, if_pos ⟨by omega, by unfold PositionedWrite.stop; omega⟩]
  congr 1
  omega

/-- What is stored stays if a write goes elsewhere. -/
theorem Stored.put (h : Stored bytes v) (hapart : Apart v w) : Stored (put bytes w) v := by
  rcases h with h | h
  · exact .inl h
  · right
    obtain ⟨hstop, hbytes⟩ := holdsAt_iff.mp h
    rw [holdsAt_iff, size_put]
    refine ⟨by omega, ?_⟩
    intro k hk
    unfold Apart PositionedWrite.stop at hapart
    rw [byteAt_put, if_neg (by unfold PositionedWrite.stop; omega), hbytes k hk]

/-- A write that succeeds has no bytes, or is not refused and its bytes are put. -/
theorem writeAll_cases (h : m.writeAll w = .ok m') :
    (w.data.size = 0 ∧ m' = m) ∨
      (m.refuses m.writes w.position w.data.size = none ∧
        m' = { m with bytes := put m.bytes w, writes := m.writes + 1 }) := by
  unfold writeAll writeOnce at h
  by_cases hempty : w.data.size = 0
  · rw [if_pos hempty] at h
    exact .inl ⟨hempty, (Except.ok.inj h).symm⟩
  · rw [if_neg hempty] at h
    cases hrefused : m.refuses m.writes w.position w.data.size with
    | some e =>
      rw [hrefused] at h
      cases h
    | none =>
      rw [hrefused] at h
      exact .inr ⟨rfl, (Except.ok.inj h).symm⟩

/-- A write that succeeds is stored, and what is stored elsewhere stays. -/
theorem writeAll_stored (h : m.writeAll w = .ok m') :
    Stored m'.bytes w ∧ ∀ v, Apart v w → Stored m.bytes v → Stored m'.bytes v := by
  rcases writeAll_cases h with ⟨hempty, rfl⟩ | ⟨-, rfl⟩
  · exact ⟨.inl hempty, fun _ _ hv => hv⟩
  · exact ⟨put_stored m.bytes w, fun _ hapart hv => hv.put hapart⟩

/-! ## Writes in order -/

/-- Writes between two positions, each of them behind the one before it. -/
def Ascending : (low : Nat) → List PositionedWrite → (high : Nat) → Prop
  | low, [], high => low ≤ high
  | low, w :: ws, high => low ≤ w.position ∧ Ascending w.stop ws high

theorem Ascending.append {low middle high : Nat} {ws ws' : List PositionedWrite}
    (h : Ascending low ws middle) (h' : Ascending middle ws' high) : Ascending low (ws ++ ws') high := by
  induction ws generalizing low with
  | nil =>
    cases ws' with
    | nil => exact Nat.le_trans h h'
    | cons w ws' => exact ⟨Nat.le_trans h h'.1, h'.2⟩
  | cons w ws ih => exact ⟨h.1, ih h.2⟩

theorem Ascending.mono {low high high' : Nat} {ws : List PositionedWrite} (h : Ascending low ws high)
    (hle : high ≤ high') : Ascending low ws high' := by
  induction ws generalizing low with
  | nil => exact Nat.le_trans h hle
  | cons w ws ih => exact ⟨h.1, ih h.2⟩

theorem Ascending.low_le {low high : Nat} {ws : List PositionedWrite} (h : Ascending low ws high) :
    low ≤ high := by
  induction ws generalizing low with
  | nil => exact h
  | cons w ws ih =>
    have hrest := ih h.2
    unfold PositionedWrite.stop at hrest
    have := h.1
    omega

/-- All writes are between the two positions. -/
theorem Ascending.mem {low high : Nat} {ws : List PositionedWrite} (h : Ascending low ws high)
    (hw : w ∈ ws) : low ≤ w.position ∧ w.stop ≤ high := by
  induction ws generalizing low with
  | nil => cases hw
  | cons w' ws ih =>
    rcases List.mem_cons.mp hw with rfl | hw
    · exact ⟨h.1, h.2.low_le⟩
    · obtain ⟨hlow, hhigh⟩ := ih h.2 hw
      have := h.1
      unfold PositionedWrite.stop at hlow
      exact ⟨by omega, hhigh⟩

/-- Such writes do not touch each other. -/
theorem Ascending.apart {low high : Nat} {ws : List PositionedWrite} (h : Ascending low ws high) :
    ws.Pairwise Apart := by
  induction ws generalizing low with
  | nil => exact .nil
  | cons w ws ih =>
    refine .cons ?_ (ih h.2)
    intro w' hw'
    exact .inl (h.2.mem hw').1

/-- Writes that all succeed start with one that does. -/
theorem writeEach_cons {ws : List PositionedWrite} (h : m.writeEach (w :: ws) = (.ok (), m')) :
    ∃ next, m.writeAll w = .ok next ∧ next.writeEach ws = (.ok (), m') := by
  unfold writeEach at h
  cases hwrite : m.writeAll w with
  | error e =>
    rw [hwrite] at h
    cases h
  | ok next =>
    rw [hwrite] at h
    exact ⟨next, rfl, h⟩

/-- **Writes in order.** If all succeed, all are stored at the end; and so is what was stored before
them. -/
theorem writeEach_stored {low high : Nat} {ws : List PositionedWrite} (hws : Ascending low ws high)
    (h : m.writeEach ws = (.ok (), m')) :
    (∀ w ∈ ws, Stored m'.bytes w) ∧ ∀ v, v.stop ≤ low → Stored m.bytes v → Stored m'.bytes v := by
  induction ws generalizing m low with
  | nil =>
    obtain ⟨-, rfl⟩ := Prod.mk.inj h
    exact ⟨fun _ hw => absurd hw List.not_mem_nil, fun _ _ hv => hv⟩
  | cons w ws ih =>
    obtain ⟨next, hwrite, hrest⟩ := writeEach_cons h
    obtain ⟨hstored, hkept⟩ := writeAll_stored hwrite
    obtain ⟨hall, hbefore⟩ := ih hws.2 hrest
    have hlow := hws.1
    constructor
    · intro w' hw'
      rcases List.mem_cons.mp hw' with rfl | hw'
      · exact hbefore w' (Nat.le_refl _) hstored
      · exact hall w' hw'
    · intro v hv hvstored
      have hstop : v.stop ≤ w.stop := by
        unfold PositionedWrite.stop at hv ⊢
        omega
      exact hbefore v hstop (hkept v (.inl (Nat.le_trans hv hlow)) hvstored)

/-! ## The end of a medium -/

theorem writeAll_size_le {high : Nat} (h : m.writeAll w = .ok m') (hm : m.bytes.size ≤ high)
    (hw : w.stop ≤ high) : m'.bytes.size ≤ high := by
  rcases writeAll_cases h with ⟨-, rfl⟩ | ⟨-, rfl⟩
  · exact hm
  · rw [size_put]
    omega

/-- Writes that end below a position do not take a medium further. -/
theorem writeEach_size_le {high : Nat} {ws : List PositionedWrite}
    (h : m.writeEach ws = (.ok (), m')) (hm : m.bytes.size ≤ high)
    (hws : ∀ w ∈ ws, w.stop ≤ high) : m'.bytes.size ≤ high := by
  induction ws generalizing m with
  | nil =>
    obtain ⟨-, rfl⟩ := Prod.mk.inj h
    exact hm
  | cons w ws ih =>
    obtain ⟨next, hwrite, hrest⟩ := writeEach_cons h
    have hnext := writeAll_size_le hwrite hm (hws w List.mem_cons_self)
    exact ih hrest hnext fun w' hw' => hws w' (List.mem_cons_of_mem w hw')

/-- Stored bytes are inside the medium. -/
theorem Stored.stop_le (h : Stored bytes w) (hsome : 0 < w.data.size) : w.stop ≤ bytes.size := by
  rcases h with h | h
  · omega
  · exact (holdsAt_iff.mp h).1

/-- Writes that succeed one after the other, and then one more. -/
theorem writeEach_append_singleton {ws : List PositionedWrite} {before : Medium}
    (h : m.writeEach ws = (.ok (), before)) (hlast : before.writeAll w = .ok m') :
    m.writeEach (ws ++ [w]) = (.ok (), m') := by
  induction ws generalizing m with
  | nil =>
    obtain ⟨-, rfl⟩ := Prod.mk.inj h
    simp only [List.nil_append, writeEach, hlast]
  | cons first ws ih =>
    obtain ⟨next, hwrite, hrest⟩ := writeEach_cons h
    rw [List.cons_append, writeEach, hwrite]
    exact ih hrest

/-! ## Positions as words -/

/-- The positions of a medium are words of 64 bits: it takes no write that reaches further. -/
def Bounded (m : Medium) : Prop :=
  ∀ n position length, 2 ^ 64 ≤ position + length → m.refuses n position length ≠ none

theorem limited_bounded {limit : Nat} (h : limit < 2 ^ 64) : (limited limit).Bounded := by
  intro n position length hpast
  have hover : limit < position + length := by omega
  simp [limited, hover]

/-- What such a medium takes is within the words, and it is still such a medium. -/
theorem Bounded.writeAll (hm : m.Bounded) (h : m.writeAll w = .ok m') :
    m'.Bounded ∧ (0 < w.data.size → w.stop < 2 ^ 64) := by
  rcases writeAll_cases h with ⟨hempty, rfl⟩ | ⟨hrefused, rfl⟩
  · exact ⟨hm, fun hsome => absurd hempty (Nat.pos_iff_ne_zero.mp hsome)⟩
  · refine ⟨hm, ?_⟩
    intro _
    by_cases hstop : w.stop < 2 ^ 64
    · exact hstop
    · exact absurd hrefused (hm _ _ _ (Nat.not_lt.mp hstop))

theorem Bounded.writeEach {ws : List PositionedWrite} (hm : m.Bounded)
    (h : m.writeEach ws = (.ok (), m')) : ∀ w ∈ ws, 0 < w.data.size → w.stop < 2 ^ 64 := by
  induction ws generalizing m with
  | nil =>
    intro w hw
    cases hw
  | cons w ws ih =>
    obtain ⟨next, hwrite, hrest⟩ := writeEach_cons h
    obtain ⟨hnext, hstop⟩ := hm.writeAll hwrite
    intro w' hw'
    rcases List.mem_cons.mp hw' with rfl | hw'
    · exact hstop
    · exact ih hnext hrest w' hw'

end Medium

end DedupImage
