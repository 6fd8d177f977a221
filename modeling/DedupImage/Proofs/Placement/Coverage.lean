import DedupImage.Proofs.Placement.DistinctBlocks

/-!
# The window index keeps up with the containers

A placement whose catalog loses nothing finds what it stored, not only block by block. For a container and
an announced block size, every window that was complete when the container was last entered is covered
(`Covers`), and the container has grown by less than the interval since (`CaughtUp`).

Entering windows brings both about for one block size, and the fold over the block sizes for all of them,
for no block size touches what is noted for another (`windowedSize_enterWindows`). A write is followed by
this fold. Every other step notes nothing and writes nothing, so there is only to show that what was
covered stays covered, which is `takeHit_covered` where a window becomes a block.
-/

namespace DedupImage.Placement

variable {ι : Type} {p q : Placement ι}

/-! ## The size last entered -/

theorem SameNotes.windowedSize (h : SameNotes p q) (container blockSize : Nat) :
    q.windowedSize container blockSize = p.windowedSize container blockSize := by
  unfold Placement.windowedSize
  rw [h.windowed]

/-- Since its windows of a length were last entered, a container has grown by less than the interval, or
not at all if there is none. -/
def CaughtUp (p : Placement ι) (container blockSize : Nat) : Prop :=
  p.store.size container - p.windowedSize container blockSize < max 1 p.settings.windowInterval

/-- A container that did not grow is caught up if it was. -/
theorem CaughtUp.same {container blockSize : Nat} (h : p.CaughtUp container blockSize)
    (hsettings : q.settings = p.settings) (hnotes : p.SameNotes q)
    (hsize : q.store.size container = p.store.size container) : q.CaughtUp container blockSize := by
  unfold CaughtUp
  rw [hsettings, hnotes.windowedSize, hsize]
  exact h

variable [Catalog ι]

/-- What is noted for a container and a block size changes only when its windows are entered. -/
theorem windowedSize_enterWindows (p : Placement ι) {container size blockSize c b : Nat}
    {overlapped : Bool} (hblock : blockSize < 2 ^ 32) (hb : b < 2 ^ 32) :
    (p.enterWindows container size overlapped blockSize).windowedSize c b =
      if p.windowsDue container blockSize size overlapped = true ∧ container = c ∧ blockSize = b then size
      else p.windowedSize c b := by
  by_cases hdue : p.windowsDue container blockSize size overlapped = true
  · unfold enterWindows windowedSize
    rw [if_pos hdue]
    dsimp only
    rw [(p.addWindows_notes _ _ _ _).windowed, Std.TreeMap.getD_insert]
    split
    · rw [if_pos ⟨hdue, windowKey_injective hblock hb (Std.compare_eq_iff_eq.mp ‹_›)⟩]
    · rename_i hkey
      rw [if_neg]
      rintro ⟨-, rfl, rfl⟩
      exact hkey (Std.compare_eq_iff_eq.mpr rfl)
  · rw [if_neg fun h => hdue h.1]
    unfold enterWindows
    rw [if_neg hdue]

theorem enterWindows_caughtUp {container size blockSize : Nat} {overlapped : Bool}
    (hsize : p.store.size container = size) (hblock : blockSize < 2 ^ 32) :
    (p.enterWindows container size overlapped blockSize).CaughtUp container blockSize := by
  have halike := p.enterWindows_alike container size overlapped blockSize
  unfold CaughtUp
  rw [windowedSize_enterWindows p hblock hblock, halike.store, halike.settings, hsize]
  split
  · omega
  · rename_i hdue
    have hgrowth : ¬ p.settings.windowInterval ≤ size - p.windowedSize container blockSize := by
      intro hle
      refine hdue ⟨?_, rfl, rfl⟩
      unfold windowsDue
      rw [decide_eq_true hle]
      rfl
    omega

theorem CaughtUp.enterWindows {container size blockSize c b : Nat} {overlapped : Bool}
    (h : p.CaughtUp c b) (hsize : p.store.size container = size) (hblock : blockSize < 2 ^ 32)
    (hb : b < 2 ^ 32) : (p.enterWindows container size overlapped blockSize).CaughtUp c b := by
  have halike := p.enterWindows_alike container size overlapped blockSize
  unfold CaughtUp at h ⊢
  rw [windowedSize_enterWindows p hblock hb, halike.store, halike.settings]
  split
  · rename_i hentered
    rw [← hentered.2.1, hsize]
    omega
  · exact h

/-- Entering the windows of several lengths catches up with all of them, and falls behind nowhere. -/
theorem foldl_enterWindows_caughtUp {container size : Nat} (overlapped : Bool) {blockSizes : List Nat}
    (hsize : p.store.size container = size) (hblocks : ∀ b ∈ blockSizes, b < 2 ^ 32) :
    let q := blockSizes.foldl (fun p blockSize => p.enterWindows container size overlapped blockSize) p
    (∀ b ∈ blockSizes, q.CaughtUp container b) ∧
      ∀ c b, b < 2 ^ 32 → p.CaughtUp c b → q.CaughtUp c b := by
  intro q
  induction blockSizes generalizing p with
  | nil => exact ⟨fun b hb => (nomatch hb), fun c b _ h => h⟩
  | cons n rest ih =>
    have hn := hblocks n List.mem_cons_self
    have halike := p.enterWindows_alike container size overlapped n
    obtain ⟨hrest, hkept⟩ := ih (p := p.enterWindows container size overlapped n) (halike.store ▸ hsize)
      fun b hb => hblocks b (List.mem_cons_of_mem n hb)
    refine ⟨fun b hb => ?_, fun c b hb h => hkept c b hb (h.enterWindows hsize hn hb)⟩
    rcases List.mem_cons.mp hb with rfl | hb
    · exact hkept container b hn (enterWindows_caughtUp hsize hn)
    · exact hrest b hb

/-! ## Windows that are covered -/

variable {V : FullView ι} {S : Set ByteArray}

omit [Catalog ι] in
/-- A complete window keeps its bytes. -/
theorem Extends.windowAt (h : Extends p q) {container blockSize i : Nat}
    (hend : i * max p.settings.windowPeriod 1 + blockSize ≤ p.store.size container) :
    q.windowAt container blockSize i = p.windowAt container blockSize i := by
  unfold Placement.windowAt
  rw [h.settings, h.store.slice_eq hend]

/-- The windows of an announced length that were complete when their container was last entered were
hashed, and are covered. -/
def Covers (V : FullView ι) (S : Set ByteArray) (p : Placement ι) : Prop :=
  ∀ b ∈ p.blockSizes, ∀ c i, i * max p.settings.windowPeriod 1 + b ≤ p.windowedSize c b →
    p.windowAt c b i ∈ S ∧ Covered V p (p.windowAt c b i)

/-- Steps that note nothing keep windows covered if they keep strings covered. -/
theorem Covers.later (h : Covers V S p) (hentered : p.Entered) (hext : p.Extends q)
    (hnotes : p.SameNotes q) (hkept : ∀ w ∈ S, Covered V p w → Covered V q w) : Covers V S q := by
  intro b hb c i hi
  rw [hnotes.blockSizes] at hb
  rw [hnotes.windowedSize, hext.settings] at hi
  have hend := Nat.le_trans hi (hentered.windowed c b (hentered.blockSizes b hb))
  obtain ⟨hmem, hcovered⟩ := h b hb c i hi
  rw [hext.windowAt hend]
  exact ⟨hmem, hkept _ hmem hcovered⟩

/-- Windows of this container can be entered: it exists and has this size, and the catalog is there. -/
structure Enterable (V : FullView ι) (p : Placement ι) (container size : Nat) : Prop where
  consistent : p.Consistent
  entered : p.Entered
  index : ∃ x, p.index = some x
  valid : IndexValid V.toKeepingView p
  count_le : p.store.count ≤ 2 ^ 32
  container_lt : container < p.store.count
  size : p.store.size container = size

theorem Enterable.alike {container size : Nat} (h : Enterable V p container size) (halike : Alike p q)
    (hasked : Asked p q) (hentered : q.Entered) : Enterable V q container size where
  consistent := halike.consistent h.consistent
  entered := hentered
  index := by
    obtain ⟨x, hx⟩ := h.index
    obtain ⟨y, hy, -⟩ := hasked.after hx
    exact ⟨y, hy⟩
  valid := h.valid.asked hasked
  count_le := halike.store ▸ h.count_le
  container_lt := halike.store ▸ h.container_lt
  size := halike.store ▸ h.size

omit [Catalog ι] in
/-- A complete stretch is stored where it is. -/
theorem holds_slice (hp : p.Consistent) (hcount : p.store.count ≤ 2 ^ 32) {container start n : Nat}
    (hcontainer : container < p.store.count) (hend : start + n ≤ p.store.size container) :
    p.store.holds (Location.ofNat container start) (slice (p.store.data container) start n) = true := by
  have hstart : start < 2 ^ 32 := by
    have := hp.store.size_le container
    have := hp.capacity_lt
    omega
  have hsize := size_slice_of_le (b := p.store.data container) hend
  rw [ContainerStore.holds_iff, Location.container_ofNat (by omega), Location.offset_ofNat hstart,
    holdsAt_iff_slice, hsize]
  exact ⟨hcontainer, hend, rfl⟩

theorem addWindows_covered {container size blockSize first n i : Nat}
    (h : Enterable V p container size)
    (hends : ∀ i < first + n, i * max p.settings.windowPeriod 1 + blockSize ≤ size)
    (hintact : IndexIntact V.toKeepingView (p.addWindows container blockSize first n))
    (hfirst : first ≤ i) (hi : i < first + n) :
    Covered V (p.addWindows container blockSize first n) (p.windowAt container blockSize i) := by
  induction n generalizing p first with
  | zero => omega
  | succ n ih =>
    obtain ⟨x, hx⟩ := h.index
    let l := Location.ofNat container (first * max p.settings.windowPeriod 1)
    let q := p.addWindow l (p.windowAt container blockSize first)
    have halike : Alike p q := p.addWindow_alike _ _
    have hasked : Asked p q := (p.addWindow_gathers (V := V) _ _).asked
    have hq : Enterable V q container size := h.alike halike hasked
      (h.entered.of_extends halike.extends (p.addWindow_notes _ _))
    have hgathers := q.addWindows_gathers (V := V) container blockSize (first + 1) n
    change Covered V (q.addWindows container blockSize (first + 1) n) _
    change IndexIntact _ (q.addWindows container blockSize (first + 1) n) at hintact
    rcases Nat.eq_or_lt_of_le hfirst with rfl | hlt
    · have hholds : p.store.holds l (p.windowAt container blockSize first) = true :=
        holds_slice h.consistent h.count_le h.container_lt (h.size ▸ hends first (by omega))
      have hcovered : Covered V q (p.windowAt container blockSize first) :=
        addWindow_covered hx h.valid (hintact.of_asked hq.valid hgathers.asked) hholds
      exact hcovered.gathered (addWindows_alike _ _ _ _ _).extends hgathers hq.valid hintact
    · have hend := hends i (by omega)
      rw [← halike.extends.windowAt (h.size ▸ hend)]
      refine ih hq ?_ hintact hlt (by omega)
      intro j hj
      rw [halike.settings]
      exact hends j (by omega)

/-- Entering the windows of one length covers them, and keeps all others covered. -/
theorem enterWindows_covers {container size blockSize : Nat} {overlapped : Bool}
    (h : Enterable V p container size) (hcovers : Covers V S p) (hblock : blockSize < 2 ^ 32)
    (hhashed : ∀ w ∈ p.enterHashed container size overlapped blockSize, w ∈ S)
    (hintact : IndexIntact V.toKeepingView (p.enterWindows container size overlapped blockSize)) :
    Covers V S (p.enterWindows container size overlapped blockSize) := by
  have halike := p.enterWindows_alike container size overlapped blockSize
  have hgathers := p.enterWindows_gathers (V := V) container size overlapped blockSize
  intro b hb c i hi
  rw [halike.blockSizes] at hb
  have hb' := h.entered.blockSizes b hb
  rw [windowedSize_enterWindows p hblock hb', halike.settings] at hi
  by_cases hold : i * max p.settings.windowPeriod 1 + b ≤ p.windowedSize c b
  · obtain ⟨hmem, hcovered⟩ := hcovers b hb c i hold
    rw [halike.extends.windowAt (Nat.le_trans hold (h.entered.windowed c b hb'))]
    exact ⟨hmem, hcovered.gathered halike.extends hgathers h.valid hintact⟩
  · -- the window is one of those that are entered now
    split at hi
    · obtain ⟨hdue, rfl, rfl⟩ := ‹_ ∧ _›
      have hperiod : 0 < max p.settings.windowPeriod 1 := by omega
      rw [halike.extends.windowAt (h.size ▸ hi)]
      refine ⟨hhashed _ (mem_enterHashed hdue hold hi), ?_⟩
      unfold enterWindows at hintact ⊢
      rw [if_pos hdue] at hintact ⊢
      dsimp only at hintact ⊢
      rw [← lt_windowCount_iff hperiod] at hold hi
      have hcovered := addWindows_covered h (fun j hj => windowCount_complete hperiod (by omega)) hintact
        (Nat.le_of_not_lt hold) (Nat.lt_of_lt_of_le hi (by omega))
      exact hcovered
    · exact absurd hi hold

theorem foldl_enterWindows_covers {container size : Nat} {overlapped : Bool} {blockSizes : List Nat}
    (h : Enterable V p container size) (hcovers : Covers V S p) (hblocks : ∀ b ∈ blockSizes, b < 2 ^ 32)
    (hhashed : ∀ w ∈ p.enterAllHashed container size overlapped blockSizes, w ∈ S)
    (hintact : IndexIntact V.toKeepingView (blockSizes.foldl
      (fun p blockSize => p.enterWindows container size overlapped blockSize) p)) :
    Covers V S (blockSizes.foldl
      (fun p blockSize => p.enterWindows container size overlapped blockSize) p) := by
  induction blockSizes generalizing p with
  | nil => exact hcovers
  | cons n rest ih =>
    have hn := hblocks n List.mem_cons_self
    have halike := p.enterWindows_alike container size overlapped n
    have hgathers := p.enterWindows_gathers (V := V) container size overlapped n
    have hq := h.alike halike hgathers.asked (enterWindows_entered h.entered h.size hn)
    have hrest : Asked (p.enterWindows container size overlapped n) (rest.foldl
        (fun p blockSize => p.enterWindows container size overlapped blockSize)
        (p.enterWindows container size overlapped n)) :=
      foldl_enterWindows_via fun _ _ _ _ => trivial
    refine ih hq ?_ (fun b hb => hblocks b (List.mem_cons_of_mem n hb))
      (fun w hw => hhashed w (List.mem_append_right _ hw)) hintact
    exact enterWindows_covers h hcovers hn (fun w hw => hhashed w (List.mem_append_left _ hw))
      (hintact.of_asked hq.valid hrest)

/-! ## Containers that are kept up with -/

/-- Windows are covered up to where their containers were last entered, which is not far behind. -/
structure Tracked (V : FullView ι) (S : Set ByteArray) (p : Placement ι) : Prop where
  covers : Covers V S p
  caughtUp : ∀ b ∈ p.blockSizes, ∀ c, p.CaughtUp c b

/-- Steps that note nothing and change no container's size. -/
theorem Tracked.later (h : Tracked V S p) (hentered : p.Entered) (hext : p.Extends q)
    (hnotes : p.SameNotes q) (hsizes : ∀ c, q.store.size c = p.store.size c)
    (hkept : ∀ w ∈ S, Covered V p w → Covered V q w) : Tracked V S q where
  covers := h.covers.later hentered hext hnotes hkept
  caughtUp b hb c := (h.caughtUp b (hnotes.blockSizes ▸ hb) c).same hext.settings hnotes (hsizes c)

/-- After a write, entering the windows that are due catches up with the container that grew. -/
theorem enterDueWindows_tracked {container size : Nat} {overlapped : Bool}
    (h : Enterable V p container size) (hoverlaps : p.settings.dedup.overlaps = true)
    (hcovers : Covers V S p) (hothers : ∀ b ∈ p.blockSizes, ∀ c, c ≠ container → p.CaughtUp c b)
    (hhashed : ∀ w ∈ p.dueHashed container size overlapped, w ∈ S)
    (hintact : IndexIntact V.toKeepingView (p.enterDueWindows container size overlapped)) :
    Tracked V S (p.enterDueWindows container size overlapped) := by
  have halike := p.enterDueWindows_alike container size overlapped
  obtain ⟨x, hx⟩ := h.index
  have hactive : (p.settings.dedup.overlaps && p.index.isSome) = true := by
    rw [hoverlaps, hx]
    rfl
  have hblocks : ∀ b ∈ p.blockSizes.toList, b < 2 ^ 32 := fun b hb =>
    h.entered.blockSizes b (Std.TreeSet.mem_toList.mp hb)
  unfold dueHashed at hhashed
  rw [if_pos hactive] at hhashed
  constructor
  · unfold enterDueWindows at hintact ⊢
    rw [if_pos hactive] at hintact ⊢
    exact foldl_enterWindows_covers h hcovers hblocks hhashed hintact
  · intro b hb c
    rw [halike.blockSizes] at hb
    unfold enterDueWindows
    rw [if_pos hactive]
    obtain ⟨hcaught, hkept⟩ := foldl_enterWindows_caughtUp overlapped h.size hblocks
    by_cases hc : c = container
    · rw [hc]
      exact hcaught b (Std.TreeSet.mem_toList.mpr hb)
    · exact hkept c b (h.entered.blockSizes b hb) (hothers b hb c hc)

end DedupImage.Placement
