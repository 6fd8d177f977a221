import DedupImage.Proofs.Placement.Success

/-!
# The strings that are hashed

A catalog is asked by hashes, so how well it works for a placement depends on the strings that the
placement hashes: every block that is placed and does not repeat an expected one, the window behind a
block that was found, and the windows that are due after a write. This module lists them call by call, in
the states in which they are hashed (`Event.hashed`, `hashedStrings` for a run).

The windows that are due are those with the numbers that became complete since the last time
(`mem_enterHashed`, with `lt_windowCount_iff`). They are entered last, after the block was written and
enrolled (`carryOut_stages`).
-/

namespace DedupImage.Placement

variable {ι : Type}

/-- Window number `i` of a container. -/
def windowAt (p : Placement ι) (container blockSize i : Nat) : ByteArray :=
  slice (p.store.data container) (i * max p.settings.windowPeriod 1) blockSize

/-- The string that `predict` hashes: the window behind a stretch, if the container has all of it. -/
def predictHashed (p : Placement ι) (l : Location) (length : Nat) : List ByteArray :=
  let container := l.container.toNat
  let start := l.offset.toNat + length
  if p.settings.dedup.overlaps && p.index.isSome &&
      decide (start + length ≤ p.store.size container) then
    [slice (p.store.data container) start length]
  else
    []

/-- The strings that `enterWindows` hashes. -/
def enterHashed (p : Placement ι) (container size : Nat) (overlapped : Bool) (blockSize : Nat) :
    List ByteArray :=
  if p.windowsDue container blockSize size overlapped then
    let period := max p.settings.windowPeriod 1
    let first := windowCount period blockSize (p.windowedSize container blockSize)
    (List.range' first (windowCount period blockSize size - first)).map
      (p.windowAt container blockSize)
  else
    []

variable [Catalog ι]

/-- The strings hashed to enter the windows of several block sizes, each in the state that the ones
before it left. -/
def enterAllHashed (p : Placement ι) (container size : Nat) (overlapped : Bool) :
    List Nat → List ByteArray
  | [] => []
  | blockSize :: rest =>
    p.enterHashed container size overlapped blockSize ++
      (p.enterWindows container size overlapped blockSize).enterAllHashed container size overlapped rest

/-- The strings that `enterDueWindows` hashes. -/
def dueHashed (p : Placement ι) (container size : Nat) (overlapped : Bool) : List ByteArray :=
  if p.settings.dedup.overlaps && p.index.isSome then
    p.enterAllHashed container size overlapped p.blockSizes.toList
  else
    []

/-- The strings that `useHit` hashes. -/
def useHitHashed (p : Placement ι) (hash : UInt32) (hit : Hit) (length : Nat) : List ByteArray :=
  (p.takeHit hash hit length).2.predictHashed (p.hitLocation hit) length

/-- The strings that `carryOut` hashes. -/
def carryOutHashed (p : Placement ι) (plan : WritePlan) (hash : UInt32) (data : ByteArray)
    (indexed : Bool) : List ByteArray :=
  match p.containerFor plan with
  | .error _ => []
  | .ok (id, q) =>
    match q.store.append id plan.fit.base data with
    | .error _ => []
    | .ok (newSize, store) =>
      (q.enrolWritten store id plan.fit hash data.size indexed).2.dueHashed id newSize
        (decide (0 < plan.fit.shared data.size))

/-- The strings hashed to place a block, the block first. -/
def placeHashed (p : Placement ι) (data : ByteArray) : List ByteArray :=
  let hash := p.settings.hash data
  data ::
    match p.lookup data with
    | (.error _, _) => []
    | (.ok (some hit), q) => q.useHitHashed hash hit data.size
    | (.ok none, q) =>
      q.carryOutHashed (q.writePlan data) hash data (p.settings.dedup.indexes data)

/-- The strings that an event hashes. A repeat that proves true is not hashed. An obstructed call that fails
for want of a container hashes no more than its block, but is given what it would have hashed. -/
def Event.hashed (p : Placement ι) : Event ι → List ByteArray
  | .place data => p.placeHashed data
  | .placeRepeat data earlier =>
    if (p.record? earlier).any (p.storesAs · data) then [] else p.placeHashed data
  | .addBlockSize _ => []
  | .tamper _ => []
  | .obstructed data earlier =>
    if earlier.any fun b => (p.record? b).any (p.storesAs · data) then [] else p.placeHashed data

/-- The strings that a list of events hashes. -/
def hashedStrings (p : Placement ι) : List (Event ι) → List ByteArray
  | [] => []
  | e :: rest => e.hashed p ++ (p.step e).2.hashedStrings rest

/-! ## Windows that became complete -/

omit [Catalog ι] in
/-- A window is counted if, and only if, it is complete. -/
theorem lt_windowCount_iff {period blockSize size i : Nat} (hperiod : 0 < period) :
    i < windowCount period blockSize size ↔ i * period + blockSize ≤ size := by
  refine ⟨windowCount_complete hperiod, ?_⟩
  intro h
  have hdiv : i ≤ (size - blockSize) / period := (Nat.le_div_iff_mul_le hperiod).mpr (by omega)
  unfold windowCount
  rw [if_neg (by omega)]
  omega

omit [Catalog ι] in
/-- If windows are due, those are hashed that are complete and were not at the last time. -/
theorem mem_enterHashed {p : Placement ι} {container size blockSize i : Nat} {overlapped : Bool}
    (hdue : p.windowsDue container blockSize size overlapped = true)
    (hold : ¬ i * max p.settings.windowPeriod 1 + blockSize ≤ p.windowedSize container blockSize)
    (hnew : i * max p.settings.windowPeriod 1 + blockSize ≤ size) :
    p.windowAt container blockSize i ∈ p.enterHashed container size overlapped blockSize := by
  have hperiod : 0 < max p.settings.windowPeriod 1 := by omega
  rw [← lt_windowCount_iff hperiod] at hold hnew
  unfold enterHashed
  rw [if_pos hdue]
  refine List.mem_map_of_mem (List.mem_range'_1.mpr ?_)
  omega

/-! ## Writes in two parts -/

/-- Containers grew, and nothing else changed but the counts. -/
structure Enlarged (p q : Placement ι) : Prop where
  grown : p.Extends q
  notes : p.SameNotes q
  index : q.index = p.index
  blocks : q.blocks = p.blocks

/-- A block was written to one container, and nothing is registered or entered yet. -/
structure Landed (p q : Placement ι) (id base newSize : Nat) (data : ByteArray) : Prop
    extends Enlarged p q where
  consistent : q.Consistent
  container_lt : id < q.store.count
  size : q.store.size id = newSize
  others : ∀ k, k ≠ id → q.store.size k = p.store.size k
  holds : q.store.count ≤ 2 ^ 32 → q.store.holds (Location.ofNat id base) data = true

omit [Catalog ι] in
theorem containerFor_enlarged {p q : Placement ι} {plan : WritePlan} {id : Nat}
    (h : p.containerFor plan = .ok (id, q)) : Enlarged p q :=
  ⟨containerFor_extends h, containerFor_notes h, containerFor_index h, (containerFor_eq_ok h).2.2⟩

omit [Catalog ι] in
theorem written_landed {p q : Placement ι} {plan : WritePlan} {data : ByteArray} (hp : p.Consistent)
    (hready : plan.Ready p data) {id newSize : Nat} (hc : p.containerFor plan = .ok (id, q))
    {store : ContainerStore} (ha : q.store.append id plan.fit.base data = .ok (newSize, store)) :
    Landed p (q.written store plan.fit data.size) id plan.fit.base newSize data := by
  obtain ⟨hid, hlays, hq⟩ := containerFor_lays hp hready hc
  have happ := ContainerStore.append_ok ha
  have henlarged := containerFor_enlarged hc
  exact
    { grown := henlarged.grown.trans (written_extends happ.grows plan.fit data.size)
      notes := ⟨henlarged.notes.blockSizes, henlarged.notes.windowed⟩
      index := henlarged.index
      blocks := henlarged.blocks
      consistent := written_consistent hq hid happ
      container_lt := Nat.lt_of_lt_of_eq hid happ.count.symm
      size := happ.size_eq hid
      others := fun k hk => by
        show (store.data k).size = (p.store.data k).size
        rw [happ.other k hk, (containerFor_eq_ok hc).2.1]
      holds := fun hcount => append_holds hq (happ.count ▸ hcount) hid hlays happ }

/-- A plan that is carried out leaves at most a container that is empty; or its block is written, and then
enrolled, and then windows are entered, whose strings are all that is hashed. -/
theorem carryOut_stages {p : Placement ι} (hp : p.Consistent) {plan : WritePlan} {data : ByteArray}
    (hready : plan.Ready p data) (hash : UInt32) (indexed : Bool) :
    (∃ e q, p.carryOut plan hash data indexed = (.error e, q) ∧ Enlarged p q ∧
      q.store.data = p.store.data) ∨
    ∃ id base newSize overlapped q, Landed p q id base newSize data ∧
      p.carryOut plan hash data indexed =
        (.ok (q.enrol ⟨Location.ofNat id base, data.size⟩ hash indexed).1,
          (q.enrol ⟨Location.ofNat id base, data.size⟩ hash indexed).2.enterDueWindows id newSize
            overlapped) ∧
      p.carryOutHashed plan hash data indexed =
        (q.enrol ⟨Location.ofNat id base, data.size⟩ hash indexed).2.dueHashed id newSize overlapped := by
  unfold carryOutHashed
  rcases p.carryOut_cases plan hash data indexed with
    ⟨e, hc, hout⟩ | ⟨id, q, e, hc, ha, hout⟩ | ⟨id, q, newSize, store, hc, ha, hout⟩
  · exact .inl ⟨e, p, hout, ⟨.refl p, ⟨rfl, rfl⟩, rfl, rfl⟩, rfl⟩
  · exact .inl ⟨e, q, hout, containerFor_enlarged hc, (containerFor_eq_ok hc).2.1⟩
  · refine .inr ⟨id, plan.fit.base, newSize, _, _, written_landed hp hready hc ha, hout, ?_⟩
    rw [hc]
    dsimp only
    rw [ha]
    rfl

end DedupImage.Placement
