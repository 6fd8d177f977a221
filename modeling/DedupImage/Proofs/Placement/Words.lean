import DedupImage.Proofs.Placement.Entries

/-!
# Arithmetic on words

Offsets, sizes and window numbers are natural numbers in the definitions and 32-bit words where they are
computed. This module lists the word operations that entering windows takes (`predictWords` for the
window behind a block that was found, `dueWords` for the windows that are due after a write) and shows
that each of them is exact: no sum or product leaves the words, and no difference is negative.

A complete window lies inside its container, which takes care of the sums and products. The one
difference that needs a reason is the growth of a container since its windows were last entered, and
the reason is an invariant (`Entered`): the size noted for a container and a block size is at most the
container's size. Every step keeps it.

The hashes of new windows are computed in as many parts as there are threads, with one sum for the end
of each part.
-/

namespace DedupImage

/-! ## Word operations -/

/-- One operation on 32-bit words. -/
inductive WordOp where
  | add (a b : Nat)
  | sub (a b : Nat)
  | mul (a b : Nat)
  deriving DecidableEq, Repr

/-- The operation has the result that it has on numbers. -/
def WordOp.Exact : WordOp → Prop
  | add a b => a + b < 2 ^ 32
  | sub a b => b ≤ a
  | mul a b => a * b < 2 ^ 32

instance : DecidablePred WordOp.Exact
  | .add a b => inferInstanceAs (Decidable (a + b < 2 ^ 32))
  | .sub a b => inferInstanceAs (Decidable (b ≤ a))
  | .mul a b => inferInstanceAs (Decidable (a * b < 2 ^ 32))

namespace Placement

/-- The operations that count the complete windows of a container. -/
def countWords (period blockSize size : Nat) : List WordOp :=
  if size < blockSize then [] else [.sub size blockSize, .add ((size - blockSize) / period) 1]

/-- The operations that divide the windows from `first` up to `last` among threads. -/
def partWords (threads first last : Nat) : List WordOp :=
  let threads := max threads 1
  let count := last - first
  let part := max ((count + threads - 1) / threads) 1
  .sub last first ::
    ((List.range count).filter fun k => first + k * part < last).map fun k => .add (first + k * part) part

/-- The operations that find the bytes of the windows from `first` up to `last`. -/
def windowWords (period blockSize first last : Nat) : List WordOp :=
  (List.range' first (last - first)).flatMap fun i => [.mul i period, .add (i * period) blockSize]

variable {ι : Type}

/-- The operations of `predict`. -/
def predictWords (p : Placement ι) (l : Location) (length : Nat) : List WordOp :=
  if p.settings.dedup.overlaps && p.index.isSome then [.add l.offset.toNat length] else []

/-- The operations of `enterWindows`. -/
def enterWords (p : Placement ι) (threads container size : Nat) (overlapped : Bool)
    (blockSize : Nat) : List WordOp :=
  let period := max p.settings.windowPeriod 1
  let old := p.windowedSize container blockSize
  let first := windowCount period blockSize old
  let last := windowCount period blockSize size
  .sub size old ::
    if p.windowsDue container blockSize size overlapped then
      countWords period blockSize old ++ countWords period blockSize size ++
        if first < last then
          partWords threads first last ++ windowWords period blockSize first last
        else
          []
    else
      []

variable [Catalog ι]

/-- The operations that enter the windows of several block sizes, each in the state that the ones
before it left. -/
def enterAllWords (p : Placement ι) (threads container size : Nat) (overlapped : Bool) :
    List Nat → List WordOp
  | [] => []
  | blockSize :: rest =>
    p.enterWords threads container size overlapped blockSize ++
      (p.enterWindows container size overlapped blockSize).enterAllWords threads container size
        overlapped rest

/-- The operations of `enterDueWindows`. -/
def dueWords (p : Placement ι) (threads container size : Nat) (overlapped : Bool) : List WordOp :=
  if p.settings.dedup.overlaps && p.index.isSome then
    p.enterAllWords threads container size overlapped p.blockSizes.toList
  else
    []

/-- The operations of `useHit`. -/
def useHitWords (p : Placement ι) (hash : UInt32) (hit : Hit) (length : Nat) : List WordOp :=
  (p.takeHit hash hit length).2.predictWords (p.hitLocation hit) length

/-- The operations of `carryOut`. -/
def carryOutWords (p : Placement ι) (threads : Nat) (plan : WritePlan) (hash : UInt32)
    (data : ByteArray) (indexed : Bool) : List WordOp :=
  match p.containerFor plan with
  | .error _ => []
  | .ok (id, q) =>
    match q.store.append id plan.fit.base data with
    | .error _ => []
    | .ok (newSize, store) =>
      (q.enrolWritten store id plan.fit hash data.size indexed).2.dueWords threads id
        newSize (decide (0 < plan.fit.shared data.size))

/-- The operations of placing a block. -/
def placeWords (p : Placement ι) (threads : Nat) (data : ByteArray) : List WordOp :=
  let hash := p.settings.hash data
  match p.lookup data with
  | (.error _, _) => []
  | (.ok (some hit), q) => q.useHitWords hash hit data.size
  | (.ok none, q) =>
    q.carryOutWords threads (q.writePlan data) hash data (p.settings.dedup.indexes data)

/-! ## Exactness -/

omit [Catalog ι] in
theorem windowCount_le (period blockSize size : Nat) : windowCount period blockSize size ≤ size + 1 := by
  unfold windowCount
  split
  · exact Nat.zero_le _
  · have := Nat.div_le_self (size - blockSize) period
    omega

theorem countWords_exact {period blockSize size : Nat} (hsize : size ≤ 2 ^ 31) :
    ∀ w ∈ countWords period blockSize size, w.Exact := by
  intro w hw
  unfold countWords at hw
  split at hw
  · cases hw
  · have hdiv := Nat.div_le_self (size - blockSize) period
    obtain rfl | rfl : w = .sub size blockSize ∨ w = .add ((size - blockSize) / period) 1 := by
      simpa using hw
    · show blockSize ≤ size
      omega
    · show (size - blockSize) / period + 1 < 2 ^ 32
      omega

/-- Two threads or more halve the windows, so that the end of a part stays far from the largest word. -/
theorem two_mul_part_le {threads : Nat} (h : 2 ≤ threads) (count : Nat) :
    2 * ((count + threads - 1) / threads) ≤ count + 1 := by
  have hmul := Nat.div_mul_le_self (count + threads - 1) threads
  generalize (count + threads - 1) / threads = part at *
  obtain ⟨more, rfl⟩ := Nat.exists_eq_add_of_le h
  rw [Nat.mul_add] at hmul
  cases part with
  | zero => omega
  | succ part =>
    have : more ≤ (part + 1) * more := Nat.le_mul_of_pos_left more (Nat.succ_pos part)
    omega

theorem partWords_exact {threads first last : Nat} (hlt : first < last) (hlast : last ≤ 2 ^ 31 + 1) :
    ∀ w ∈ partWords threads first last, w.Exact := by
  intro w hw
  unfold partWords at hw
  dsimp only at hw
  rcases List.mem_cons.mp hw with rfl | hw
  · exact Nat.le_of_lt hlt
  · obtain ⟨k, hk, rfl⟩ := List.mem_map.mp hw
    have hk := of_decide_eq_true (List.mem_filter.mp hk).2
    generalize hpart : max ((last - first + max threads 1 - 1) / max threads 1) 1 = part at *
    show first + k * part + part < 2 ^ 32
    by_cases hthreads : threads ≤ 1
    · -- one thread hashes all windows in one part
      rw [Nat.max_eq_right hthreads, Nat.div_one] at hpart
      cases k with
      | zero => omega
      | succ k =>
        rw [Nat.add_mul] at hk
        omega
    · have := two_mul_part_le (show 2 ≤ max threads 1 by omega) (last - first)
      omega

theorem windowWords_exact {period blockSize first size : Nat} (hperiod : 0 < period)
    (hsize : size ≤ 2 ^ 31) :
    ∀ w ∈ windowWords period blockSize first (windowCount period blockSize size), w.Exact := by
  intro w hw
  obtain ⟨i, hi, hw⟩ := List.mem_flatMap.mp hw
  have hi : i < windowCount period blockSize size := by
    have := List.mem_range'_1.mp hi
    omega
  have hend := windowCount_complete hperiod hi
  obtain rfl | rfl : w = .mul i period ∨ w = .add (i * period) blockSize := by simpa using hw
  · show i * period < 2 ^ 32
    omega
  · show i * period + blockSize < 2 ^ 32
    omega

variable {p q : Placement ι}

omit [Catalog ι] in
theorem enterWords_exact {threads container size blockSize : Nat} {overlapped : Bool}
    (hold : p.windowedSize container blockSize ≤ size) (hsize : size ≤ 2 ^ 31) :
    ∀ w ∈ p.enterWords threads container size overlapped blockSize, w.Exact := by
  intro w hw
  unfold enterWords at hw
  dsimp only at hw
  rcases List.mem_cons.mp hw with rfl | hw
  · exact hold
  · split at hw
    · have hlast := windowCount_le (max p.settings.windowPeriod 1) blockSize size
      rcases List.mem_append.mp hw with hw | hw
      · rcases List.mem_append.mp hw with hw | hw
        · exact countWords_exact (Nat.le_trans hold hsize) w hw
        · exact countWords_exact hsize w hw
      · split at hw
        · rcases List.mem_append.mp hw with hw | hw
          · exact partWords_exact ‹_› (by omega) w hw
          · exact windowWords_exact (by omega) hsize w hw
        · cases hw
    · cases hw

/-! ## The sizes noted for windows -/

/-- The states agree on the announced block sizes and on the sizes noted for windows. -/
structure SameNotes (p q : Placement ι) : Prop where
  blockSizes : q.blockSizes = p.blockSizes
  windowed : q.windowed = p.windowed

omit [Catalog ι] in
theorem SameNotes.trans {r : Placement ι} (h : SameNotes p q) (h' : SameNotes q r) : SameNotes p r :=
  ⟨h'.blockSizes.trans h.blockSizes, h'.windowed.trans h.windowed⟩

theorem keptByWindows_sameNotes : KeptByWindows (SameNotes (ι := ι)) where
  refl _ := ⟨rfl, rfl⟩
  trans := .trans
  addWindow p l window := by
    unfold addWindow
    cases p.index with
    | none => exact ⟨rfl, rfl⟩
    | some x =>
      dsimp only
      split <;> exact ⟨rfl, rfl⟩

theorem addWindow_notes (p : Placement ι) (l : Location) (window : ByteArray) :
    p.SameNotes (p.addWindow l window) :=
  keptByWindows_sameNotes.addWindow p l window

theorem addWindows_notes (p : Placement ι) (container blockSize first n : Nat) :
    p.SameNotes (p.addWindows container blockSize first n) :=
  keptByWindows_sameNotes.addWindows p container blockSize first n

theorem predict_notes (p : Placement ι) (l : Location) (length : Nat) :
    p.SameNotes (p.predict l length) :=
  keptByWindows_sameNotes.predict p l length

theorem lookup_notes (p : Placement ι) (data : ByteArray) : p.SameNotes (p.lookup data).2 := by
  obtain ⟨index, h⟩ := p.lookup_eq_index data
  rw [h]
  exact ⟨rfl, rfl⟩

theorem enrol_notes (p : Placement ι) (r : BlockRecord) (hash : UInt32) (indexed : Bool) :
    p.SameNotes (p.enrol r hash indexed).2 := by
  have h : p.SameNotes (p.register r).2 := by
    rcases p.register_cases r with ⟨b, _, h⟩ | ⟨_, h⟩ <;> rw [h] <;> exact ⟨rfl, rfl⟩
  exact ⟨h.blockSizes, h.windowed⟩

theorem takeHit_notes (p : Placement ι) (hash : UInt32) (hit : Hit) (length : Nat) :
    p.SameNotes (p.takeHit hash hit length).2 := by
  cases hit with
  | block b => exact ⟨rfl, rfl⟩
  | window l =>
    unfold takeHit
    dsimp only
    rw [promote_eq]
    have h := enrol_notes (p.releaseWindow hash l length) ⟨l, length⟩ hash true
    exact ⟨h.blockSizes, h.windowed⟩

omit [Catalog ι] in
theorem containerFor_notes {plan : WritePlan} {id : Nat} (h : p.containerFor plan = .ok (id, q)) :
    p.SameNotes q := by
  rcases containerFor_cases h with ⟨-, rfl⟩ | ⟨store, -, -, rfl⟩
  · exact ⟨rfl, rfl⟩
  · exact ⟨rfl, rfl⟩

/-- The announced block sizes are words, and the size noted for a container and a block size is at most
the size of the container. -/
structure Entered (p : Placement ι) : Prop where
  blockSizes : ∀ n ∈ p.blockSizes, n < 2 ^ 32
  windowed : ∀ container blockSize, blockSize < 2 ^ 32 →
    p.windowedSize container blockSize ≤ p.store.size container

omit [Catalog ι] in
/-- Steps that note nothing keep the invariant, for containers only grow. -/
theorem Entered.of_extends (h : p.Entered) (hext : p.Extends q) (hnotes : p.SameNotes q) :
    q.Entered where
  blockSizes n hn := h.blockSizes n (hnotes.blockSizes ▸ hn)
  windowed container blockSize hn := by
    refine Nat.le_trans ?_ (hext.store.size_le container)
    show q.windowed.getD _ 0 ≤ _
    rw [hnotes.windowed]
    exact h.windowed container blockSize hn

theorem windowKey_injective {c c' n n' : Nat} (hn : n < 2 ^ 32) (hn' : n' < 2 ^ 32)
    (h : windowKey c n = windowKey c' n') : c = c' ∧ n = n' := by
  unfold windowKey UInt32.size at h
  omega

/-- Windows are entered up to the size that the container has. -/
theorem enterWindows_entered (h : p.Entered) {container size blockSize : Nat} {overlapped : Bool}
    (hsize : p.store.size container = size) (hn : blockSize < 2 ^ 32) :
    (p.enterWindows container size overlapped blockSize).Entered := by
  have halike := p.enterWindows_alike container size overlapped blockSize
  refine ⟨fun n hn => h.blockSizes n (halike.blockSizes ▸ hn), ?_⟩
  intro c n hn'
  rw [halike.store]
  unfold enterWindows windowedSize
  split
  · dsimp only
    rw [(p.addWindows_notes _ _ _ _).windowed, Std.TreeMap.getD_insert]
    split
    · obtain ⟨rfl, rfl⟩ := windowKey_injective hn hn' (Std.compare_eq_iff_eq.mp ‹_›)
      exact Nat.le_of_eq hsize.symm
    · exact h.windowed c n hn'
  · exact h.windowed c n hn'

theorem enterAllWords_exact (h : p.Entered) (threads : Nat) {container size : Nat}
    (overlapped : Bool) {blockSizes : List Nat} (hsize : p.store.size container = size)
    (hle : size ≤ 2 ^ 31) (hsizes : ∀ n ∈ blockSizes, n < 2 ^ 32) :
    (∀ w ∈ p.enterAllWords threads container size overlapped blockSizes, w.Exact) ∧
      (blockSizes.foldl (fun p blockSize => p.enterWindows container size overlapped blockSize)
        p).Entered := by
  induction blockSizes generalizing p with
  | nil => exact ⟨fun w hw => (nomatch hw), h⟩
  | cons n rest ih =>
    have hn := hsizes n List.mem_cons_self
    have halike := p.enterWindows_alike container size overlapped n
    obtain ⟨hexact, hentered⟩ := ih (enterWindows_entered h hsize hn) (halike.store ▸ hsize)
      (fun k hk => hsizes k (List.mem_cons_of_mem n hk))
    refine ⟨?_, hentered⟩
    intro w hw
    rcases List.mem_append.mp hw with hw | hw
    · exact enterWords_exact (hsize ▸ h.windowed container n hn) hle w hw
    · exact hexact w hw

theorem dueWords_exact (h : p.Entered) (threads : Nat) {container size : Nat} (overlapped : Bool)
    (hsize : p.store.size container = size) (hle : size ≤ 2 ^ 31) :
    (∀ w ∈ p.dueWords threads container size overlapped, w.Exact) ∧
      (p.enterDueWindows container size overlapped).Entered := by
  unfold dueWords enterDueWindows
  split
  · exact enterAllWords_exact h threads overlapped hsize hle fun n hn =>
      h.blockSizes n (Std.TreeSet.mem_toList.mp hn)
  · exact ⟨fun w hw => (nomatch hw), h⟩

omit [Catalog ι] in
theorem predictWords_exact {l : Location} {data : ByteArray} (hl : p.store.holds l data = true)
    (hle : p.store.size l.container.toNat < 2 ^ 32) :
    ∀ w ∈ p.predictWords l data.size, w.Exact := by
  intro w hw
  unfold predictWords at hw
  split at hw
  · obtain rfl := List.mem_singleton.mp hw
    show l.offset.toNat + data.size < 2 ^ 32
    have := ContainerStore.end_le_of_holds hl
    omega
  · cases hw

/-! ## Placing -/

theorem useHitWords_exact (hp : p.Consistent) (h : p.Entered) (hcapacity : p.store.capacity ≤ 2 ^ 31)
    {hash : UInt32} {hit : Hit} {data : ByteArray} (hhit : hit.Stores p data)
    (hfit : (p.useHit hash hit data.size).2.Addressable) :
    (∀ w ∈ p.useHitWords hash hit data.size, w.Exact) ∧
      (p.useHit hash hit data.size).2.Entered := by
  rw [useHit_eq] at hfit ⊢
  have hpredict := predict_alike (p.takeHit hash hit data.size).2 (p.hitLocation hit) data.size
  have hnoted := predict_notes (p.takeHit hash hit data.size).2 (p.hitLocation hit) data.size
  have htake := p.takeHit_extends hash hit data.size
  obtain ⟨-, hconsistent, hstored⟩ := takeHit_resolves hp hhit (hpredict.addressable_iff.mp hfit)
  refine ⟨predictWords_exact (htake.store.holds hstored) ?_,
    h.of_extends (htake.trans hpredict.extends) ((p.takeHit_notes hash hit data.size).trans hnoted)⟩
  have := hconsistent.store.size_le (p.hitLocation hit).container.toNat
  have := htake.store.capacity
  omega

theorem carryOutWords_exact (hp : p.Consistent) (h : p.Entered)
    (hcapacity : p.store.capacity ≤ 2 ^ 31) (threads : Nat) {plan : WritePlan} {hash : UInt32}
    {data : ByteArray} {indexed : Bool} (hready : plan.Ready p data)
    (hfit : (p.carryOut plan hash data indexed).2.Addressable) :
    (∀ w ∈ p.carryOutWords threads plan hash data indexed, w.Exact) ∧
      (p.carryOut plan hash data indexed).2.Entered := by
  unfold carryOutWords
  rcases p.carryOut_cases plan hash data indexed with
    ⟨e, hc, hout⟩ | ⟨id, q, e, hc, ha, hout⟩ | ⟨id, q, newSize, store, hc, ha, hout⟩
  · rw [hout, hc]
    exact ⟨fun w hw => (nomatch hw), h⟩
  · rw [hout, hc]
    dsimp only
    rw [ha]
    exact ⟨fun w hw => (nomatch hw), h.of_extends (containerFor_extends hc) (containerFor_notes hc)⟩
  · rw [hout] at hfit ⊢
    rw [hc]
    dsimp only
    rw [ha]
    obtain ⟨hid, hlays, hq⟩ := containerFor_lays hp hready hc
    have happ := ContainerStore.append_ok ha
    have hdue := enterDueWindows_alike
      (q.enrolWritten store id plan.fit hash data.size indexed).2 id newSize
      (decide (0 < plan.fit.shared data.size))
    have henrolled := enrolWritten_enrolled hq hid hlays happ (hdue.addressable_iff.mp hfit)
    have hext := (containerFor_extends hc).trans
      (enrolWritten_extends happ.grows id plan.fit hash data.size indexed)
    have hcounted : q.SameNotes (q.written store plan.fit data.size) := ⟨rfl, rfl⟩
    have hnotes := ((containerFor_notes hc).trans hcounted).trans
      (enrol_notes _ ⟨Location.ofNat id plan.fit.base, data.size⟩ hash indexed)
    refine dueWords_exact (h.of_extends hext hnotes) threads _ henrolled.size ?_
    have := henrolled.consistent.store.size_le id
    have := henrolled.size
    have := hext.store.capacity
    omega

/-- The arithmetic of placing a block is exact, and the sizes noted stay behind the containers. -/
theorem placeWords_exact (hp : p.Consistent) (h : p.Entered) (hcapacity : p.store.capacity ≤ 2 ^ 31)
    (threads : Nat) (data : ByteArray) (hfit : (p.place data).2.Addressable) :
    (∀ w ∈ p.placeWords threads data, w.Exact) ∧ (p.place data).2.Entered := by
  have halike := p.lookup_alike data
  have hnotes := p.lookup_notes data
  unfold placeWords
  dsimp only
  rcases p.place_cases data with ⟨e, q, hq, hplace⟩ | ⟨hit, q, hq, hplace⟩ | ⟨q, hq, hplace⟩ <;>
    rw [hq] at halike hnotes ⊢ <;> rw [hplace] at hfit ⊢ <;> dsimp only at halike hnotes hfit ⊢ <;>
    have hentered := h.of_extends halike.extends hnotes <;>
    have hconsistent := halike.consistent hp
  · exact ⟨fun w hw => (nomatch hw), hentered⟩
  · have hstores : hit.Stores p data := lookup_stores (by rw [hq])
    exact useHitWords_exact hconsistent hentered (halike.store ▸ hcapacity) (halike.stores hstores) hfit
  · exact carryOutWords_exact hconsistent hentered (halike.store ▸ hcapacity) threads
      (writePlan_ready hconsistent.store data) hfit

end Placement

end DedupImage
