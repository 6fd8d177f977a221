import DedupImage.Placement.Place
import DedupImage.Proofs.Store.Containers

/-!
# Placement only adds

Whatever a step of placement decides, and whether it fails or not, it takes nothing back: the block
table grows at its end only, and so does every container. `Placement.Extends` says so, and every step
satisfies it without any assumption on the state (`place_extends`, `placeRepeat_extends`).

Look-ups and the window index change neither table nor containers at all, which is `Placement.Alike`.

Placing a block falls into a look-up, which may fail or give a hit, and the use of the hit or a write.
`place_cases`, `carryOut_cases` and `containerFor_cases` say once which outcomes there are; every invariant
of placement is proved along these cases. What holds between a state and the one with another window
entered holds behind all the windows that are due (`KeptByWindows`).
-/

namespace DedupImage.Placement

variable {ι : Type}

/-! ## States that differ in what they remember -/

/-- The states differ at most in the catalog, the sizes at which windows were entered, and the counts. -/
structure Alike (p q : Placement ι) : Prop where
  settings : q.settings = p.settings
  store : q.store = p.store
  blocks : q.blocks = p.blocks
  numbers : q.numbers = p.numbers
  blockSizes : q.blockSizes = p.blockSizes

namespace Alike

variable {p q r : Placement ι}

theorem refl (p : Placement ι) : Alike p p := ⟨rfl, rfl, rfl, rfl, rfl⟩

/-- Counting changes nothing else. -/
theorem counted (p : Placement ι) (stats : PlacementStats) : Alike p { p with stats := stats } :=
  ⟨rfl, rfl, rfl, rfl, rfl⟩

theorem trans (h : Alike p q) (h' : Alike q r) : Alike p r :=
  ⟨h'.settings.trans h.settings, h'.store.trans h.store, h'.blocks.trans h.blocks,
    h'.numbers.trans h.numbers, h'.blockSizes.trans h.blockSizes⟩

theorem record? (h : Alike p q) (b : BlockNum) : q.record? b = p.record? b := by
  unfold Placement.record?
  rw [h.blocks]

theorem storesAs (h : Alike p q) (r : BlockRecord) (data : ByteArray) :
    q.storesAs r data = p.storesAs r data := by
  unfold Placement.storesAs
  rw [h.store]

end Alike

/-! ## Growing -/

/-- The block table and every container may have grown at the end, and nothing else happened to
them. Block sizes that were announced stay announced. -/
structure Extends (p q : Placement ι) : Prop where
  settings : q.settings = p.settings
  blocks : ∃ more, q.blocks = p.blocks ++ more
  store : p.store.Grows q.store
  blockSizes : ∀ n, n ∈ p.blockSizes → n ∈ q.blockSizes

namespace Extends

variable {p q r : Placement ι}

theorem refl (p : Placement ι) : Extends p p :=
  ⟨rfl, ⟨#[], Array.append_empty.symm⟩, .refl _, fun _ h => h⟩

theorem trans (h : Extends p q) (h' : Extends q r) : Extends p r := by
  obtain ⟨a, ha⟩ := h.blocks
  obtain ⟨b, hb⟩ := h'.blocks
  refine ⟨h'.settings.trans h.settings, ⟨a ++ b, ?_⟩, h.store.trans h'.store,
    fun n hn => h'.blockSizes n (h.blockSizes n hn)⟩
  rw [hb, ha, Array.append_assoc]

theorem size_le (h : Extends p q) : p.blocks.size ≤ q.blocks.size := by
  obtain ⟨more, hb⟩ := h.blocks
  rw [hb, Array.size_append]
  exact Nat.le_add_right _ _

/-- A block keeps its record. -/
theorem record? (h : Extends p q) {b : BlockNum} {r : BlockRecord} (hr : p.record? b = some r) :
    q.record? b = some r := by
  obtain ⟨more, hb⟩ := h.blocks
  unfold Placement.record? at *
  rw [hb, Array.getElem?_append_left (Array.getElem?_eq_some_iff.mp hr).1]
  exact hr

/-- A record goes on describing the string that it described. -/
theorem storesAs (h : Extends p q) {r : BlockRecord} {data : ByteArray}
    (hs : p.storesAs r data = true) : q.storesAs r data = true := by
  unfold Placement.storesAs at *
  rw [Bool.and_eq_true] at *
  exact ⟨hs.1, h.store.holds hs.2⟩

end Extends

theorem Alike.extends {p q : Placement ι} (h : Alike p q) : Extends p q :=
  ⟨h.settings, ⟨#[], by rw [h.blocks, Array.append_empty]⟩, h.store ▸ .refl _,
    fun n hn => h.blockSizes ▸ hn⟩

/-! ## Registering -/

/-- A record that is known keeps its number; another one joins the block table. -/
theorem register_cases (p : Placement ι) (r : BlockRecord) :
    (∃ b, p.numbers[r.code]? = some b ∧ p.register r = (b, p)) ∨
      (p.numbers[r.code]? = none ∧
        p.register r =
          (⟨p.blocks.size.toUInt32⟩,
            { p with
              blocks := p.blocks.push r
              numbers := p.numbers.insert r.code ⟨p.blocks.size.toUInt32⟩ })) := by
  unfold register
  cases h : p.numbers[r.code]? with
  | none => exact .inr ⟨rfl, rfl⟩
  | some b => exact .inl ⟨b, rfl, rfl⟩

theorem register_extends (p : Placement ι) (r : BlockRecord) : p.Extends (p.register r).2 := by
  rcases p.register_cases r with ⟨b, _, h⟩ | ⟨_, h⟩
  · rw [h]
    exact .refl p
  · rw [h]
    exact ⟨rfl, ⟨#[r], Array.push_eq_append⟩, .refl _, fun _ hn => hn⟩

/-- Registering leaves everything but the block table alone. -/
theorem register_store (p : Placement ι) (r : BlockRecord) : (p.register r).2.store = p.store := by
  rcases p.register_cases r with ⟨b, _, h⟩ | ⟨_, h⟩ <;> rw [h]

/-! ## Hits -/

/-- The first block that matches is a block of the table and consists of the bytes. -/
theorem firstBlock_eq_some {p : Placement ι} {data : ByteArray} {known : List BlockNum} {b : BlockNum}
    (h : p.firstBlock data known = .ok (some b)) :
    b ∈ known ∧ ∃ r, p.record? b = some r ∧ p.storesAs r data = true := by
  induction known with
  | nil => cases h
  | cons c rest ih =>
    unfold firstBlock at h
    split at h
    · cases h
    · split at h
      · obtain rfl := Option.some.inj (Except.ok.inj h)
        exact ⟨List.mem_cons_self, _, ‹_›, ‹_›⟩
      · obtain ⟨hmem, hr⟩ := ih h
        exact ⟨List.mem_cons_of_mem c hmem, hr⟩

/-- The first window that matches stores the bytes. -/
theorem firstWindow_eq_some {p : Placement ι} {data : ByteArray} {known : List Location}
    {l : Location} (h : p.firstWindow data known = .ok (some l)) :
    l ∈ known ∧ p.store.holds l data = true := by
  induction known with
  | nil => cases h
  | cons c rest ih =>
    unfold firstWindow at h
    split at h
    · cases h
    · split at h
      · obtain rfl := Option.some.inj (Except.ok.inj h)
        exact ⟨List.mem_cons_self, ‹_›⟩
      · obtain ⟨hmem, hl⟩ := ih h
        exact ⟨List.mem_cons_of_mem c hmem, hl⟩

/-- What a hit is evidence for: the bytes are stored where it leads. -/
def Hit.Stores (p : Placement ι) (data : ByteArray) : Hit → Prop
  | .block b => ∃ r, p.record? b = some r ∧ p.storesAs r data = true
  | .window l => p.store.holds l data = true

/-! ## Plans -/

/-- The container of a plan is the planned one, or a new one is made for it. -/
theorem containerFor_cases {p q : Placement ι} {plan : WritePlan} {id : Nat}
    (h : p.containerFor plan = .ok (id, q)) :
    (plan.container = some id ∧ q = p) ∨
      ∃ store, plan.container = none ∧ p.store.create = .ok (id, store) ∧
        q = { p with store := store } := by
  unfold containerFor at h
  cases hplan : plan.container with
  | some planned =>
    rw [hplan] at h
    obtain ⟨rfl, rfl⟩ := Prod.mk.inj (Except.ok.inj h)
    exact .inl ⟨rfl, rfl⟩
  | none =>
    rw [hplan] at h
    dsimp only at h
    split at h
    · cases h
    · rename_i hcreate
      obtain ⟨rfl, rfl⟩ := Prod.mk.inj (Except.ok.inj h)
      exact .inr ⟨_, rfl, hcreate, rfl⟩

theorem containerFor_count_le {p q : Placement ι} {plan : WritePlan} {id : Nat}
    (h : p.containerFor plan = .ok (id, q)) : q.store.count ≤ p.store.count + 1 := by
  rcases containerFor_cases h with ⟨-, rfl⟩ | ⟨store, -, hcreate, rfl⟩
  · exact Nat.le_succ _
  · exact Nat.le_of_eq (ContainerStore.create_ok hcreate).2.1

/-- Choosing the container of a plan makes at most a new empty one. -/
theorem containerFor_extends {p q : Placement ι} {plan : WritePlan} {id : Nat}
    (h : p.containerFor plan = .ok (id, q)) : p.Extends q := by
  rcases containerFor_cases h with ⟨-, rfl⟩ | ⟨store, -, hcreate, rfl⟩
  · exact .refl _
  · exact ⟨rfl, ⟨#[], Array.append_empty.symm⟩, (ContainerStore.create_ok hcreate).2.2.2.1,
      fun _ hn => hn⟩

/-- The state in which a block is written and counted, but not yet enrolled. -/
def written (p : Placement ι) (store : ContainerStore) (fit : Fit) (length : Nat) : Placement ι :=
  { p with
    store := store
    stats :=
      { p.stats with
        writtenBytes := p.stats.writtenBytes + fit.added
        overlappedBytes := p.stats.overlappedBytes + fit.shared length } }

theorem written_extends {p : Placement ι} {store : ContainerStore} (h : p.store.Grows store) (fit : Fit)
    (length : Nat) : p.Extends (p.written store fit length) :=
  ⟨rfl, ⟨#[], Array.append_empty.symm⟩, h, fun _ hn => hn⟩

variable [Catalog ι]

/-! ## Windows -/

/-- The relation leads from every state to the one with another window entered, and from there on. -/
structure KeptByWindows (R : Placement ι → Placement ι → Prop) : Prop where
  refl : ∀ p, R p p
  trans : ∀ {p q r}, R p q → R q r → R p r
  addWindow : ∀ p l window, R p (p.addWindow l window)

namespace KeptByWindows

variable {R : Placement ι → Placement ι → Prop} (h : KeptByWindows R)

include h

theorem predict (p : Placement ι) (l : Location) (length : Nat) : R p (p.predict l length) := by
  unfold Placement.predict
  split
  · dsimp only
    split
    · exact h.addWindow p _ _
    · exact h.refl p
  · exact h.refl p

theorem addWindows (p : Placement ι) (container blockSize first n : Nat) :
    R p (p.addWindows container blockSize first n) := by
  induction n generalizing p first with
  | zero => exact h.refl p
  | succ n ih => exact h.trans (h.addWindow p _ _) (ih _ _)

variable (hnoted : ∀ p windowed, R p { p with windowed := windowed })

include hnoted

theorem enterWindows (p : Placement ι) (container size : Nat) (overlapped : Bool) (blockSize : Nat) :
    R p (p.enterWindows container size overlapped blockSize) := by
  unfold Placement.enterWindows
  split
  · exact h.trans (h.addWindows p _ _ _ _) (hnoted _ _)
  · exact h.refl p

theorem foldl_enterWindows (container size : Nat) (overlapped : Bool) (blockSizes : List Nat)
    (p : Placement ι) :
    R p (blockSizes.foldl (fun p blockSize => p.enterWindows container size overlapped blockSize) p) := by
  induction blockSizes generalizing p with
  | nil => exact h.refl p
  | cons blockSize rest ih => exact h.trans (h.enterWindows hnoted p _ _ _ _) (ih _)

/-- The relation leads from the state to that behind all windows that were due. -/
theorem enterDueWindows (p : Placement ι) (container size : Nat) (overlapped : Bool) :
    R p (p.enterDueWindows container size overlapped) := by
  unfold Placement.enterDueWindows
  split
  · exact h.foldl_enterWindows hnoted container size overlapped _ p
  · exact h.refl p

end KeptByWindows

theorem keptByWindows_alike : KeptByWindows (Alike (ι := ι)) where
  refl := .refl
  trans := .trans
  addWindow p l window := by
    unfold addWindow
    cases p.index with
    | none => exact .refl p
    | some index =>
      dsimp only
      split <;> exact ⟨rfl, rfl, rfl, rfl, rfl⟩

theorem addWindow_alike (p : Placement ι) (l : Location) (window : ByteArray) :
    p.Alike (p.addWindow l window) :=
  keptByWindows_alike.addWindow p l window

theorem predict_alike (p : Placement ι) (l : Location) (length : Nat) :
    p.Alike (p.predict l length) :=
  keptByWindows_alike.predict p l length

theorem addWindows_alike (p : Placement ι) (container blockSize first n : Nat) :
    p.Alike (p.addWindows container blockSize first n) :=
  keptByWindows_alike.addWindows p container blockSize first n

theorem enterWindows_alike (p : Placement ι) (container size : Nat) (overlapped : Bool)
    (blockSize : Nat) : p.Alike (p.enterWindows container size overlapped blockSize) :=
  keptByWindows_alike.enterWindows (fun _ _ => ⟨rfl, rfl, rfl, rfl, rfl⟩) p container size overlapped
    blockSize

theorem enterDueWindows_alike (p : Placement ι) (container size : Nat) (overlapped : Bool) :
    p.Alike (p.enterDueWindows container size overlapped) :=
  keptByWindows_alike.enterDueWindows (fun _ _ => ⟨rfl, rfl, rfl, rfl, rfl⟩) p container size overlapped

/-! ## Look-ups -/

/-- Look for a block that is to be placed, if its mode looks it up at all. -/
def lookup (p : Placement ι) (data : ByteArray) : Except Failure (Option Hit) × Placement ι :=
  let p := { p with stats := { p.stats with placed := p.stats.placed + 1 } }
  if p.settings.dedup.indexes data then p.findHit (p.settings.hash data) data else (.ok none, p)

/-- A look-up changes at most the catalog. -/
theorem findHit_eq_index (p : Placement ι) (hash : UInt32) (data : ByteArray) :
    ∃ index, (p.findHit hash data).2 = { p with index := index } := by
  unfold findHit
  cases h : p.index with
  | none => exact ⟨p.index, rfl⟩
  | some index =>
    dsimp only
    split
    · exact ⟨_, rfl⟩
    · exact ⟨_, rfl⟩
    · unfold findWindowHit
      split
      · dsimp only
        split <;> exact ⟨_, rfl⟩
      · exact ⟨_, rfl⟩

/-- A look-up counts its call, and changes at most the catalog besides. -/
theorem lookup_eq_index (p : Placement ι) (data : ByteArray) :
    ∃ index, (p.lookup data).2 =
      { p with index := index, stats := { p.stats with placed := p.stats.placed + 1 } } := by
  unfold lookup
  dsimp only
  split
  · exact findHit_eq_index { p with stats := { p.stats with placed := p.stats.placed + 1 } } _ data
  · exact ⟨p.index, rfl⟩

theorem lookup_alike (p : Placement ι) (data : ByteArray) : p.Alike (p.lookup data).2 := by
  obtain ⟨index, h⟩ := p.lookup_eq_index data
  rw [h]
  exact ⟨rfl, rfl, rfl, rfl, rfl⟩

theorem findHit_stores {p : Placement ι} {hash : UInt32} {data : ByteArray} {hit : Hit}
    (h : (p.findHit hash data).1 = .ok (some hit)) : hit.Stores p data := by
  unfold findHit at h
  cases hi : p.index with
  | none =>
    rw [hi] at h
    cases h
  | some index =>
    rw [hi] at h
    dsimp only at h
    split at h
    · cases h
    · rename_i hfirst
      obtain rfl := Option.some.inj (Except.ok.inj h)
      exact (firstBlock_eq_some hfirst).2
    · unfold findWindowHit at h
      split at h
      · dsimp only at h
        split at h
        · cases h
        · cases h
        · rename_i hfirst
          obtain rfl := Option.some.inj (Except.ok.inj h)
          exact (firstWindow_eq_some hfirst).2
      · cases h

theorem lookup_stores {p : Placement ι} {data : ByteArray} {hit : Hit}
    (h : (p.lookup data).1 = .ok (some hit)) : hit.Stores p data := by
  unfold lookup at h
  dsimp only at h
  split at h
  · have hs := findHit_stores h
    cases hit <;> exact hs
  · cases h

/-! ## Enrolling -/

/-- Register a record, and enter its block into the real index if it is to be found again. -/
def enrol (p : Placement ι) (r : BlockRecord) (hash : UInt32) (indexed : Bool) :
    BlockNum × Placement ι :=
  ((p.register r).1,
    { (p.register r).2 with
      index :=
        if indexed then (p.register r).2.index.map (Catalog.addReal · hash (p.register r).1)
        else (p.register r).2.index })

/-- The state before a window is made a block: its entry is taken out, and the hit is counted. -/
def releaseWindow (p : Placement ι) (hash : UInt32) (l : Location) (length : Nat) : Placement ι :=
  { p with
    index := p.index.map (Catalog.deleteWindow · hash l)
    stats :=
      { p.stats with
        windowHits := p.stats.windowHits + 1
        overlappedBytes := p.stats.overlappedBytes + length } }

/-- A window becomes a block by being released and enrolled. -/
theorem promote_eq (p : Placement ι) (hash : UInt32) (l : Location) (length : Nat) :
    p.promote hash l length = (p.releaseWindow hash l length).enrol ⟨l, length⟩ hash true := by
  unfold promote enrol releaseWindow register
  dsimp only
  cases p.numbers[BlockRecord.code ⟨l, length⟩]? with
  | some b => simp only [if_true, Option.map_map, Function.comp_def]
  | none => simp only [if_true, Option.map_map, Function.comp_def]

/-- Enrol a block that was written into a container. -/
def enrolWritten (p : Placement ι) (store : ContainerStore) (container : Nat) (fit : Fit)
    (hash : UInt32) (length : Nat) (indexed : Bool) : BlockNum × Placement ι :=
  (p.written store fit length).enrol ⟨Location.ofNat container fit.base, length⟩ hash indexed

theorem releaseWindow_alike (p : Placement ι) (hash : UInt32) (l : Location) (length : Nat) :
    p.Alike (p.releaseWindow hash l length) :=
  ⟨rfl, rfl, rfl, rfl, rfl⟩

theorem enrol_extends (p : Placement ι) (r : BlockRecord) (hash : UInt32) (indexed : Bool) :
    p.Extends (p.enrol r hash indexed).2 :=
  have h := p.register_extends r
  ⟨h.settings, h.blocks, h.store, h.blockSizes⟩

theorem enrol_store (p : Placement ι) (r : BlockRecord) (hash : UInt32) (indexed : Bool) :
    (p.enrol r hash indexed).2.store = p.store :=
  p.register_store r

theorem enrolWritten_extends {p : Placement ι} {store : ContainerStore} (h : p.store.Grows store)
    (container : Nat) (fit : Fit) (hash : UInt32) (length : Nat) (indexed : Bool) :
    p.Extends (p.enrolWritten store container fit hash length indexed).2 :=
  (written_extends h fit length).trans (enrol_extends _ _ _ _)

/-! ## Use of a hit -/

theorem promote_extends (p : Placement ι) (hash : UInt32) (l : Location) (length : Nat) :
    p.Extends (p.promote hash l length).2 := by
  rw [promote_eq]
  exact (p.releaseWindow_alike hash l length).extends.trans (enrol_extends _ _ _ _)

/-- Resolve a block to what was found, without entering the window behind it. -/
def takeHit (p : Placement ι) (hash : UInt32) (hit : Hit) (length : Nat) :
    BlockNum × Placement ι :=
  match hit with
  | .block b => (b, { p with stats := { p.stats with reused := p.stats.reused + 1 } })
  | .window l => p.promote hash l length

/-- Where the bytes of a hit are. -/
def hitLocation (p : Placement ι) : Hit → Location
  | .block b => ((p.record? b).map BlockRecord.location).getD default
  | .window l => l

theorem useHit_eq (p : Placement ι) (hash : UInt32) (hit : Hit) (length : Nat) :
    p.useHit hash hit length =
      ((p.takeHit hash hit length).1,
        (p.takeHit hash hit length).2.predict (p.hitLocation hit) length) := by
  cases hit with
  | block b => rfl
  | window l => rfl

theorem takeHit_extends (p : Placement ι) (hash : UInt32) (hit : Hit) (length : Nat) :
    p.Extends (p.takeHit hash hit length).2 := by
  cases hit with
  | block b => exact (Alike.counted p _).extends
  | window l => exact p.promote_extends hash l length

theorem useHit_extends (p : Placement ι) (hash : UInt32) (hit : Hit) (length : Nat) :
    p.Extends (p.useHit hash hit length).2 := by
  rw [useHit_eq]
  exact (p.takeHit_extends hash hit length).trans (predict_alike _ _ _).extends

/-- A hit leads to stored bytes and writes none. -/
theorem useHit_store (p : Placement ι) (hash : UInt32) (hit : Hit) (length : Nat) :
    (p.useHit hash hit length).2.store = p.store := by
  rw [useHit_eq]
  refine (predict_alike _ _ _).store.trans ?_
  cases hit with
  | block b => rfl
  | window l =>
    show (p.promote hash l length).2.store = p.store
    rw [promote_eq, enrol_store]
    exact (p.releaseWindow_alike hash l length).store

/-! ## Writes -/

/-- A plan is refused before a container is chosen, or refused by that container; or the block is
written and enrolled, and the windows that are due are entered. -/
theorem carryOut_cases (p : Placement ι) (plan : WritePlan) (hash : UInt32) (data : ByteArray)
    (indexed : Bool) :
    (∃ e, p.containerFor plan = .error e ∧ p.carryOut plan hash data indexed = (.error e, p)) ∨
    (∃ id q e, p.containerFor plan = .ok (id, q) ∧ q.store.append id plan.fit.base data = .error e ∧
      p.carryOut plan hash data indexed = (.error e, q)) ∨
    (∃ id q newSize store, p.containerFor plan = .ok (id, q) ∧
      q.store.append id plan.fit.base data = .ok (newSize, store) ∧
      p.carryOut plan hash data indexed =
        (.ok (q.enrolWritten store id plan.fit hash data.size indexed).1,
          (q.enrolWritten store id plan.fit hash data.size indexed).2.enterDueWindows id newSize
            (decide (0 < plan.fit.shared data.size)))) := by
  unfold carryOut
  cases hc : p.containerFor plan with
  | error e => exact .inl ⟨e, rfl, rfl⟩
  | ok r =>
    obtain ⟨id, q⟩ := r
    cases ha : q.store.append id plan.fit.base data with
    | error e => exact .inr (.inl ⟨id, q, e, rfl, ha, by dsimp only; rw [ha]⟩)
    | ok w =>
      refine .inr (.inr ⟨id, q, w.1, w.2, rfl, ha, ?_⟩)
      dsimp only
      rw [ha]
      rfl

theorem carryOut_extends (p : Placement ι) (plan : WritePlan) (hash : UInt32) (data : ByteArray)
    (indexed : Bool) : p.Extends (p.carryOut plan hash data indexed).2 := by
  rcases p.carryOut_cases plan hash data indexed with
    ⟨e, _, h⟩ | ⟨id, q, e, hc, _, h⟩ | ⟨id, q, newSize, store, hc, ha, h⟩
  · rw [h]
    exact .refl p
  · rw [h]
    exact containerFor_extends hc
  · rw [h]
    have hw := enrolWritten_extends (ContainerStore.append_ok ha).grows id plan.fit hash data.size indexed
    exact ((containerFor_extends hc).trans hw).trans (enterDueWindows_alike _ _ _ _).extends

theorem carryOut_count_le (p : Placement ι) (plan : WritePlan) (hash : UInt32) (data : ByteArray)
    (indexed : Bool) : (p.carryOut plan hash data indexed).2.store.count ≤ p.store.count + 1 := by
  rcases p.carryOut_cases plan hash data indexed with
    ⟨e, _, h⟩ | ⟨id, q, e, hc, _, h⟩ | ⟨id, q, newSize, store, hc, ha, h⟩ <;> rw [h]
  · exact Nat.le_succ _
  · exact containerFor_count_le hc
  · rw [(enterDueWindows_alike _ _ _ _).store]
    show (q.enrolWritten store id plan.fit hash data.size indexed).2.store.count ≤ _
    rw [enrolWritten, enrol_store]
    exact (ContainerStore.append_ok ha).count ▸ containerFor_count_le hc

/-! ## Placing -/

/-- Placing a block ends in the failure of its look-up, in the use of a hit, or in a write. -/
theorem place_cases (p : Placement ι) (data : ByteArray) :
    (∃ e q, p.lookup data = (.error e, q) ∧ p.place data = (.error e, q)) ∨
    (∃ hit q, p.lookup data = (.ok (some hit), q) ∧
      p.place data =
        (.ok (q.useHit (p.settings.hash data) hit data.size).1,
          (q.useHit (p.settings.hash data) hit data.size).2)) ∨
    (∃ q, p.lookup data = (.ok none, q) ∧
      p.place data = q.carryOut (q.writePlan data) (p.settings.hash data) data
        (p.settings.dedup.indexes data)) := by
  unfold place lookup
  dsimp only
  by_cases hi : p.settings.dedup.indexes data = true
  · rw [if_pos hi, if_pos hi, hi]
    cases hf : findHit { p with stats := { p.stats with placed := p.stats.placed + 1 } }
        (p.settings.hash data) data with
    | mk r q =>
      match r with
      | .error e => exact .inl ⟨e, q, rfl, rfl⟩
      | .ok (some hit) => exact .inr (.inl ⟨hit, q, rfl, rfl⟩)
      | .ok none => exact .inr (.inr ⟨q, rfl, rfl⟩)
  · rw [if_neg hi, if_neg hi, Bool.not_eq_true _ |>.mp hi]
    exact .inr (.inr ⟨_, rfl, rfl⟩)

theorem place_extends (p : Placement ι) (data : ByteArray) : p.Extends (p.place data).2 := by
  have hl := p.lookup_alike data
  rcases p.place_cases data with ⟨e, q, hq, h⟩ | ⟨hit, q, hq, h⟩ | ⟨q, hq, h⟩ <;> rw [hq] at hl <;> rw [h]
  · exact hl.extends
  · exact hl.extends.trans (useHit_extends _ _ _ _)
  · exact hl.extends.trans (carryOut_extends _ _ _ _ _)

/-- Containers stay where they are kept. -/
theorem place_staging (p : Placement ι) (data : ByteArray) :
    (p.place data).2.store.staging = p.store.staging :=
  (p.place_extends data).store.staging

/-- A block that is found makes no container. -/
theorem place_count_of_hit {p : Placement ι} {data : ByteArray} {hit : Hit}
    (h : (p.lookup data).1 = .ok (some hit)) : (p.place data).2.store.count = p.store.count := by
  have halike := p.lookup_alike data
  rcases p.place_cases data with ⟨e, q, hq, heq⟩ | ⟨hit, q, hq, heq⟩ | ⟨q, hq, heq⟩
  · rw [hq] at h
    cases h
  · rw [hq] at halike
    rw [heq, ← halike.store]
    exact congrArg ContainerStore.count (useHit_store _ _ _ _)
  · rw [hq] at h
    cases h

/-- No block makes more than one. -/
theorem place_count_le (p : Placement ι) (data : ByteArray) :
    (p.place data).2.store.count ≤ p.store.count + 1 := by
  have halike := p.lookup_alike data
  rcases p.place_cases data with ⟨e, q, hq, heq⟩ | ⟨hit, q, hq, heq⟩ | ⟨q, hq, heq⟩ <;>
    rw [hq] at halike <;> rw [heq, ← halike.store]
  · exact Nat.le_succ _
  · rw [useHit_store]
    exact Nat.le_succ _
  · exact carryOut_count_le _ _ _ _ _

/-- A block that is expected to repeat an earlier one resolves to it, or is placed like any other. -/
theorem placeRepeat_cases (p : Placement ι) (data : ByteArray) (earlier : BlockNum) :
    (∃ r, p.record? earlier = some r ∧ p.storesAs r data = true ∧
      p.placeRepeat data earlier =
        (.ok earlier,
          { p with
            stats := { p.stats with placed := p.stats.placed + 1, reused := p.stats.reused + 1 } })) ∨
      p.placeRepeat data earlier = p.place data := by
  unfold placeRepeat
  cases hr : p.record? earlier with
  | none => exact .inr rfl
  | some r =>
    dsimp only
    split
    · exact .inl ⟨r, rfl, ‹_›, rfl⟩
    · exact .inr rfl

theorem placeRepeat_extends (p : Placement ι) (data : ByteArray) (earlier : BlockNum) :
    p.Extends (p.placeRepeat data earlier).2 := by
  rcases p.placeRepeat_cases data earlier with ⟨r, _, _, h⟩ | h <;> rw [h]
  · exact (Alike.counted p _).extends
  · exact p.place_extends data

theorem placeRepeat_staging (p : Placement ι) (data : ByteArray) (earlier : BlockNum) :
    (p.placeRepeat data earlier).2.store.staging = p.store.staging :=
  (p.placeRepeat_extends data earlier).store.staging

end DedupImage.Placement
