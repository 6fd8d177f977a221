import DedupImage.Proofs.Index.Interchange
import DedupImage.Proofs.Placement.Growth

/-!
# Placements that take every step together

Placement uses its catalog only through requests, and the set of its block sizes at one point only, where it
goes through them from the smallest to the largest. Where containers are kept it asks only when it makes a
new one. So let two placements differ in nothing but catalogs that answer all requests alike
(`CatalogSimulation`), in how the sets of their block sizes came about, and in where their containers are
kept (`Counterpart`). Then each call that needs no new container has the same answer, and afterwards they
differ in nothing else again (`Counterpart.place`, `Counterpart.placeRepeat`).

A placement is its own counterpart, and so the calls leave the set of block sizes as it is
(`place_blockSizes`).
-/

namespace DedupImage

/-- A catalog may be used for itself. -/
def CatalogSimulation.refl (ι : Type) [Catalog ι] : CatalogSimulation ι ι where
  Alike x y := x = y
  findReal h _ := h ▸ ⟨rfl, rfl⟩
  addReal h _ _ := h ▸ rfl
  findWindow h _ := h ▸ ⟨rfl, rfl⟩
  addWindow h _ _ := h ▸ rfl
  deleteWindow h _ _ := h ▸ rfl
  stats h := h ▸ rfl

/-- Where containers are kept makes no difference to a block that is appended. -/
theorem ContainerStore.append_withStaging (s : ContainerStore) (staging : Staging) (id base : Nat)
    (block : ByteArray) :
    append { s with staging := staging } id base block =
      (s.append id base block).map fun w => (w.1, { w.2 with staging := staging }) := by
  have hdata : data { s with staging := staging } id = s.data id := rfl
  unfold append
  dsimp only
  rw [hdata]
  split
  · rfl
  split <;> rfl

namespace Placement

variable {ι κ : Type}

/-- The same placement with another catalog and another set of block sizes, and with its containers kept
elsewhere. -/
def counterpart (p : Placement ι) (staging : Staging) (index : Option κ) (sizes : Std.TreeSet Nat) :
    Placement κ :=
  { settings := p.settings
    store := { p.store with staging := staging }
    index := index
    blocks := p.blocks
    numbers := p.numbers
    windowed := p.windowed
    blockSizes := sizes
    stats := p.stats }

section

variable (p : Placement ι) (staging : Staging) (index : Option κ) (sizes : Std.TreeSet Nat)

theorem firstBlock_counterpart (data : ByteArray) (known : List BlockNum) :
    (p.counterpart staging index sizes).firstBlock data known = p.firstBlock data known := by
  induction known with
  | nil => rfl
  | cons b rest ih =>
    have hrecord : (p.counterpart staging index sizes).record? b = p.record? b := rfl
    unfold firstBlock
    rw [hrecord, ih]
    rfl

theorem firstWindow_counterpart (data : ByteArray) (known : List Location) :
    (p.counterpart staging index sizes).firstWindow data known = p.firstWindow data known := by
  induction known with
  | nil => rfl
  | cons l rest ih =>
    unfold firstWindow
    rw [ih]
    rfl

theorem bestOf_counterpart (length : Nat) (fits : List (Nat × Option Fit)) :
    (p.counterpart staging index sizes).bestOf length fits = p.bestOf length fits := by
  induction fits with
  | nil => rfl
  | cons fit rest ih =>
    obtain ⟨id, fit⟩ := fit
    cases fit with
    | none => exact ih
    | some fit =>
      unfold bestOf
      rw [ih]
      rfl

/-- Where a block is to be written depends on none of the three. -/
theorem writePlan_counterpart (data : ByteArray) :
    (p.counterpart staging index sizes).writePlan data = p.writePlan data := by
  unfold writePlan
  dsimp only
  rw [bestOf_counterpart]
  rfl

end

/-- The same placement, with its containers kept elsewhere. -/
def withStaging (p : Placement ι) (staging : Staging) : Placement ι :=
  { p with store := { p.store with staging := staging } }

/-- Containers may be brought back to where they were kept. -/
theorem withStaging_withStaging {p : Placement ι} {staging other : Staging} (h : p.store.staging = other) :
    (p.withStaging staging).withStaging other = p := by
  subst h
  rfl

/-- What placing a block does after its look-up. -/
theorem place_eq [Catalog ι] (p : Placement ι) (data : ByteArray) :
    p.place data =
      match p.lookup data with
      | (.error e, q) => (.error e, q)
      | (.ok (some hit), q) =>
        (.ok (q.useHit (p.settings.hash data) hit data.size).1,
          (q.useHit (p.settings.hash data) hit data.size).2)
      | (.ok none, q) =>
        q.carryOut (q.writePlan data) (p.settings.hash data) data (p.settings.dedup.indexes data) := by
  rcases p.place_cases data with ⟨e, q, hq, h⟩ | ⟨hit, q, hq, h⟩ | ⟨q, hq, h⟩ <;> rw [hq, h]

section

variable [Catalog ι] [Catalog κ]

/-- Two placements that differ in nothing but catalogs, which may be used one for the other, in how the sets
of their block sizes came about, and in where their containers are kept. The set of the second one is
`sizes`. -/
def Counterpart (S : CatalogSimulation ι κ) (sizes : Std.TreeSet Nat) (p : Placement ι)
    (q : Placement κ) : Prop :=
  ∃ staging index, q = p.counterpart staging index sizes ∧ Option.Rel S.Alike p.index index ∧
    sizes.Equiv p.blockSizes

variable {S : CatalogSimulation ι κ} {sizes : Std.TreeSet Nat} {p : Placement ι} {q : Placement κ}

namespace Counterpart

omit [Catalog κ] in
/-- Every placement is its own counterpart, and that of one with an equal set of block sizes, wherever that
one keeps its containers. -/
theorem refl (h : sizes.Equiv p.blockSizes) (staging : Staging) :
    Counterpart (.refl ι) sizes p (p.counterpart staging p.index sizes) := by
  refine ⟨staging, p.index, rfl, ?_, h⟩
  cases p.index with
  | none => exact .none
  | some x => exact .some rfl

theorem settings (h : Counterpart S sizes p q) : q.settings = p.settings := by
  obtain ⟨staging, index, rfl, -⟩ := h
  rfl

theorem data (h : Counterpart S sizes p q) : q.store.data = p.store.data := by
  obtain ⟨staging, index, rfl, -⟩ := h
  rfl

theorem size (h : Counterpart S sizes p q) : q.store.size = p.store.size := by
  obtain ⟨staging, index, rfl, -⟩ := h
  rfl

theorem holds (h : Counterpart S sizes p q) : q.store.holds = p.store.holds := by
  obtain ⟨staging, index, rfl, -⟩ := h
  rfl

theorem blockSizes (h : Counterpart S sizes p q) : q.blockSizes = sizes := by
  obtain ⟨staging, index, rfl, -⟩ := h
  rfl

theorem index (h : Counterpart S sizes p q) : Option.Rel S.Alike p.index q.index := by
  obtain ⟨staging, index, rfl, hindex, -⟩ := h
  exact hindex

/-- There are two catalogs, or none. -/
theorem index_cases (h : Counterpart S sizes p q) : (p.index = none ∧ q.index = none) ∨
    ∃ x y, p.index = some x ∧ q.index = some y ∧ S.Alike x y := by
  have hindex := h.index
  cases hp : p.index <;> cases hq : q.index <;> rw [hp, hq] at hindex <;> cases hindex
  · exact .inl ⟨rfl, rfl⟩
  · exact .inr ⟨_, _, rfl, rfl, ‹_›⟩

/-- Both catalogs may be changed, if there are any. -/
theorem map_index (h : Counterpart S sizes p q) {f : ι → ι} {g : κ → κ}
    (hfg : ∀ x y, S.Alike x y → S.Alike (f x) (g y)) :
    Option.Rel S.Alike (p.index.map f) (q.index.map g) := by
  rcases h.index_cases with ⟨hp, hq⟩ | ⟨x, y, hp, hq, hxy⟩ <;> rw [hp, hq]
  · exact .none
  · exact .some (hfg x y hxy)

omit [Catalog κ] in
/-- With one catalog, the set of block sizes and the place of the containers make the whole difference. -/
theorem eq_counterpart {q : Placement ι} (h : Counterpart (.refl ι) sizes p q) :
    q = p.counterpart q.store.staging p.index sizes := by
  obtain ⟨staging, index, rfl, hindex, -⟩ := h
  obtain rfl : p.index = index := by
    generalize p.index = own at hindex
    cases hindex with
    | none => rfl
    | some h => exact congrArg some h
  rfl

/-! ## Windows -/

theorem addWindow (h : Counterpart S sizes p q) (l : Location) (window : ByteArray) :
    Counterpart S sizes (p.addWindow l window) (q.addWindow l window) := by
  unfold Placement.addWindow
  rcases h.index_cases with ⟨hp, hq⟩ | ⟨x, y, hp, hq, hxy⟩
  · rw [hp, hq]
    exact h
  · obtain ⟨hanswer, hnext⟩ := S.findWindow hxy (p.settings.hash window)
    rw [hp, hq]
    dsimp only
    rw [h.settings, h.holds, ← hanswer]
    obtain ⟨staging, index, rfl, -, hsizes⟩ := h
    split
    · exact ⟨staging, _, rfl, .some hnext, hsizes⟩
    · exact ⟨staging, _, rfl, .some (S.addWindow hnext _ l), hsizes⟩

theorem predict (h : Counterpart S sizes p q) (l : Location) (length : Nat) :
    Counterpart S sizes (p.predict l length) (q.predict l length) := by
  unfold Placement.predict
  dsimp only
  rw [h.settings, h.size, h.data]
  split
  · split
    · exact h.addWindow _ _
    · exact h
  · exact h

theorem addWindows (h : Counterpart S sizes p q) (container blockSize first n : Nat) :
    Counterpart S sizes (p.addWindows container blockSize first n)
      (q.addWindows container blockSize first n) := by
  induction n generalizing p q first with
  | zero => exact h
  | succ n ih =>
    unfold Placement.addWindows
    dsimp only
    rw [h.settings, h.data]
    exact ih (h.addWindow _ _) (first + 1)

theorem enterWindows (h : Counterpart S sizes p q) (container size : Nat) (overlapped : Bool)
    (blockSize : Nat) :
    Counterpart S sizes (p.enterWindows container size overlapped blockSize)
      (q.enterWindows container size overlapped blockSize) := by
  have hsize : q.windowedSize container blockSize = p.windowedSize container blockSize := by
    obtain ⟨staging, index, rfl, -⟩ := h
    rfl
  have hdue : q.windowsDue container blockSize size overlapped =
      p.windowsDue container blockSize size overlapped := by
    obtain ⟨staging, index, rfl, -⟩ := h
    rfl
  unfold Placement.enterWindows
  dsimp only
  rw [hdue, hsize, h.settings]
  split
  · obtain ⟨staging, next, heq, hindex, hsizes⟩ := h.addWindows container blockSize
      (windowCount (max p.settings.windowPeriod 1) blockSize (p.windowedSize container blockSize))
      (windowCount (max p.settings.windowPeriod 1) blockSize size -
        windowCount (max p.settings.windowPeriod 1) blockSize (p.windowedSize container blockSize))
    rw [heq]
    exact ⟨staging, next, rfl, hindex, hsizes⟩
  · exact h

theorem foldl_enterWindows (container size : Nat) (overlapped : Bool) (blockSizes : List Nat)
    (h : Counterpart S sizes p q) :
    Counterpart S sizes (blockSizes.foldl (fun p n => p.enterWindows container size overlapped n) p)
      (blockSizes.foldl (fun q n => q.enterWindows container size overlapped n) q) := by
  induction blockSizes generalizing p q with
  | nil => exact h
  | cons n rest ih => exact ih (h.enterWindows container size overlapped n)

/-- Equal sets are gone through in the same order. -/
theorem enterDueWindows (h : Counterpart S sizes p q) (container size : Nat) (overlapped : Bool) :
    Counterpart S sizes (p.enterDueWindows container size overlapped)
      (q.enterDueWindows container size overlapped) := by
  have hsome : q.index.isSome = p.index.isSome := by
    rcases h.index_cases with ⟨hp, hq⟩ | ⟨x, y, hp, hq, -⟩ <;> rw [hp, hq] <;> rfl
  have hlist : q.blockSizes.toList = p.blockSizes.toList := by
    obtain ⟨staging, index, rfl, -, hsizes⟩ := h
    exact hsizes.toList_eq
  unfold Placement.enterDueWindows
  rw [h.settings, hsome, hlist]
  split
  · exact foldl_enterWindows container size overlapped _ h
  · exact h

/-! ## Look-ups -/

theorem firstBlock (h : Counterpart S sizes p q) (data : ByteArray) (known : List BlockNum) :
    q.firstBlock data known = p.firstBlock data known := by
  obtain ⟨staging, index, rfl, -⟩ := h
  exact p.firstBlock_counterpart staging index sizes data known

theorem firstWindow (h : Counterpart S sizes p q) (data : ByteArray) (known : List Location) :
    q.firstWindow data known = p.firstWindow data known := by
  obtain ⟨staging, index, rfl, -⟩ := h
  exact p.firstWindow_counterpart staging index sizes data known

/-- Both may go on with other catalogs. -/
theorem withCatalog (h : Counterpart S sizes p q) {x : ι} {y : κ} (hxy : S.Alike x y) :
    Counterpart S sizes { p with index := some x } { q with index := some y } := by
  obtain ⟨staging, index, rfl, -, hsizes⟩ := h
  exact ⟨staging, _, rfl, .some hxy, hsizes⟩

theorem findWindowHit (h : Counterpart S sizes p q) {x : ι} {y : κ} (hxy : S.Alike x y)
    (hash : UInt32) (data : ByteArray) :
    (p.findWindowHit x hash data).1 = (q.findWindowHit y hash data).1 ∧
      Counterpart S sizes (p.findWindowHit x hash data).2 (q.findWindowHit y hash data).2 := by
  obtain ⟨hanswer, hnext⟩ := S.findWindow hxy hash
  have hcatalog := h.withCatalog hnext
  have hmode : q.settings.dedup = p.settings.dedup := congrArg _ h.settings
  unfold Placement.findWindowHit
  dsimp only
  rw [hmode, ← hanswer, hcatalog.firstWindow]
  split
  · split <;> exact ⟨rfl, hcatalog⟩
  · exact ⟨rfl, h⟩

theorem findHit (h : Counterpart S sizes p q) (hash : UInt32) (data : ByteArray) :
    (p.findHit hash data).1 = (q.findHit hash data).1 ∧
      Counterpart S sizes (p.findHit hash data).2 (q.findHit hash data).2 := by
  unfold Placement.findHit
  rcases h.index_cases with ⟨hp, hq⟩ | ⟨x, y, hp, hq, hxy⟩
  · rw [hp, hq]
    exact ⟨rfl, h⟩
  · obtain ⟨hanswer, hnext⟩ := S.findReal hxy hash
    have hcatalog := h.withCatalog hnext
    rw [hp, hq]
    dsimp only
    rw [← hanswer, hcatalog.firstBlock]
    split
    · exact ⟨rfl, hcatalog⟩
    · exact ⟨rfl, hcatalog⟩
    · exact hcatalog.findWindowHit hnext hash data

/-! ## Enrolling -/

theorem register (h : Counterpart S sizes p q) (r : BlockRecord) :
    (p.register r).1 = (q.register r).1 ∧
      Counterpart S sizes (p.register r).2 (q.register r).2 := by
  obtain ⟨staging, index, rfl, hindex, hsizes⟩ := id h
  unfold Placement.register
  dsimp only [counterpart]
  cases p.numbers[r.code]? with
  | some b => exact ⟨rfl, h⟩
  | none => exact ⟨rfl, staging, index, rfl, hindex, hsizes⟩

/-- The block goes into both catalogs, or into none. -/
theorem enrol (h : Counterpart S sizes p q) (r : BlockRecord) (hash : UInt32) (indexed : Bool) :
    (p.enrol r hash indexed).1 = (q.enrol r hash indexed).1 ∧
      Counterpart S sizes (p.enrol r hash indexed).2 (q.enrol r hash indexed).2 := by
  obtain ⟨hnumber, hregistered⟩ := h.register r
  have hindex : Option.Rel S.Alike
      (if indexed then (p.register r).2.index.map (Catalog.addReal · hash (p.register r).1)
        else (p.register r).2.index)
      (if indexed then (q.register r).2.index.map (Catalog.addReal · hash (p.register r).1)
        else (q.register r).2.index) := by
    split
    · exact hregistered.map_index fun x y hxy => S.addReal hxy hash _
    · exact hregistered.index
  unfold Placement.enrol
  rw [← hnumber]
  obtain ⟨staging, index, heq, -, hsizes⟩ := hregistered
  rw [heq] at hindex ⊢
  exact ⟨rfl, staging, _, rfl, hindex, hsizes⟩

theorem releaseWindow (h : Counterpart S sizes p q) (hash : UInt32) (l : Location) (length : Nat) :
    Counterpart S sizes (p.releaseWindow hash l length) (q.releaseWindow hash l length) := by
  have hindex := h.map_index fun x y hxy => S.deleteWindow hxy hash l
  obtain ⟨staging, index, rfl, -, hsizes⟩ := h
  exact ⟨staging, _, rfl, hindex, hsizes⟩

theorem useHit (h : Counterpart S sizes p q) (hash : UInt32) (hit : Hit) (length : Nat) :
    (p.useHit hash hit length).1 = (q.useHit hash hit length).1 ∧
      Counterpart S sizes (p.useHit hash hit length).2 (q.useHit hash hit length).2 := by
  have hlocation : q.hitLocation hit = p.hitLocation hit := by
    obtain ⟨staging, index, rfl, -⟩ := h
    cases hit <;> rfl
  have htaken : (p.takeHit hash hit length).1 = (q.takeHit hash hit length).1 ∧
      Counterpart S sizes (p.takeHit hash hit length).2 (q.takeHit hash hit length).2 := by
    cases hit with
    | block b =>
      obtain ⟨staging, index, rfl, hindex, hsizes⟩ := h
      exact ⟨rfl, staging, index, rfl, hindex, hsizes⟩
    | window l =>
      unfold takeHit
      dsimp only
      rw [promote_eq, promote_eq]
      exact (h.releaseWindow hash l length).enrol _ hash true
  rw [useHit_eq, useHit_eq, hlocation]
  exact ⟨htaken.1, htaken.2.predict _ length⟩

/-! ## Writes -/

/-- Both have a container for the plan, or neither, unless a new one is needed and they are not kept at one
place. -/
theorem containerFor (h : Counterpart S sizes p q) (plan : WritePlan) :
    (∃ e, p.containerFor plan = .error e ∧ q.containerFor plan = .error e) ∨
      (∃ id p' q', p.containerFor plan = .ok (id, p') ∧ q.containerFor plan = .ok (id, q') ∧
        Counterpart S sizes p' q') ∨
      (plan.container = none ∧ q.store.staging ≠ p.store.staging) := by
  unfold Placement.containerFor
  cases hplan : plan.container with
  | some id => exact .inr (.inl ⟨id, p, q, rfl, rfl, h⟩)
  | none =>
    by_cases hstaging : q.store.staging = p.store.staging
    · obtain ⟨staging, index, rfl, hindex, hsizes⟩ := h
      obtain rfl : staging = p.store.staging := hstaging
      dsimp only [counterpart]
      cases p.store.create with
      | error e => exact .inl ⟨_, rfl, rfl⟩
      | ok r => exact .inr (.inl ⟨r.1, _, _, rfl, rfl, _, index, rfl, hindex, hsizes⟩)
    · exact .inr (.inr ⟨rfl, hstaging⟩)

theorem carryOut (h : Counterpart S sizes p q) (plan : WritePlan) (hash : UInt32) (data : ByteArray)
    (indexed : Bool) :
    ((p.carryOut plan hash data indexed).1 = (q.carryOut plan hash data indexed).1 ∧
      Counterpart S sizes (p.carryOut plan hash data indexed).2
        (q.carryOut plan hash data indexed).2) ∨
      (plan.container = none ∧ q.store.staging ≠ p.store.staging) := by
  unfold Placement.carryOut
  rcases h.containerFor plan with ⟨e, hp, hq⟩ | ⟨id, p', q', hp, hq, hchosen⟩ | hnew
  · rw [hp, hq]
    exact .inl ⟨rfl, h⟩
  · rw [hp, hq]
    dsimp only
    obtain ⟨staging, index, rfl, hindex, hsizes⟩ := hchosen
    rw [show (p'.counterpart staging index sizes).store = { p'.store with staging := staging } from rfl,
      p'.store.append_withStaging staging]
    cases p'.store.append id plan.fit.base data with
    | error e => exact .inl ⟨rfl, staging, index, rfl, hindex, hsizes⟩
    | ok w =>
      have hwritten : Counterpart S sizes (p'.written w.2 plan.fit data.size)
          ((p'.counterpart staging index sizes).written { w.2 with staging := staging } plan.fit
            data.size) :=
        ⟨staging, index, rfl, hindex, hsizes⟩
      obtain ⟨hnumber, henrolled⟩ := hwritten.enrol ⟨Location.ofNat id plan.fit.base, data.size⟩
        hash indexed
      have hentered := henrolled.enterDueWindows id w.1 (decide (0 < plan.fit.shared data.size))
      exact .inl ⟨congrArg Except.ok hnumber, hentered⟩
  · exact .inr hnew

/-! ## Placing -/

theorem lookup (h : Counterpart S sizes p q) (data : ByteArray) :
    (p.lookup data).1 = (q.lookup data).1 ∧
      Counterpart S sizes (p.lookup data).2 (q.lookup data).2 := by
  have hcounted : Counterpart S sizes
      { p with stats := { p.stats with placed := p.stats.placed + 1 } }
      { q with stats := { q.stats with placed := q.stats.placed + 1 } } := by
    obtain ⟨staging, index, rfl, hindex, hsizes⟩ := h
    exact ⟨staging, index, rfl, hindex, hsizes⟩
  have hmode : q.settings.dedup = p.settings.dedup := congrArg _ h.settings
  have hhash : q.settings.hash = p.settings.hash := congrArg _ h.settings
  unfold Placement.lookup
  dsimp only
  rw [hmode, hhash]
  split
  · exact hcounted.findHit _ data
  · exact ⟨rfl, hcounted⟩

/-- Placing a block has the same answer, unless it needs a new container and these are not kept at one
place. -/
theorem place_cases (h : Counterpart S sizes p q) (data : ByteArray) :
    ((p.place data).1 = (q.place data).1 ∧ Counterpart S sizes (p.place data).2 (q.place data).2) ∨
      (q.store.staging ≠ p.store.staging ∧ ∃ plan, plan.container = none ∧
        q.place data = (q.lookup data).2.carryOut plan (q.settings.hash data) data
          (q.settings.dedup.indexes data)) := by
  obtain ⟨hanswer, hfound⟩ := h.lookup data
  have hsame := (p.lookup_alike data).store
  have hsame' := (q.lookup_alike data).store
  rw [place_eq, place_eq, h.settings]
  rcases hp : p.lookup data with ⟨answer, p'⟩
  rcases hq : q.lookup data with ⟨answer', q'⟩
  rw [hp] at hanswer hfound hsame
  rw [hq] at hanswer hfound hsame'
  obtain rfl : answer = answer' := hanswer
  have hfound : Counterpart S sizes p' q' := hfound
  match answer with
  | .error e => exact .inl ⟨rfl, hfound⟩
  | .ok (some hit) =>
    obtain ⟨hnumber, hused⟩ := hfound.useHit (p.settings.hash data) hit data.size
    exact .inl ⟨congrArg Except.ok hnumber, hused⟩
  | .ok none =>
    have hplan : q'.writePlan data = p'.writePlan data := by
      obtain ⟨staging, index, rfl, -⟩ := hfound
      exact p'.writePlan_counterpart staging index sizes data
    dsimp only
    rw [hplan]
    refine (hfound.carryOut _ _ data _).imp_right ?_
    rintro ⟨hnew, hstaging⟩
    rw [hsame, hsame'] at hstaging
    exact ⟨hstaging, p'.writePlan data, hnew, rfl⟩

/-- **Placing a block has the same answer** where containers are kept at one place. -/
theorem place (h : Counterpart S sizes p q) (hstaging : q.store.staging = p.store.staging)
    (data : ByteArray) :
    (p.place data).1 = (q.place data).1 ∧ Counterpart S sizes (p.place data).2 (q.place data).2 :=
  (h.place_cases data).resolve_right fun hnew => hnew.1 hstaging

/-- A repeat that proves true is resolved; any other block is placed. -/
theorem placeRepeat_cases (h : Counterpart S sizes p q) (data : ByteArray) (earlier : BlockNum) :
    ((p.placeRepeat data earlier).1 = (q.placeRepeat data earlier).1 ∧
        Counterpart S sizes (p.placeRepeat data earlier).2 (q.placeRepeat data earlier).2) ∨
      (p.placeRepeat data earlier = p.place data ∧ q.placeRepeat data earlier = q.place data) := by
  obtain ⟨staging, index, rfl, hindex, hsizes⟩ := h
  have hrecord : (p.counterpart staging index sizes).record? earlier = p.record? earlier := rfl
  unfold Placement.placeRepeat
  rw [hrecord]
  cases p.record? earlier with
  | none => exact .inr ⟨rfl, rfl⟩
  | some r =>
    have hstores : (p.counterpart staging index sizes).storesAs r data = p.storesAs r data := rfl
    dsimp only
    rw [hstores]
    split
    · exact .inl ⟨rfl, staging, index, rfl, hindex, hsizes⟩
    · exact .inr ⟨rfl, rfl⟩

theorem placeRepeat (h : Counterpart S sizes p q) (hstaging : q.store.staging = p.store.staging)
    (data : ByteArray) (earlier : BlockNum) :
    (p.placeRepeat data earlier).1 = (q.placeRepeat data earlier).1 ∧
      Counterpart S sizes (p.placeRepeat data earlier).2 (q.placeRepeat data earlier).2 := by
  rcases h.placeRepeat_cases data earlier with hsame | ⟨hp, hq⟩
  · exact hsame
  · rw [hp, hq]
    exact h.place hstaging data

end Counterpart

end

variable [Catalog ι] {sizes : Std.TreeSet Nat} {p : Placement ι}

/-! ## Block sizes -/

/-- Placing a block leaves the set of block sizes as it is. -/
theorem place_blockSizes (p : Placement ι) (data : ByteArray) :
    (p.place data).2.blockSizes = p.blockSizes :=
  ((Counterpart.refl (p := p) .rfl p.store.staging).place rfl data).2.blockSizes

theorem placeRepeat_blockSizes (p : Placement ι) (data : ByteArray) (earlier : BlockNum) :
    (p.placeRepeat data earlier).2.blockSizes = p.blockSizes :=
  ((Counterpart.refl (p := p) .rfl p.store.staging).placeRepeat rfl data earlier).2.blockSizes

/-! ## Without room for containers -/

/-- A plan that needs a new container is not carried out where none can be made. -/
theorem carryOut_of_missing {plan : WritePlan} (hnew : plan.container = none)
    (hmissing : p.store.staging = .missing) (hash : UInt32) (data : ByteArray) (indexed : Bool) :
    p.carryOut plan hash data indexed = (.error (.storage .notFound), p) := by
  unfold carryOut containerFor
  rw [hnew]
  dsimp only
  rw [ContainerStore.create, if_pos hmissing]

/-- Nothing but the place of the containers distinguishes counterparts with one catalog and one set of block
sizes. -/
theorem Counterpart.eq_withStaging {q : Placement ι} {staging : Staging}
    (h : Counterpart (.refl ι) sizes p q) (hsizes : p.blockSizes = sizes)
    (hstaging : q.store.staging = staging) : q = p.withStaging staging := by
  rw [h.eq_counterpart, ← hsizes, ← hstaging]
  rfl

/-- Without room for containers a block is placed as ever, or the call fails after the look-up. -/
theorem place_withStaging (p : Placement ι) (data : ByteArray) :
    (p.withStaging .missing).place data =
        ((p.place data).1, (p.place data).2.withStaging .missing) ∨
      (p.withStaging .missing).place data =
        (.error (.storage .notFound), (p.lookup data).2.withStaging .missing) := by
  have hcounterpart : Counterpart (.refl ι) p.blockSizes p (p.withStaging .missing) :=
    .refl .rfl .missing
  have hlookup := (hcounterpart.lookup data).2
  have halike := (p.withStaging .missing).lookup_alike data
  rcases hcounterpart.place_cases data with ⟨hanswer, hnext⟩ | ⟨-, plan, hnew, hout⟩
  · exact .inl (Prod.ext hanswer.symm (hnext.eq_withStaging (p.place_blockSizes data)
      ((p.withStaging .missing).place_staging data)))
  · rw [carryOut_of_missing hnew (halike.store ▸ rfl)] at hout
    rw [hout]
    exact .inr (Prod.ext rfl (hlookup.eq_withStaging (p.lookup_alike data).blockSizes
      (halike.store ▸ rfl)))

theorem placeRepeat_withStaging (p : Placement ι) (data : ByteArray) (earlier : BlockNum) :
    (p.withStaging .missing).placeRepeat data earlier =
        ((p.placeRepeat data earlier).1, (p.placeRepeat data earlier).2.withStaging .missing) ∨
      (p.withStaging .missing).placeRepeat data earlier =
        (.error (.storage .notFound), (p.lookup data).2.withStaging .missing) := by
  have hcounterpart : Counterpart (.refl ι) p.blockSizes p (p.withStaging .missing) :=
    .refl .rfl .missing
  rcases hcounterpart.placeRepeat_cases data earlier with ⟨hanswer, hnext⟩ | ⟨hp, hq⟩
  · exact .inl (Prod.ext hanswer.symm (hnext.eq_withStaging (p.placeRepeat_blockSizes data earlier)
      ((p.withStaging .missing).placeRepeat_staging data earlier)))
  · rw [hp, hq]
    exact p.place_withStaging data

end Placement

end DedupImage
