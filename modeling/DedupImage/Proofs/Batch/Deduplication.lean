import DedupImage.Proofs.Batch.Calls
import DedupImage.Proofs.Index.CatalogView
import DedupImage.Proofs.Placement.Numbering

/-!
# Exact deduplication

From one call (`place_numbered`) to runs and batches: as long as the catalog loses nothing, the numbers
that a run returns are the ranks of its keys (`run_exact`), and the block lists of a batch depend on
nothing but the bytes that its sources deliver (`placeAll_exact`). In particular a pass that announces
repeats changes no list, whatever it announces.
-/

namespace DedupImage

namespace Placement

variable {ι : Type} [Catalog ι] {V : KeepingView ι} {p q : Placement ι}
  {seen : List (ByteArray × Option Nat)} {calls : Nat} {data : ByteArray}

/-! ## Calls -/

/-- A call that places a block of some bytes, no more than a container takes, and may make a container for it.
Repeats are announced only in modes that look up every block. -/
def Event.Plain (mode : Dedup) (capacity : Nat) : Event ι → Prop
  | .place data => 0 < data.size ∧ data.size ≤ capacity
  | .placeRepeat data _ => 0 < data.size ∧ data.size ≤ capacity ∧ mode.overlaps = true
  | .addBlockSize _ => True
  | .tamper _ => False
  | .obstructed _ _ => False

/-! ## Runs -/

omit [Catalog ι] in
theorem Event.Plain.not_tamper {mode : Dedup} {capacity : Nat} {e : Event ι}
    (h : e.Plain mode capacity) (index : Option ι) : e ≠ .tamper index := by
  rintro rfl
  exact h

/-- A placement whose numbers are the ranks of the keys seen. -/
structure Exact (V : KeepingView ι) (p : Placement ι) (seen : List (ByteArray × Option Nat))
    (calls : Nat) : Prop where
  healthy : Healthy V.toLossyView p
  numbered : Numbered V p seen calls
  index : p.settings.dedup.usesIndex = true → ∃ x, p.index = some x
  /-- Every container was made for a new block. -/
  containers : p.store.count ≤ seen.length

/-- A step neither takes a catalog away nor brings one. -/
theorem index_of_asked (hext : p.Extends q) (hasked : Asked p q)
    (h : p.settings.dedup.usesIndex = true → ∃ x, p.index = some x)
    (hq : q.settings.dedup.usesIndex = true) : ∃ y, q.index = some y := by
  rw [hext.settings] at hq
  obtain ⟨x, hx⟩ := h hq
  unfold Asked Via at hasked
  rw [hx] at hasked
  cases hy : q.index with
  | none =>
    rw [hy] at hasked
    cases hasked
  | some y => exact ⟨y, rfl⟩

theorem place_exact (h : Exact V p seen calls) (hdata : 0 < data.size)
    (hle : data.size ≤ p.store.capacity) (hfit : (p.place data).2.blocks.size < 2 ^ 32)
    (hintact : IndexIntact V (p.place data).2) :
    (p.place data).1 = .ok (numberIn (meet seen (blockKey p.settings.dedup calls data))
        (blockKey p.settings.dedup calls data)) ∧
      Exact V (p.place data).2 (meet seen (blockKey p.settings.dedup calls data)) (calls + 1) := by
  have haddressable : (p.place data).2.Addressable := by
    refine ⟨hfit.le, (p.place_count_le data).trans (Nat.succ_le_of_lt ?_)⟩
    exact h.containers.trans_lt (h.numbered.size ▸ (p.place_extends data).size_le.trans_lt hfit)
  obtain ⟨hnumber, hnumbered⟩ :=
    place_numbered h.healthy h.numbered h.index hdata hle haddressable hintact
  exact ⟨hnumber, place_healthy h.healthy data haddressable, hnumbered,
    index_of_asked (p.place_extends data) (p.place_asked data) h.index,
    place_containers h.healthy h.numbered h.index h.containers hintact⟩

theorem placeRepeat_exact (h : Exact V p seen calls) (hdata : 0 < data.size)
    (hle : data.size ≤ p.store.capacity) (hmode : p.settings.dedup.overlaps = true)
    (earlier : BlockNum) (hfit : (p.placeRepeat data earlier).2.blocks.size < 2 ^ 32)
    (hintact : IndexIntact V (p.placeRepeat data earlier).2) :
    (p.placeRepeat data earlier).1 = .ok (numberIn (meet seen (blockKey p.settings.dedup calls data))
        (blockKey p.settings.dedup calls data)) ∧
      Exact V (p.placeRepeat data earlier).2 (meet seen (blockKey p.settings.dedup calls data))
        (calls + 1) := by
  rcases p.placeRepeat_cases data earlier with ⟨r, hr, hs, heq⟩ | heq <;> rw [heq] at hfit hintact ⊢
  · have hi : p.settings.dedup.indexes data = true := by
      by_contra hi
      rw [overlaps_of_not_indexes hi] at hmode
      cases hmode
    obtain ⟨hk, hb⟩ := h.numbered.rank_of_resolves hi ⟨r, hr, hs⟩ calls
    have hcounted := (Alike.counted p
      { p.stats with placed := p.stats.placed + 1, reused := p.stats.reused + 1 })
    rw [meet_of_mem hk]
    exact ⟨congrArg Except.ok hb,
      h.healthy.of_extends hcounted.extends (hcounted.consistent h.healthy.consistent) (.of_eq rfl),
      h.numbered.later hcounted.extends rfl (.of_eq rfl) h.healthy.sound.valid hintact (Nat.le_succ _),
      h.index, h.containers⟩
  · exact place_exact h hdata hle hfit hintact

theorem addBlockSize_exact (h : Exact V p seen calls) (size : Nat) :
    Exact V (p.addBlockSize size) seen calls := by
  have hext := p.step_extends (.addBlockSize size)
  refine ⟨h.healthy.of_extends hext (h.healthy.consistent.congr rfl rfl rfl) (.of_eq rfl), ?_, h.index,
    h.containers⟩
  exact ⟨h.numbered.size, h.numbered.nodup, h.numbered.keys, h.numbered.resolves, h.numbered.held⟩

/-- The answers of a list of calls with these keys, after the keys seen. -/
def ranksOf (seen keys : List (ByteArray × Option Nat)) : List (Except Failure BlockNum) :=
  keys.map fun k => .ok (numberIn (meetAll seen keys) k)

theorem ranksOf_append (seen first rest : List (ByteArray × Option Nat)) :
    ranksOf seen (first ++ rest) = ranksOf seen first ++ ranksOf (meetAll seen first) rest := by
  unfold ranksOf
  rw [List.map_append, meetAll_append]
  refine congrArg (· ++ _) (List.map_congr_left fun k hk => ?_)
  rw [numberIn_meetAll (mem_meetAll seen hk)]

theorem step_exact (h : Exact V p seen calls) {e : Event ι}
    (he : e.Plain p.settings.dedup p.store.capacity) (hfit : (p.step e).2.blocks.size < 2 ^ 32)
    (hintact : IndexIntact V (p.step e).2) :
    (p.step e).1.toList = ranksOf seen (blockKeys p.settings.dedup calls e.data?.toList) ∧
      Exact V (p.step e).2 (meetAll seen (blockKeys p.settings.dedup calls e.data?.toList))
        (calls + e.data?.toList.length) := by
  cases e with
  | place data =>
    obtain ⟨hnumber, hexact⟩ := place_exact h he.1 he.2 hfit hintact
    exact ⟨congrArg (fun a => [a]) hnumber, hexact⟩
  | placeRepeat data earlier =>
    obtain ⟨hnumber, hexact⟩ := placeRepeat_exact h he.1 he.2.1 he.2.2 earlier hfit hintact
    exact ⟨congrArg (fun a => [a]) hnumber, hexact⟩
  | addBlockSize size => exact ⟨rfl, addBlockSize_exact h size⟩
  | tamper index => exact he.elim
  | obstructed data earlier => exact he.elim

/-- **The numbers of a run** are the ranks of the keys of its blocks. -/
theorem run_exact (h : Exact V p seen calls) {events : List (Event ι)}
    (hevents : ∀ e ∈ events, e.Plain p.settings.dedup p.store.capacity)
    (hfit : (p.run events).2.blocks.size < 2 ^ 32) (hintact : IndexIntact V (p.run events).2) :
    (p.run events).1 =
        ranksOf seen (blockKeys p.settings.dedup calls (events.filterMap Event.data?)) ∧
      Exact V (p.run events).2
        (meetAll seen (blockKeys p.settings.dedup calls (events.filterMap Event.data?)))
        (calls + (events.filterMap Event.data?).length) := by
  induction events generalizing p seen calls with
  | nil => exact ⟨rfl, h⟩
  | cons e rest ih =>
    have he := hevents e List.mem_cons_self
    have hext := p.step_extends e
    have hrest : ∀ e' ∈ rest, e'.Plain (p.step e).2.settings.dedup (p.step e).2.store.capacity := by
      rw [hext.settings, hext.store.capacity]
      exact fun e' he' => hevents e' (List.mem_cons_of_mem e he')
    have hstepIntact : IndexIntact V (p.step e).2 :=
      hintact.of_asked (IndexValid.asked h.healthy.sound.valid (p.step_asked he.not_tamper))
        (run_asked _ fun e' he' => (hrest e' he').not_tamper)
    obtain ⟨hanswer, hstep⟩ := step_exact h he ((run_extends _ rest).size_le.trans_lt hfit) hstepIntact
    obtain ⟨hanswers, hrun⟩ := ih hstep hrest hfit hintact
    have hdatas : (e :: rest).filterMap Event.data? = e.data?.toList ++ rest.filterMap Event.data? := by
      cases hdata : e.data? with
      | none => rw [List.filterMap_cons_none hdata]; rfl
      | some data => rw [List.filterMap_cons_some hdata]; rfl
    rw [hext.settings] at hanswers hrun
    rw [hdatas, blockKeys_append, ranksOf_append, meetAll_append, List.length_append, ← Nat.add_assoc]
    refine ⟨?_, hrun⟩
    show (p.step e).1.toList ++ ((p.step e).2.run rest).1 = _
    rw [hanswer, hanswers]

/-- A placement before its first call, with a catalog if its mode needs one. -/
structure Begins (V : LossyView ι) (p : Placement ι) : Prop where
  store : ∃ capacity reserve staging, p.store = .empty capacity reserve staging ∧ capacity < 2 ^ 32
  blocks : p.blocks = #[]
  numbers : p.numbers = ∅
  index : p.settings.dedup.usesIndex = true → ∃ x, p.index = some x
  fresh : ∀ x, p.index = some x → V.Fresh x

theorem Begins.consistent {V : LossyView ι} (h : Begins V p) : p.Consistent := by
  obtain ⟨capacity, reserve, staging, hstore, hcapacity⟩ := h.store
  refine ⟨?_, ?_, ?_, ?_⟩
  · rw [hstore]
    exact ContainerStore.empty_valid _ _ _
  · rw [hstore]
    exact hcapacity
  · intro code b hb
    rw [h.numbers, Std.TreeMap.getElem?_emptyc] at hb
    cases hb
  · intro r hr
    rw [h.blocks] at hr
    exact absurd hr (Array.not_mem_empty r)

theorem Begins.count {V : LossyView ι} (h : Begins V p) : p.store.count = 0 := by
  obtain ⟨capacity, reserve, staging, hstore, -⟩ := h.store
  rw [hstore]
  rfl

theorem Begins.barren {V : LossyView ι} (h : Begins V p) (hstaging : p.store.staging = .missing) :
    Barren p :=
  ⟨h.consistent, h.count, hstaging⟩

theorem Begins.exact (h : Begins V.toLossyView p) (hstaging : p.store.staging ≠ .missing) :
    Exact V p [] 0 where
  healthy := ⟨h.consistent, ⟨fun x hx => (h.fresh x hx).valid, fun x hx e he =>
    absurd he ((h.fresh x hx).empty e)⟩, hstaging⟩
  numbered :=
    { size := by rw [h.blocks]; rfl
      nodup := List.nodup_nil
      keys := fun k hk => (nomatch hk)
      resolves := fun i k hk => (nomatch hk)
      held := fun i k hk => (nomatch hk) }
  index := h.index
  containers := h.count.le

theorem Calls.asked (h : Calls p q) : Asked p q := by
  obtain ⟨events, hevents, rfl⟩ := h
  refine run_asked p ?_
  intro e he index hindex
  have hdata := hevents e he
  rw [hindex] at hdata
  cases hdata

end Placement

/-! ## Batches -/

namespace BatchState

open Placement

variable {ι : Type} [Catalog ι] {V : KeepingView ι} {s t : BatchState ι}
  {seen : List (ByteArray × Option Nat)} {calls : Nat}

omit [Catalog ι] in
theorem nextEvent_plain (s : BatchState ι) (repeats : Repeats) {mode : Dedup} {capacity : Nat}
    {data : ByteArray} (hmode : mode.overlaps = true) (hdata : 0 < data.size)
    (hle : data.size ≤ capacity) : (s.nextEvent repeats data).Plain mode capacity := by
  unfold nextEvent
  split
  · exact ⟨hdata, hle, hmode⟩
  · exact ⟨hdata, hle⟩

/-- In a mode that looks up every block, bytes alone are the key. -/
theorem blockKey_of_overlaps {mode : Dedup} (hmode : mode.overlaps = true) (call : Nat)
    (data : ByteArray) : blockKey mode call data = (data, none) := by
  cases mode <;> first | rfl | cases hmode

/-- The keys of blocks in such a mode. -/
def contentKeys (datas : List ByteArray) : List (ByteArray × Option Nat) :=
  datas.map (·, none)

/-- The next block gets the rank of its bytes. -/
theorem placeNext_exact (h : Exact V s.placement seen calls) (repeats : Repeats) {data : ByteArray}
    (hmode : s.placement.settings.dedup.overlaps = true) (hdata : 0 < data.size)
    (hle : data.size ≤ s.placement.store.capacity)
    (hfit : (s.placeNext repeats data).2.placement.blocks.size < 2 ^ 32)
    (hintact : IndexIntact V (s.placeNext repeats data).2.placement) :
    ∃ p, s.placeNext repeats data =
        (.ok (numberIn (meet seen (data, none)) (data, none)),
          { s with
            placement := p
            placed := s.placed.push (numberIn (meet seen (data, none)) (data, none)) }) ∧
      Exact V p (meet seen (data, none)) (calls + 1) := by
  have hplain : (s.nextEvent repeats data).Plain s.placement.settings.dedup
      s.placement.store.capacity := s.nextEvent_plain repeats hmode hdata hle
  rcases s.placeNext_cases repeats data with ⟨e, p, hp, heq⟩ | ⟨b, p, hp, heq⟩
  all_goals
    rw [heq] at hfit hintact
    obtain ⟨hanswer, hexact⟩ := step_exact h hplain (by rw [hp]; exact hfit) (by rw [hp]; exact hintact)
    rw [hp, nextEvent_data?] at hanswer hexact
    simp only [Option.toList_some, blockKeys, blockKey_of_overlaps hmode] at hanswer hexact
  · cases hanswer
  · cases hanswer
    exact ⟨p, heq, hexact⟩

/-- The numbers of blocks, after the blocks whose keys were seen. -/
def contentNumbers (seen : List (ByteArray × Option Nat)) (datas : List ByteArray) : List BlockNum :=
  (contentKeys datas).map fun k => numberIn (meetAll seen (contentKeys datas)) k

theorem contentNumbers_cons (seen : List (ByteArray × Option Nat)) (data : ByteArray)
    (rest : List ByteArray) :
    contentNumbers seen (data :: rest) =
      numberIn (meet seen (data, none)) (data, none) ::
        contentNumbers (meet seen (data, none)) rest := by
  have hfirst : numberIn (meetAll seen (contentKeys (data :: rest))) (data, none) =
      numberIn (meet seen (data, none)) (data, none) := by
    unfold contentKeys
    rw [List.map_cons, meetAll, List.foldl_cons]
    exact numberIn_meetAll (mem_meet_self seen (data, none))
  exact congrArg (· :: contentNumbers (meet seen (data, none)) rest) hfirst

/-- The blocks of an item get the ranks of their bytes. -/
theorem placeBlocks_exact (h : Exact V s.placement seen calls) (repeats : Repeats)
    (hmode : s.placement.settings.dedup.overlaps = true) {datas : List ByteArray}
    (hdatas : ∀ data ∈ datas, 0 < data.size ∧ data.size ≤ s.placement.store.capacity)
    (list : Array BlockNum)
    (hfit : (s.placeBlocks repeats list datas).2.placement.blocks.size < 2 ^ 32)
    (hintact : IndexIntact V (s.placeBlocks repeats list datas).2.placement) :
    ∃ t, s.placeBlocks repeats list datas = (.ok (list ++ (contentNumbers seen datas).toArray), t) ∧
      t.lists = s.lists ∧
      Exact V t.placement (meetAll seen (contentKeys datas)) (calls + datas.length) := by
  induction datas generalizing s seen calls list with
  | nil => exact ⟨s, by rw [placeBlocks]; simp [contentNumbers, contentKeys], rfl, h⟩
  | cons data rest ih =>
    obtain ⟨hdata, hle⟩ := hdatas data List.mem_cons_self
    have hcalls := s.placeNext_calls repeats data
    have hlater : Calls (s.placeNext repeats data).2.placement
        (s.placeBlocks repeats list (data :: rest)).2.placement := by
      unfold placeBlocks
      rcases s.placeNext repeats data with ⟨e | b, s'⟩
      · exact .refl _
      · exact s'.placeBlocks_calls repeats _ rest
    obtain ⟨p, hnext, hexact⟩ := placeNext_exact h repeats hmode hdata hle
      (hlater.extends.size_le.trans_lt hfit)
      (hintact.of_asked (IndexValid.asked h.healthy.sound.valid hcalls.asked) hlater.asked)
    rw [hnext] at hcalls
    have hext := hcalls.extends
    unfold placeBlocks at hfit hintact ⊢
    simp only [hnext] at hfit hintact ⊢
    obtain ⟨t, ht, hlists, hfinal⟩ := ih hexact (by rw [hext.settings]; exact hmode)
      (fun d hd => hext.store.capacity ▸ hdatas d (List.mem_cons_of_mem data hd)) _ hfit hintact
    refine ⟨t, ?_, hlists, ?_⟩
    · rw [ht, contentNumbers_cons]
      simp
    · rw [List.length_cons, ← Nat.add_assoc, Nat.add_right_comm]
      exact hfinal

/-! ## Lists -/

/-- What a batch comes to if every block gets the rank of its bytes: its outcome and its block lists,
from what its items deliver. -/
def rankedLists (opening : Nat) (seen : List (ByteArray × Option Nat))
    (lists : Array (Array BlockNum)) :
    List ScheduledItem → Except Failure Unit × Array (Array BlockNum)
  | [] => (.ok (), lists)
  | item :: rest =>
    match item.delivery opening with
    | .error e => (.error (.storage e), lists)
    | .ok (_, some e) => (.error (.storage e), lists)
    | .ok (blocks, none) =>
      rankedLists opening (meetAll seen (contentKeys blocks.toList))
        (lists.setIfInBounds item.slot (contentNumbers seen blocks.toList).toArray) rest

/-- The lists depend on nothing but what the items deliver. -/
theorem rankedLists_congr {items : List ScheduledItem} {opening opening' : Nat}
    (h : ∀ item ∈ items, item.delivery opening = item.delivery opening')
    (seen : List (ByteArray × Option Nat)) (lists : Array (Array BlockNum)) :
    rankedLists opening seen lists items = rankedLists opening' seen lists items := by
  induction items generalizing seen lists with
  | nil => rfl
  | cons item rest ih =>
    unfold rankedLists
    rw [h item List.mem_cons_self]
    split
    · rfl
    · rfl
    · exact ih (fun i hi => h i (List.mem_cons_of_mem item hi)) _ _

/-- An item is placed by placing its blocks. -/
theorem placeItem_placement {s : BatchState ι} {repeats : Repeats} {opening : Nat}
    {item : ScheduledItem} {blocks : Array ByteArray} {ending : Option StorageFailure}
    (h : item.delivery opening = .ok (blocks, ending)) :
    (s.placeItem repeats opening item).2.placement =
      (s.placeBlocks repeats #[] blocks.toList).2.placement := by
  simp only [placeItem_eq, h]
  rcases s.placeBlocks repeats #[] blocks.toList with ⟨e | list, t⟩
  · rfl
  · cases ending <;> rfl

/-- What placing an item comes to. -/
theorem placeItem_exact (h : Exact V s.placement seen calls) (repeats : Repeats) (opening : Nat)
    (hmode : s.placement.settings.dedup.overlaps = true) {item : ScheduledItem}
    (hsize : item.blockSize ≤ s.placement.store.capacity)
    (hfit : (s.placeItem repeats opening item).2.placement.blocks.size < 2 ^ 32)
    (hintact : IndexIntact V (s.placeItem repeats opening item).2.placement) :
    match item.delivery opening with
    | .error e => s.placeItem repeats opening item = (.error (.storage e), s)
    | .ok (_, some e) =>
      ∃ t, s.placeItem repeats opening item = (.error (.storage e), t) ∧ t.lists = s.lists
    | .ok (blocks, none) =>
      ∃ t, s.placeItem repeats opening item = (.ok (), t) ∧
        t.lists =
          s.lists.setIfInBounds item.slot (contentNumbers seen blocks.toList).toArray ∧
        Exact V t.placement (meetAll seen (contentKeys blocks.toList))
          (calls + blocks.toList.length) := by
  cases hdelivery : item.delivery opening with
  | error e => rw [placeItem_eq, hdelivery]
  | ok delivered =>
    obtain ⟨blocks, ending⟩ := delivered
    rw [placeItem_placement hdelivery] at hfit hintact
    obtain ⟨t, ht, hlists, hexact⟩ := placeBlocks_exact h repeats hmode
      (fun data hdata => (ScheduledItem.mem_delivery hdelivery hdata).imp_right (·.trans hsize)) #[]
      hfit hintact
    rw [Array.empty_append] at ht
    cases ending with
    | some e => exact ⟨t, by rw [placeItem_eq, hdelivery]; simp only [ht], hlists⟩
    | none =>
      refine ⟨{ t with lists := t.lists.setIfInBounds item.slot (contentNumbers seen blocks.toList).toArray },
        ?_, by rw [hlists], hexact⟩
      rw [placeItem_eq, hdelivery]
      simp only [ht]

/-- A batch whose catalog loses nothing gets the lists that its items' bytes determine. -/
theorem placeAll_exact (h : Exact V s.placement seen calls) (repeats : Repeats) (opening : Nat)
    (hmode : s.placement.settings.dedup.overlaps = true) {items : List ScheduledItem}
    (hsizes : ∀ item ∈ items, item.blockSize ≤ s.placement.store.capacity)
    (hfit : (s.placeAll repeats opening items).2.placement.blocks.size < 2 ^ 32)
    (hintact : IndexIntact V (s.placeAll repeats opening items).2.placement) :
    ((s.placeAll repeats opening items).1, (s.placeAll repeats opening items).2.lists) =
      rankedLists opening seen s.lists items := by
  induction items generalizing s seen calls with
  | nil => rfl
  | cons item rest ih =>
    have hcalls := s.placeItem_calls repeats opening item
    have hlater : Calls (s.placeItem repeats opening item).2.placement
        (s.placeAll repeats opening (item :: rest)).2.placement := by
      unfold placeAll
      rcases s.placeItem repeats opening item with ⟨e | _, s'⟩
      · exact .refl _
      · exact s'.placeAll_calls repeats opening rest
    have hitem := placeItem_exact h repeats opening hmode (hsizes item List.mem_cons_self)
      (hlater.extends.size_le.trans_lt hfit)
      (hintact.of_asked (IndexValid.asked h.healthy.sound.valid hcalls.asked) hlater.asked)
    unfold placeAll at hfit hintact ⊢
    unfold rankedLists
    split at hitem
    · simp only [*]
    · obtain ⟨t, ht, hlists⟩ := hitem
      simp only [*]
    · rename_i blocks hdelivery
      obtain ⟨t, ht, hlists, hexact⟩ := hitem
      have hext := ht ▸ hcalls.extends
      simp only [ht] at hfit hintact ⊢
      simp only [← hlists]
      exact ih hexact (by rw [hext.settings]; exact hmode)
        (fun i hi => hext.store.capacity ▸ hsizes i (List.mem_cons_of_mem item hi)) hfit hintact

end BatchState

/-! ## Main result -/

open Placement

variable {ι : Type} [Catalog ι]

/-- **Equal blocks share a number, and different ones do not.** As long as the catalog of a placement
loses nothing, the numbers that a run of calls returns are the ranks of its blocks in order of first
occurrence, whatever repeats were announced. Blocks that the mode looks up are the same block if their
bytes are equal, and the block table has one entry for each; all others are different from each other.
Where no containers can be made, no number is returned.

So the block lists of a batch do not depend on the pass over it: in both modes that share all blocks they
are the same, whatever repeats the pass may have found. -/
theorem equal_blocks_share_numbers (V : KeepingView ι) :
    (∀ (p : Placement ι) (events : List (Event ι)), Begins V.toLossyView p →
      (∀ e ∈ events, e.Plain p.settings.dedup p.store.capacity) →
      IndexIntact V (p.run events).2 → (p.run events).2.blocks.size < 2 ^ 32 →
      let datas := events.filterMap Event.data?
      let keys := blockKeys p.settings.dedup 0 datas
      if p.store.staging = .missing then
        ∀ b, .ok b ∉ (p.run events).1
      else
        ∃ numbers : List BlockNum,
          (p.run events).1 = numbers.map .ok ∧
          numbers.map (·.number.toNat) = keys.map (rankIn (distinct keys)) ∧
          (∀ (i j : Nat) a b, datas[i]? = some a → datas[j]? = some b →
            (numbers[i]? = numbers[j]? ↔
              i = j ∨ (p.settings.dedup.indexes a = true ∧ a = b))) ∧
          (p.run events).2.blocks.size = (distinct keys).length ∧
          ∀ (i : Nat) key, (distinct keys)[i]? = some key →
            (p.run events).2.Resolves ⟨i.toUInt32⟩ key.1) ∧
    (∀ (s t : BatchState ι) (repeats repeats' : Repeats) (opening opening' : Nat)
      (items : List ScheduledItem),
      Begins V.toLossyView s.placement → Begins V.toLossyView t.placement →
      s.placement.settings.dedup = .all → t.placement.settings.dedup = .prepass →
      s.placement.store.staging ≠ .missing → t.placement.store.staging ≠ .missing →
      s.lists = t.lists →
      (∀ item ∈ items, item.blockSize ≤ s.placement.store.capacity ∧
        item.blockSize ≤ t.placement.store.capacity ∧
        item.delivery opening = item.delivery opening') →
      (s.placeAll repeats opening items).2.placement.blocks.size < 2 ^ 32 →
      (t.placeAll repeats' opening' items).2.placement.blocks.size < 2 ^ 32 →
      IndexIntact V (s.placeAll repeats opening items).2.placement →
      IndexIntact V (t.placeAll repeats' opening' items).2.placement →
      (s.placeAll repeats opening items).1 = (t.placeAll repeats' opening' items).1 ∧
        (s.placeAll repeats opening items).2.lists = (t.placeAll repeats' opening' items).2.lists) := by
  constructor
  · intro p events hp hevents hintact hfit datas keys
    by_cases hstaging : p.store.staging = .missing
    · rw [if_pos hstaging]
      intro b
      exact run_barren (hp.barren hstaging)
    · rw [if_neg hstaging]
      obtain ⟨hanswers, hexact⟩ := run_exact (hp.exact hstaging) hevents hfit hintact
      rw [Nat.zero_add] at hexact
      have hsize : (distinct keys).length ≤ 2 ^ 32 := hexact.numbered.size ▸ hfit.le
      refine ⟨keys.map (numberIn (distinct keys)), ?_, ?_, ?_, hexact.numbered.size,
        hexact.numbered.resolves⟩
      · rw [hanswers, List.map_map]
        rfl
      · rw [List.map_map]
        apply List.map_congr_left
        intro key hkey
        exact toNat_numberIn (mem_meetAll [] hkey) hsize
      · intro i j a b ha hb
        exact blockNumbers_eq_iff ha hb hsize
  · intro s t repeats repeats' opening opening' items hs ht hsmode htmode hsstaging htstaging hlists
      hitems hsfit htfit hsintact htintact
    have hsall := BatchState.placeAll_exact (hs.exact hsstaging) repeats opening (by rw [hsmode]; rfl)
      (fun item hitem => (hitems item hitem).1) hsfit hsintact
    have htall := BatchState.placeAll_exact (ht.exact htstaging) repeats' opening'
      (by rw [htmode]; rfl) (fun item hitem => (hitems item hitem).2.1) htfit htintact
    rw [← hlists, ← BatchState.rankedLists_congr (fun item hitem => (hitems item hitem).2.2),
      ← hsall] at htall
    exact ⟨(Prod.mk.inj htall).1.symm, (Prod.mk.inj htall).2.symm⟩

/-- A placement in which every hash is the same. -/
def collidingPlacement (mode : Dedup) :
    Placement (BlockIndex (TableSegment BlockNum) (TableSegment Location)) :=
  start (collidingSettings mode) (.empty 4 1 .memory)
    (some (BlockIndex.emptyTables ⟨1, 4, 4⟩ ⟨1, 1, 2⟩))

theorem collidingPlacement_begins (mode : Dedup) :
    Begins BlockIndex.tableView.toLossyView (collidingPlacement mode) where
  store := ⟨4, 1, .memory, rfl, by decide⟩
  blocks := rfl
  numbers := rfl
  index _ := ⟨_, rfl⟩
  fresh _ hx := Option.some.inj hx ▸ BlockIndex.emptyTables_fresh _ _

/-- A catalog in memory is intact if the test says so. -/
theorem tables_intact
    {p : Placement (BlockIndex (TableSegment BlockNum) (TableSegment Location))}
    (h : p.index.all (·.real.isWhole) = true) : IndexIntact BlockIndex.tableView p := fun x hx => by
  rw [hx] at h
  exact ShardedIndex.isWhole_iff.mp h

set_option maxRecDepth 1000000 in
/-- The blocks `1 2`, `2 3` and `1 2`, the second announced as a repeat of the first, which it is not. -/
theorem colliding_blocks_share_numbers :
    let items : List ScheduledItem := [⟨.ofBytes ⟨#[97]⟩ ⟨#[1, 2, 2, 3, 1, 2]⟩, 0, 2, 0⟩]
    let s : BatchState _ := { placement := collidingPlacement .all, lists := #[#[]] }
    let t : BatchState _ := { placement := collidingPlacement .prepass, lists := #[#[]] }
    let repeats : Repeats := ⟨3, .ofList [(1, 0)]⟩
    (∃ numbers : List BlockNum,
      ((collidingPlacement .all).run
        [.place ⟨#[1, 2]⟩, .placeRepeat ⟨#[2, 3]⟩ ⟨0⟩, .place ⟨#[1, 2]⟩]).1 = numbers.map .ok ∧
      numbers.map (·.number.toNat) = [0, 1, 0]) ∧
    (s.placeAll {} 0 items).2.lists = (t.placeAll repeats 1 items).2.lists := by
  intro items s t repeats
  have h := equal_blocks_share_numbers BlockIndex.tableView
  constructor
  · obtain ⟨numbers, hanswers, hranks, -⟩ := h.1 (collidingPlacement .all)
      [.place ⟨#[1, 2]⟩, .placeRepeat ⟨#[2, 3]⟩ ⟨0⟩, .place ⟨#[1, 2]⟩]
      (collidingPlacement_begins .all) (by simp [Event.Plain]; decide) (tables_intact (by cbv)) (by cbv)
    exact ⟨numbers, hanswers, hranks⟩
  · exact (h.2 s t {} repeats 0 1 items (collidingPlacement_begins .all)
      (collidingPlacement_begins .prepass) rfl rfl (by decide) (by decide) rfl
      (fun item hitem => by obtain rfl := List.mem_singleton.mp hitem; exact ⟨by decide, by decide, rfl⟩)
      (by cbv) (by cbv) (tables_intact (by cbv)) (tables_intact (by cbv))).2

end DedupImage
