import DedupImage.Proofs.Batch.Deduplication
import DedupImage.Proofs.Image.Ordering
import DedupImage.Proofs.Placement.Accounting

/-!
# The totals of a build

A run without errors counts every call and every byte (`counts_account_for_every_byte`): its sums follow
from the account of the calls (`Placement.run_account`). How many records there are is exact where every
block that is not reused gets a record of its own. In a mode without overlaps that needs no more than the
containers. In the others it rests on the catalog, and on the invariant that the numbers of the blocks are
the ranks of their bytes: a block that was seen is found, so one that is not reused was not seen
(`run_records_of_intact`).

A flush that ends well is such a run (`Placement.Answered`), and the bytes that its summary gives for all
containers are the bytes that were counted as written.
-/

namespace DedupImage

namespace Placement

variable {ι : Type} [Catalog ι] {V : KeepingView ι} {p q r : Placement ι}
  {seen : List (ByteArray × Option Nat)} {calls : Nat} {data : ByteArray}

/-! ## Intact catalogs -/

/-- A block that was seen is reused. -/
theorem place_reused_of_mem (h : Exact V p seen calls) (hintact : IndexIntact V (p.place data).2)
    (hk : blockKey p.settings.dedup calls data ∈ seen) :
    (p.place data).2.stats.reused = p.stats.reused + 1 := by
  have hvalid : IndexValid V (p.lookup data).2 :=
    IndexValid.asked h.healthy.sound.valid (p.lookup_asked data)
  obtain ⟨b, hb⟩ := lookup_of_mem h.healthy h.numbered
    (h.index (usesIndex_of_indexes (h.numbered.indexes_of_mem hk)))
    (hintact.of_asked hvalid (p.place_asked_lookup data)) hk
  have hstats := p.lookup_stats data
  rcases p.place_cases data with ⟨e, q, hq, hout⟩ | ⟨hit, q, hq, hout⟩ | ⟨q, hq, hout⟩ <;>
    rw [hq] at hb hstats
  · cases hb
  · obtain rfl := Option.some.inj (Except.ok.inj hb)
    have hstats : q.stats = { p.stats with placed := p.stats.placed + 1 } := hstats
    have hsame : q.stats.reused = p.stats.reused := by rw [hstats]
    obtain ⟨n, hn⟩ := predict_counts (q.takeHit (p.settings.hash data) (.block b) data.size).2
      (q.hitLocation (.block b)) data.size
    rw [hout, useHit_eq, hn, ← hsame]
    rfl
  · cases hb

theorem placeRepeat_reused_of_mem (h : Exact V p seen calls) (earlier : BlockNum)
    (hintact : IndexIntact V (p.placeRepeat data earlier).2)
    (hk : blockKey p.settings.dedup calls data ∈ seen) :
    (p.placeRepeat data earlier).2.stats.reused = p.stats.reused + 1 := by
  rcases p.placeRepeat_cases data earlier with ⟨r, -, -, hout⟩ | hout <;> rw [hout] at hintact ⊢
  exact place_reused_of_mem h hintact hk

theorem step_reused_of_mem (h : Exact V p seen calls) {e : Event ι} (hdata : e.data? = some data)
    (hanswer : ∃ b, (p.step e).1 = some (.ok b)) (hintact : IndexIntact V (p.step e).2)
    (hk : blockKey p.settings.dedup calls data ∈ seen) :
    (p.step e).2.stats.reused = p.stats.reused + 1 := by
  cases e with
  | place data' =>
    obtain rfl := Option.some.inj hdata
    exact place_reused_of_mem h hintact hk
  | placeRepeat data' earlier =>
    obtain rfl := Option.some.inj hdata
    exact placeRepeat_reused_of_mem h earlier hintact hk
  | addBlockSize size => cases hdata
  | tamper index => cases hdata
  | obstructed data' earlier =>
    obtain rfl := Option.some.inj hdata
    obtain ⟨b, hb⟩ := hanswer
    rcases p.step_obstructed data' earlier with ⟨-, heq⟩ | ⟨b', -, heq⟩ | heq <;>
      rw [heq] at hb hintact ⊢
    · exact place_reused_of_mem h hintact hk
    · exact placeRepeat_reused_of_mem h b' hintact hk
    · cases hb

omit [Catalog ι] in
/-- A block that a number stands for fits into a container. -/
theorem Resolves.size_le {b : BlockNum} (h : p.Resolves b data) (hp : p.Consistent) :
    data.size ≤ p.store.capacity := by
  obtain ⟨r, -, hs⟩ := h
  have hend := ContainerStore.end_le_of_holds (storesAs_iff.mp hs).2
  have hcapacity := hp.store.size_le r.location.container.toNat
  omega

/-- While the catalog loses nothing, a block that was not reused has a record of its own in a mode that
looks up every block. -/
theorem run_records_of_intact (h : Exact V p seen calls) {events : List (Event ι)}
    (hoverlaps : p.settings.dedup.overlaps = true) (hfree : p.ErrorFree events)
    (htamper : ∀ e ∈ events, ∀ index, e ≠ .tamper index)
    (hfit : (p.run events).2.blocks.size < 2 ^ 32) (hintact : IndexIntact V (p.run events).2) :
    (p.run events).2.blocks.size = p.blocks.size + (p.uncounted events).length := by
  induction events generalizing p seen calls with
  | nil => rfl
  | cons e rest ih =>
    have hext := p.step_extends e
    have hfit' := (run_extends (p.step e).2 rest).size_le.trans_lt hfit
    have hkeep := htamper e List.mem_cons_self
    have hrest : ∀ e' ∈ rest, ∀ index, e' ≠ .tamper index := fun e' he' =>
      htamper e' (List.mem_cons_of_mem e he')
    have hintact' : IndexIntact V (p.step e).2 :=
      hintact.of_asked (IndexValid.asked h.healthy.sound.valid (p.step_asked hkeep))
        (run_asked _ hrest)
    have hcompact : p.Compact := ⟨h.healthy.consistent, h.numbered.size ▸ h.containers⟩
    have hq := (step_account hcompact hfree hfit').2
    -- a block that got a number is stored, so it is not longer than a container, and not obstructed
    obtain ⟨plain, hdata, hsame, hplain⟩ : ∃ plain : Event ι, plain.data? = e.data? ∧
        p.step plain = p.step e ∧ plain.Plain p.settings.dedup p.store.capacity := by
      have hsize (data : ByteArray) (hdata : e.data? = some data) :
          0 < data.size ∧ data.size ≤ p.store.capacity := by
        obtain ⟨hpos, b, hb⟩ := hfree.head hdata
        have hresolves := step_resolves h.healthy.consistent hdata
          ⟨hfit'.le, hq.count_le.trans hfit'.le⟩ hb
        exact ⟨hpos, hext.store.capacity ▸ hresolves.size_le hq.consistent⟩
      cases e with
      | place data => exact ⟨.place data, rfl, rfl, hsize data rfl⟩
      | placeRepeat data earlier =>
        obtain ⟨hpos, hle⟩ := hsize data rfl
        exact ⟨.placeRepeat data earlier, rfl, rfl, hpos, hle, hoverlaps⟩
      | addBlockSize size => exact ⟨.addBlockSize size, rfl, rfl, trivial⟩
      | tamper index => exact absurd rfl (hkeep index)
      | obstructed data earlier =>
        obtain ⟨hpos, hle⟩ := hsize data rfl
        obtain ⟨-, b, hb⟩ := hfree.head (e := .obstructed data earlier) rfl
        rcases p.step_obstructed data earlier with ⟨-, heq⟩ | ⟨b', -, heq⟩ | heq
        · exact ⟨.place data, rfl, heq.symm, hpos, hle⟩
        · exact ⟨.placeRepeat data b', rfl, heq.symm, hpos, hle, hoverlaps⟩
        · rw [heq] at hb
          cases hb
    obtain ⟨-, hexact⟩ := step_exact h hplain (hsame ▸ hfit') (hsame ▸ hintact')
    rw [hsame, hdata] at hexact
    have hstep := step_records hcompact.consistent hfree fun data hdata hreused => by
      have hnew : blockKey p.settings.dedup calls data ∉ seen := by
        intro hk
        have := step_reused_of_mem h hdata (hfree.head hdata).2 hintact' hk
        omega
      have hsize := hexact.numbered.size
      rw [hdata] at hsize
      rw [hsize, h.numbered.size]
      show (meet seen (blockKey p.settings.dedup calls data)).length = seen.length + 1
      rw [meet_of_not_mem hnew, List.length_append, List.length_singleton]
    have hlater := ih hexact (by rw [hext.settings]; exact hoverlaps) hfree.tail hrest hfit hintact
    rw [hstep, Nat.add_assoc, ← List.length_append] at hlater
    exact hlater

/-! ## The first state -/

variable {settings : PlacementSettings} {capacity reserve : Nat} {staging : Staging} {index : Option ι}

omit [Catalog ι] in
theorem start_compact (h : capacity < 2 ^ 32) :
    (start settings (.empty capacity reserve staging) index).Compact :=
  ⟨start_consistent h, Nat.le_refl _⟩

omit [Catalog ι] in
theorem start_ended : (start settings (.empty capacity reserve staging) index).Ended :=
  fun _ hr => absurd hr (Array.not_mem_empty _)

/-! ## Runs without errors -/

/-- Every call is answered. -/
theorem length_answers (p : Placement ι) (events : List (Event ι)) :
    (p.run events).1.length = (events.filterMap Event.data?).length := by
  induction events generalizing p with
  | nil => rfl
  | cons e rest ih =>
    have hstep : (p.step e).1.toList.length = e.data?.toList.length := by cases e <;> rfl
    rw [length_filterMap_cons, ← hstep, ← ih (p.step e).2, ← List.length_append]
    rfl

/-- Where no container can be made, only a run without calls ends without an error. -/
theorem ErrorFree.calls_of_barren {events : List (Event ι)} (h : p.ErrorFree events) (hp : Barren p) :
    events.filterMap Event.data? = [] := by
  apply List.eq_nil_of_length_eq_zero
  rw [← p.length_answers]
  cases hrun : (p.run events).1 with
  | nil => rfl
  | cons answer rest =>
    have hmem : answer ∈ (p.run events).1 := hrun ▸ List.mem_cons_self
    obtain ⟨b, rfl⟩ := h.answered answer hmem
    exact absurd hmem (run_barren hp)

/-- One state is reached from another by a run without errors. -/
def Answered (p q : Placement ι) : Prop :=
  ∃ events : List (Event ι), p.ErrorFree events ∧ q = (p.run events).2

theorem Answered.refl (p : Placement ι) : Answered p p :=
  ⟨[], ⟨fun _ he => absurd he List.not_mem_nil, fun _ ha => absurd ha List.not_mem_nil⟩, rfl⟩

theorem Answered.trans (h : Answered p q) (h' : Answered q r) : Answered p r := by
  obtain ⟨first, hfirst, rfl⟩ := h
  obtain ⟨rest, hrest, rfl⟩ := h'
  refine ⟨first ++ rest, ⟨?_, ?_⟩, by rw [run_append]⟩
  · intro e he
    exact (List.mem_append.mp he).elim (hfirst.nonempty e) (hrest.nonempty e)
  · intro answer ha
    rw [run_append] at ha
    exact (List.mem_append.mp ha).elim (hfirst.answered answer) (hrest.answered answer)

theorem Answered.step {e : Event ι} {b : BlockNum} (hdata : e.data? = some data) (hpos : 0 < data.size)
    (h : (p.step e).1 = some (.ok b)) : Answered p (p.step e).2 := by
  refine ⟨[e], ⟨?_, ?_⟩, rfl⟩
  · intro e' he' data' hdata'
    obtain rfl := List.mem_singleton.mp he'
    obtain rfl := Option.some.inj (hdata.symm.trans hdata')
    exact hpos
  · intro answer ha
    have ha : answer ∈ (p.step e).1.toList ++ [] := ha
    rw [h] at ha
    exact ⟨b, List.mem_singleton.mp ha⟩

theorem addBlockSizes_answered (p : Placement ι) (sizes : List Nat) :
    Answered p (sizes.foldl addBlockSize p) := by
  induction sizes generalizing p with
  | nil => exact .refl p
  | cons size rest ih =>
    refine Answered.trans ⟨[.addBlockSize size], ⟨?_, fun _ ha => absurd ha List.not_mem_nil⟩, rfl⟩ (ih _)
    intro e he data hdata
    obtain rfl := List.mem_singleton.mp he
    cases hdata

end Placement

namespace BatchState

open Placement

variable {ι : Type} [Catalog ι] {s t : BatchState ι} {repeats : Repeats} {opening : Nat}

theorem placeNext_answered {data : ByteArray} {b : BlockNum} (hpos : 0 < data.size)
    (h : s.placeNext repeats data = (.ok b, t)) : Answered s.placement t.placement := by
  rcases s.placeNext_cases repeats data with ⟨e, p, -, hout⟩ | ⟨b', p, hstep, hout⟩ <;> rw [hout] at h
  · cases (Prod.mk.inj h).1
  · obtain ⟨-, rfl⟩ := Prod.mk.inj h
    have hnext := Answered.step (nextEvent_data? s repeats data) hpos (congrArg Prod.fst hstep)
    rwa [hstep] at hnext

theorem placeBlocks_answered {list numbers : Array BlockNum} {datas : List ByteArray}
    (hpos : ∀ data ∈ datas, 0 < data.size)
    (h : s.placeBlocks repeats list datas = (.ok numbers, t)) :
    Answered s.placement t.placement := by
  induction datas generalizing s list with
  | nil =>
    obtain ⟨-, rfl⟩ := Prod.mk.inj h
    exact .refl _
  | cons data rest ih =>
    obtain ⟨b, s', hnext, h⟩ := placeBlocks_cons_eq_ok h
    exact (placeNext_answered (hpos data List.mem_cons_self) hnext).trans
      (ih (fun d hd => hpos d (List.mem_cons_of_mem data hd)) h)

theorem placeItem_answered {item : ScheduledItem}
    (h : s.placeItem repeats opening item = (.ok (), t)) : Answered s.placement t.placement := by
  obtain ⟨blocks, list, s', hdelivery, hblocks, rfl⟩ := placeItem_eq_ok h
  have hall : Answered s.placement s'.placement := placeBlocks_answered
    (fun data hdata => (ScheduledItem.mem_delivery hdelivery hdata).1) hblocks
  exact hall

/-- A batch that is placed to its end is a run without errors. -/
theorem placeAll_answered {items : List ScheduledItem}
    (h : s.placeAll repeats opening items = (.ok (), t)) : Answered s.placement t.placement := by
  induction items generalizing s with
  | nil =>
    obtain ⟨-, rfl⟩ := Prod.mk.inj h
    exact .refl _
  | cons item rest ih =>
    obtain ⟨s', hitem, h⟩ := placeAll_cons_eq_ok h
    exact (placeItem_answered hitem).trans (ih h)

end BatchState

namespace ImageBuild

variable {tools : BuildTools} {config : ImageConfig} {checkpoint : Option CheckpointPlace}
  {medium : Medium} {requests : List Request} {b : ImageBuild}

/-- Scheduling announces block sizes only. -/
theorem of_answered (h : of tools config checkpoint medium requests = .ok b) :
    (config.startPlacement tools).Answered b.placement := by
  obtain ⟨first, hstart, hall⟩ := of_eq_ok_iff.mp h
  obtain ⟨-, rfl⟩ := requestAll_eq_ok_iff.mp hall
  obtain ⟨items, hitems⟩ := first.foldl_enlist requests
  obtain ⟨-, setting, -, hfirst⟩ := start_eq_ok hstart
  have hplacement : first.placement = config.startPlacement tools := by rw [hfirst]
  rw [hitems, ← hplacement]
  exact Placement.addBlockSizes_answered _ _

theorem placed_answered {p : Placed} (h : b.placed = .ok p) (hdone : p.outcome = .ok ()) :
    b.placement.Answered p.state.placement := by
  unfold placed at h
  cases hprepared : b.prepare b.sorted with
  | error e =>
    rw [hprepared] at h
    cases h
  | ok prepared =>
    rw [hprepared] at h
    obtain rfl := Except.ok.inj h
    have hall : b.begin.placement.Answered
        (b.begin.placeAll prepared.repeats prepared.openings b.sorted).2.placement :=
      BatchState.placeAll_answered (Prod.ext hdone rfl)
    exact hall

end ImageBuild

/-- The uncompressed bytes of an image are those of its containers. -/
theorem ImageScript.rawBytes_of_closing {layout : ImageLayout} {codec : Codec}
    {containers : List ByteArray} {locations : List Location} {superblock : Superblock}
    {written : WrittenImage}
    (h : (ImageScript.of layout codec containers locations).closing = .ok (superblock, written)) :
    written.rawBytes = (containers.map ByteArray.size).sum := by
  unfold ImageScript.of at h
  dsimp only at h
  split at h
  · cases h
  · split at h
    · cases h
    · split at h
      · cases h
      · obtain ⟨-, rfl⟩ := Prod.mk.inj (Except.ok.inj h)
        exact List.sum_eq_foldl_nat.symm

theorem ImageBuild.rawBytes_of_run {b : ImageBuild} {p : Placement AnyIndex} {written : WrittenImage}
    {m : Medium} (h : ((b.script p).run m).1 = .ok written) : written.rawBytes = p.store.total := by
  obtain ⟨superblock, -, hclosing, -⟩ := ImageScript.run_eq_ok (Prod.ext h rfl)
  rw [ImageScript.rawBytes_of_closing hclosing, ContainerStore.total_eq_sum]

/-! ## Main result -/

namespace Placement

/-- **The counts account for every byte.** After a run without errors from an empty store, in every mode
and whatever the catalog loses, `placed` is the number of calls, the bytes written are those of all
containers, and they and the overlapped bytes together are the bytes of the calls that reused no block.
The block table has at most as many records as there were such calls: exactly as many in a mode without
overlaps, and in the others if the catalog has lost nothing. A flush that ends well is such a run, and
its summary gives what was counted.

Any catalog will do, and block sizes may be announced and catalogs exchanged between the calls. Only for
the last count the catalog has to be one that began empty and to which nothing else was done. -/
theorem counts_account_for_every_byte :
    (∀ (ι : Type) [Catalog ι] (settings : PlacementSettings) (capacity reserve : Nat)
      (staging : Staging) (index : Option ι) (events : List (Event ι)),
      let p := start settings (.empty capacity reserve staging) index
      let q := (p.run events).2
      capacity < 2 ^ 32 → p.ErrorFree events → q.blocks.size < 2 ^ 32 →
      q.stats.placed = (events.filterMap Event.data?).length ∧
      q.stats.writtenBytes = ∑ id ∈ Finset.range q.store.count, q.store.size id ∧
      q.stats.writtenBytes + q.stats.overlappedBytes =
        ((p.uncounted events).map ByteArray.size).sum ∧
      q.stats.reused + (p.uncounted events).length = q.stats.placed ∧
      q.blocks.size + q.stats.reused ≤ q.stats.placed ∧
      (settings.dedup.overlaps = false → q.blocks.size + q.stats.reused = q.stats.placed) ∧
      ∀ (V : KeepingView ι) (x : ι), index = some x → V.Fresh x →
        (∀ e ∈ events, ∀ other, e ≠ .tamper other) → IndexIntact V q →
        q.blocks.size + q.stats.reused = q.stats.placed) ∧
    ∀ (tools : BuildTools) (config : ImageConfig) (checkpoint : Option CheckpointPlace)
      (medium : Medium) (requests : List Request) (b : ImageBuild) (total : ImageSummary),
      ImageBuild.of tools config checkpoint medium requests = .ok b →
      b.flush.outcome = .ok total → total.uniqueBlocks < 2 ^ 32 →
      ∃ events : List (Event AnyIndex),
        let p := config.startPlacement tools
        let q := (p.run events).2
        p.ErrorFree events ∧ total.rawBytes = q.stats.writtenBytes ∧
        total.overlappedBytes = q.stats.overlappedBytes ∧ total.reusedBlocks = q.stats.reused ∧
        total.uniqueBlocks = q.blocks.size ∧ total.containers = q.store.count := by
  constructor
  · intro ι _ settings capacity reserve staging index events p q hcapacity hfree hfit
    have hcompact : p.Compact := start_compact hcapacity
    obtain ⟨hplaced, hreused, hbytes, hwritten, hblocks, -⟩ := run_account hcompact hfree hfit
    have hcalls : q.stats.placed = (events.filterMap Event.data?).length := hplaced.trans (Nat.zero_add _)
    have hsplit : q.stats.reused + (p.uncounted events).length = q.stats.placed := by
      rw [hcalls]
      exact hreused.trans (Nat.zero_add _)
    have hle : q.blocks.size ≤ (p.uncounted events).length := hblocks.trans_eq (Nat.zero_add _)
    have hexact (h : q.blocks.size = p.blocks.size + (p.uncounted events).length) :
        q.blocks.size + q.stats.reused = q.stats.placed := by
      have h : q.blocks.size = (p.uncounted events).length := h.trans (Nat.zero_add _)
      omega
    refine ⟨hcalls, ?_, hbytes.trans (Nat.zero_add _), hsplit, by omega, ?_, ?_⟩
    · exact hwritten.trans (Nat.zero_add _)
    · exact fun hoverlaps => hexact (run_records hcompact start_ended hoverlaps hfree hfit)
    · rintro V x rfl hfresh htamper hintact
      cases hoverlaps : settings.dedup.overlaps with
      | false => exact hexact (run_records hcompact start_ended hoverlaps hfree hfit)
      | true =>
        have hbegins : Begins V.toLossyView p :=
          ⟨⟨capacity, reserve, staging, rfl, hcapacity⟩, rfl, rfl, fun _ => ⟨x, rfl⟩,
            fun _ hx => Option.some.inj hx ▸ hfresh⟩
        by_cases hstaging : staging = .missing
        · have hnone := hfree.calls_of_barren (hbegins.barren hstaging)
          rw [hnone] at hcalls
          have hcalls : q.stats.placed = 0 := hcalls
          omega
        · exact hexact (run_records_of_intact (hbegins.exact hstaging) hoverlaps hfree htamper hfit hintact)
  · intro tools config checkpoint medium requests b total hb hflush hfit
    obtain ⟨p, written, hplaced, hdone, hrun, rfl⟩ := ImageBuild.flush_ok_cases hflush
    obtain ⟨events, hfree, hq⟩ :=
      (ImageBuild.of_answered hb).trans (ImageBuild.placed_answered hplaced hdone)
    have hcapacity : config.containerSize < 2 ^ 32 :=
      ImageConfig.containerSize_lt (ImageBuild.of_scheduled hb).1
    have hcompact : (config.startPlacement tools).Compact := start_compact hcapacity
    have hwritten := (run_account hcompact hfree (hq ▸ hfit)).written
    refine ⟨events, hfree, ?_⟩
    rw [← hq] at hwritten ⊢
    refine ⟨?_, rfl, rfl, rfl, rfl⟩
    exact (ImageBuild.rawBytes_of_run hrun).trans (hwritten.trans (Nat.zero_add _)).symm

/-- The blocks `2 3 1`, `1 2`, `1 2` and `2 3`, the second announced as a repeat of the first, which it is
not. -/
def collidingCalls : List (Event (BlockIndex (TableSegment BlockNum) (TableSegment Location))) :=
  [.addBlockSize 2, .addBlockSize 3, .place ⟨#[2, 3, 1]⟩, .placeRepeat ⟨#[1, 2]⟩ ⟨0⟩,
    .place ⟨#[1, 2]⟩, .place ⟨#[2, 3]⟩]

set_option maxRecDepth 1000000 in
theorem collidingCalls_errorFree : (collidingPlacement .all).ErrorFree collidingCalls where
  nonempty := by simp [collidingCalls, Event.data?]; decide
  answered := by
    have hanswers : ((collidingPlacement .all).run collidingCalls).1 =
        [0, 1, 1, 2].map fun n => .ok ⟨n⟩ := by cbv
    rw [hanswers]
    intro answer ha
    obtain ⟨n, -, rfl⟩ := List.mem_map.mp ha
    exact ⟨⟨n⟩, rfl⟩

set_option maxRecDepth 1000000 in
/-- One of the four blocks is reused, and of the seven bytes of the others four are written. A flush of
two sources with these blocks counts its bytes too. -/
theorem colliding_bytes_are_counted :
    let q := ((collidingPlacement .all).run collidingCalls).2
    (q.stats.placed = 4 ∧ q.stats.writtenBytes + q.stats.overlappedBytes = 7 ∧
      q.blocks.size + q.stats.reused = q.stats.placed) ∧
    ∃ (total : ImageSummary) (events : List (Event AnyIndex)),
      collidingBuild.flush.outcome = .ok total ∧
      total.rawBytes =
        ((collidingConfig.startPlacement collidingTools).run events).2.stats.writtenBytes := by
  have h := counts_account_for_every_byte
  constructor
  · have huncounted : ((collidingPlacement .all).uncounted collidingCalls).map ByteArray.size =
        [3, 2, 2] := by cbv
    have hintact : IndexIntact BlockIndex.tableView ((collidingPlacement .all).run collidingCalls).2 :=
      tables_intact (by cbv)
    have hfit : ((collidingPlacement .all).run collidingCalls).2.blocks.size < 2 ^ 32 := by cbv
    obtain ⟨hplaced, -, hbytes, -, -, -, hrecords⟩ := h.1 _ (collidingSettings .all) 4 1 .memory
      (some (BlockIndex.emptyTables ⟨1, 4, 4⟩ ⟨1, 1, 2⟩)) collidingCalls (by decide)
      collidingCalls_errorFree hfit
    refine ⟨hplaced, hbytes.trans (congrArg List.sum huncounted), ?_⟩
    exact hrecords BlockIndex.tableView _ rfl (BlockIndex.emptyTables_fresh _ _)
      (by simp [collidingCalls]) hintact
  · obtain ⟨events, -, hraw, -⟩ := h.2 collidingTools collidingConfig (some (.file wrongCheckpoint))
      (.limited (2 ^ 64 - 1)) collidingRequests collidingBuild _ colliding_scheduled colliding_flushed
      (by cbv)
    exact ⟨_, events, colliding_flushed, hraw⟩

end Placement

end DedupImage
