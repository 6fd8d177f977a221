import DedupImage.Proofs.Batch.Lists
import DedupImage.Proofs.Image.Opening
import DedupImage.Proofs.Image.Scheduling
import Mathlib

/-!
# What is stored is read back

From the parts to the whole: a flush that ends well has placed every block and written every record
(`flush_eq_ok`), the numbers of each source resolve to its pieces (`BatchState.placeAll_delivered`), the
image opens with the containers and the locations of the placement (`openImage_of_holds`), and from
these a list of numbers is read as the string that it stands for (`ImageReader.Serves.readList_eq`).
Together they give `stored_sources_are_read`.
-/

namespace DedupImage

open Placement

/-! ## From placement to image -/

/-- A number that resolves to a string names it in the image. -/
theorem Placement.Resolves.named {ι : Type} {p : Placement ι} {b : BlockNum} {data : ByteArray}
    (h : p.Resolves b data) :
    Named p.store.contents.toList (p.blocks.toList.map BlockRecord.location) b data := by
  obtain ⟨r, hr, hstored⟩ := h
  obtain ⟨hcontainer, hholds⟩ := ContainerStore.holds_iff.mp (storesAs_iff.mp hstored).2
  refine ⟨r.location, p.store.data r.location.container.toNat, ?_, ?_, hholds⟩
  · have hr : p.blocks[b.number.toNat]? = some r := hr
    rw [List.getElem?_map, Array.getElem?_toList, hr]
    rfl
  · have hlt : r.location.container.toNat < p.store.contents.size := hcontainer
    rw [Array.getElem?_toList, ContainerStore.data, Array.getD_eq_getD_getElem?,
      Array.getElem?_eq_getElem hlt]
    rfl

/-- The containers and locations of a consistent placement fit an image. -/
theorem Placement.Consistent.fits {ι : Type} {p : Placement ι} {layout : ImageLayout} {codec : Codec}
    (hp : p.Consistent) (hsupported : codec.scheme.supported = true)
    (hpos : 0 < layout.containerSize) (hle : layout.containerSize ≤ containerSizeLimit)
    (hcapacity : p.store.capacity = layout.containerSize) (hcontainers : p.store.count < 2 ^ 32)
    (hblocks : p.blocks.size < 2 ^ 32) :
    ImageFits layout codec p.store.contents.toList (p.blocks.toList.map BlockRecord.location) where
  supported := hsupported
  size_pos := hpos
  size_le := hle
  containers_lt := hcontainers
  locations_lt := by
    rw [List.length_map]
    exact hblocks
  sizes data hdata := by
    obtain ⟨id, hid, rfl⟩ := List.mem_iff_getElem.mp hdata
    have hlt : id < p.store.contents.size := hid
    have hsize := hp.store.size_le id
    rw [hcapacity, ContainerStore.size, ContainerStore.data, Array.getD_eq_getD_getElem?,
      Array.getElem?_eq_getElem hlt] at hsize
    exact hsize
  inside l hl := by
    obtain ⟨r, hr, rfl⟩ := List.mem_map.mp hl
    exact hp.located r (Array.mem_toList_iff.mp hr)

/-! ## Flushing -/

namespace ImageBuild

variable {b : ImageBuild}

/-- The state in which a batch is begun. -/
def begin (b : ImageBuild) : BatchState AnyIndex :=
  { placement := b.placement, lists := Array.replicate b.items.length #[] }

/-- The writes of all records of the image. -/
def records (b : ImageBuild) : List PositionedWrite :=
  match b.prepare (ScheduledItem.sort b.items.reverse) with
  | .error _ => []
  | .ok prepared =>
    (b.script (b.begin.placeAll prepared.repeats prepared.openings
      (ScheduledItem.sort b.items.reverse)).2.placement).records

/-- A batch that is placed and whose writes are made is flushed. -/
theorem flush_eq {prepared : Checkpoint.Prepared} {t : BatchState AnyIndex} {written : WrittenImage}
    {medium : Medium}
    (hprepared : b.prepare (ScheduledItem.sort b.items.reverse) = .ok prepared)
    (hplaced : b.begin.placeAll prepared.repeats prepared.openings
      (ScheduledItem.sort b.items.reverse) = (.ok (), t))
    (hrun : (b.script t.placement).run b.medium = (.ok written, medium)) :
    b.flush = ⟨.ok (summary t.placement t.placed.size written), t.lists, medium, prepared.place⟩ := by
  unfold begin at hplaced
  unfold flush
  simp only [hprepared, hplaced, hrun]

/-- A flush that ends well has placed the batch and made all writes. -/
theorem flush_eq_ok {total : ImageSummary} (h : b.flush.outcome = .ok total) :
    ∃ repeats opening t written,
      b.begin.placeAll repeats opening (ScheduledItem.sort b.items.reverse) = (.ok (), t) ∧
      (b.script t.placement).run b.medium = (.ok written, b.flush.medium) ∧
      b.flush.lists = t.lists ∧ b.records = (b.script t.placement).records ∧
      total.uniqueBlocks = t.placement.blocks.size ∧
      total.containers = t.placement.store.count := by
  unfold records begin
  unfold flush at h ⊢
  cases hprepared : b.prepare (ScheduledItem.sort b.items.reverse) with
  | error e =>
    simp only [hprepared] at h
    cases h
  | ok prepared =>
    simp only [hprepared] at h ⊢
    rcases hplaced : BatchState.placeAll
      { placement := b.placement, lists := Array.replicate b.items.length #[] } prepared.repeats
      prepared.openings (ScheduledItem.sort b.items.reverse) with ⟨e | ⟨⟩, t⟩
    · simp only [hplaced] at h
      cases h
    · simp only [hplaced] at h ⊢
      rcases hrun : (b.script t.placement).run b.medium with ⟨e | written, medium⟩
      · simp only [hrun] at h
        cases h
      · simp only [hrun] at h ⊢
        obtain rfl := Except.ok.inj h
        exact ⟨_, _, t, written, hplaced, hrun, rfl, rfl, rfl, rfl⟩

end ImageBuild

/-! ## Main result -/

/-- **What is stored is read back.** Take any image that can be begun, whatever mode, catalog, overlaps
and layout its configuration asks for, any requests that are accepted, any checkpoint, and any medium with
64-bit positions, whatever it holds and whatever it refuses. The codec of the configured scheme gives back
everything it could compress. If the flush ends well, and blocks, containers and the sizes of records can
be counted in 32 bits, then the image opens. And at any time afterwards, whatever was read before and
whatever the cache keeps, the list of every source that always delivers the same bytes is read as these
bytes. -/
theorem stored_sources_are_read (tools : BuildTools) (config : ImageConfig)
    (checkpoint : Option CheckpointPlace) (medium : Medium) (requests : List Request) (b : ImageBuild)
    (summary : ImageSummary) (hmedium : medium.Bounded)
    (hscheme : (tools.codec config.scheme).scheme = config.scheme)
    (hcodec : (tools.codec config.scheme).Restores)
    (hbuild : ImageBuild.of tools config checkpoint medium requests = .ok b)
    (hflush : b.flush.outcome = .ok summary) (hblocks : summary.uniqueBlocks < 2 ^ 32)
    (hcontainers : summary.containers < 2 ^ 32) (hrecords : ∀ w ∈ b.records, w.data.size < 2 ^ 32) :
    ∃ opened, ImageReader.openImage tools.codec b.flush.medium.bytes = .ok opened ∧
      ∀ reader, opened.After reader →
        ∀ (i : Nat) (request : Request) (data : ByteArray),
          requests[i]? = some request → request.source.Delivers data →
          ∃ list : Array BlockNum, b.flush.lists[i]? = some list ∧
            (reader.readList list.toList request.source.length (request.sizeIn config)).1 =
              .ok data := by
  obtain ⟨hcheck, hscheduled⟩ := ImageBuild.of_scheduled hbuild
  obtain ⟨hfault, hsupported⟩ := ImageConfig.check_eq_ok hcheck
  obtain ⟨hpos, hle⟩ := ImageConfig.containerSize_of_fault? hfault
  obtain ⟨repeats, opening, t, written, hplaced, hrun, hlists, hwrites, hunique, hcount⟩ :=
    ImageBuild.flush_eq_ok hflush
  -- what was placed
  have hcalls := b.begin.placeAll_calls repeats opening (ScheduledItem.sort b.items.reverse)
  rw [hplaced] at hcalls
  have hfit : t.placement.Addressable := ⟨by omega, by omega⟩
  have hconsistent : t.placement.Consistent := hcalls.consistent hscheduled.consistent hfit
  have hdelivered := BatchState.placeAll_delivered (s := b.begin) hscheduled.consistent
    (fun item hitem => hscheduled.blockSize_pos hitem)
    (fun item hitem => by
      rw [ImageBuild.begin, Array.size_replicate]
      exact hscheduled.slot_lt hitem)
    hscheduled.slots_distinct hplaced hfit
  -- what was written
  have hcapacity : t.placement.store.capacity = config.containerSize :=
    hcalls.extends.store.capacity.trans hscheduled.capacity
  unfold ImageBuild.script at hrun hwrites
  rw [hscheduled.sameTools, hscheduled.sameConfig] at hrun hwrites
  rw [hscheduled.sameMedium] at hrun
  rw [hwrites] at hrecords
  obtain ⟨format, table, packed, hholds⟩ := holdsImage_of_run hmedium hrun hrecords
  have hfits : ImageFits config.layout (tools.codec config.scheme) t.placement.store.contents.toList
      (t.placement.blocks.toList.map BlockRecord.location) :=
    hconsistent.fits (hscheme.symm ▸ hsupported) hpos hle hcapacity (by omega) (by omega)
  obtain ⟨opened, hopen, hserves⟩ := openImage_of_holds hholds hfits hcodec (by rw [hscheme])
  -- what is read
  refine ⟨opened, hopen, ?_⟩
  intro reader hafter i request data hi hdata
  have hitem := hscheduled.mem_sort_iff.mpr ⟨i, request, hi, rfl⟩
  obtain ⟨list, hlist, hall⟩ := hdelivered _ hitem data hdata
  refine ⟨list, by rw [hlists]; exact hlist, ?_⟩
  rw [hdata.length]
  apply (hafter.serves hserves).readList_eq (hscheduled.blockSize_pos hitem)
  exact hall.imp fun _ _ hresolves => hresolves.named

/-- A codec that stores what it is given. -/
def storedCodec (scheme : Scheme) : Codec where
  scheme := scheme
  bound n := n
  compress data _ := .ok data
  decompress data most := if data.size ≤ most then .ok data else .error .writeZero

theorem storedCodec_lossless (scheme : Scheme) : (storedCodec scheme).Lossless :=
  fun data => ⟨data, rfl, fun _ hmost => if_pos hmost⟩

theorem storedCodec_restores (scheme : Scheme) : (storedCodec scheme).Restores :=
  (storedCodec_lossless scheme).restores

/-- Tools under which all blocks have the same hash. -/
def collidingTools : BuildTools where
  codec := storedCodec
  fingerprint _ := 0
  identity _ := 0

/-- Small containers, and an index so small that entries are lost. -/
def collidingConfig : ImageConfig where
  blockSize := 2
  containerSize := 8
  reserve := 1
  windowPeriod := 1
  windowInterval := 1
  dedup := .prepass
  shape := ⟨1, 2, 4⟩

/-- Two sources; the second one is placed first. -/
def collidingRequests : List Request :=
  [{ source := .ofBytes ⟨#[98]⟩ ⟨#[1, 2, 1, 2, 2, 3]⟩, rank := 0 },
    { source := .ofBytes ⟨#[97]⟩ ⟨#[2, 3, 1]⟩, rank := 0, blockSize := some 3 }]

/-- The repeats of a batch of four blocks, if the second were equal to the first. -/
def wrongRepeats : Repeats := ⟨4, Std.TreeMap.ofList [(1, 0)]⟩

/-- A checkpoint with these repeats. -/
def wrongCheckpoint : ByteArray :=
  Checkpoint.magic ++ ⟨#[4, 0, 0, 0, 0, 0, 0, 0, 1, 0, 0, 0, 0, 0, 0, 0]⟩ ++
    ⟨#[1, 0, 0, 0, 0, 0, 0, 0, 0, 0, 0, 0, 0, 0, 0, 0]⟩

/-- The image for which the two sources were scheduled. -/
def collidingBuild : ImageBuild where
  tools := collidingTools
  config := collidingConfig
  setting := ⟨.zstd, 12⟩
  checkpoint := some (.file wrongCheckpoint)
  medium := .limited (2 ^ 64 - 1)
  items :=
    [⟨.ofBytes ⟨#[97]⟩ ⟨#[2, 3, 1]⟩, 0, 3, 1⟩, ⟨.ofBytes ⟨#[98]⟩ ⟨#[1, 2, 1, 2, 2, 3]⟩, 0, 2, 0⟩]
  placement := ((collidingConfig.startPlacement collidingTools).addBlockSize 2).addBlockSize 3

/-- How placing the two sources ends. -/
def collidingPlaced : Except Failure Unit × BatchState AnyIndex :=
  collidingBuild.begin.placeAll wrongRepeats 0 (ScheduledItem.sort collidingBuild.items.reverse)

set_option maxRecDepth 1000000 in
theorem colliding_scheduled :
    ImageBuild.of collidingTools collidingConfig (some (.file wrongCheckpoint))
      (.limited (2 ^ 64 - 1)) collidingRequests = .ok collidingBuild := by cbv

set_option maxRecDepth 1000000 in
theorem colliding_prepared :
    collidingBuild.prepare (ScheduledItem.sort collidingBuild.items.reverse) =
      .ok ⟨wrongRepeats, some (.file wrongCheckpoint), 0⟩ := by cbv

set_option maxRecDepth 1000000 in
theorem colliding_script :
    collidingBuild.script collidingPlaced.2.placement =
      .of collidingConfig.layout (storedCodec .zstd) [⟨#[2, 3, 1, 2]⟩] [⟨0, 0⟩, ⟨0, 2⟩, ⟨0, 0⟩] := by
  have hcontainers : collidingPlaced.2.placement.store.contents.toList = [⟨#[2, 3, 1, 2]⟩] := by cbv
  have hlocations : collidingPlaced.2.placement.blocks.toList.map BlockRecord.location =
      [⟨0, 0⟩, ⟨0, 2⟩, ⟨0, 0⟩] := by cbv
  rw [ImageBuild.script, hcontainers, hlocations]
  rfl

set_option maxRecDepth 1000000 in
theorem colliding_flushed :
    collidingBuild.flush.outcome =
      .ok (ImageBuild.summary collidingPlaced.2.placement collidingPlaced.2.placed.size
        ⟨4, 4, 96, true⟩) := by
  have hplaced : collidingPlaced.1 = .ok () := by cbv
  have hwritten : ((collidingBuild.script collidingPlaced.2.placement).run collidingBuild.medium).1 =
      .ok ⟨4, 4, 96, true⟩ := by
    rw [colliding_script]
    rfl
  exact congrArg Flushed.outcome
    (ImageBuild.flush_eq colliding_prepared (Prod.ext hplaced rfl) (Prod.ext hwritten rfl))

set_option maxRecDepth 1000000 in
/-- The first block is `2 3 1`. The next one, `1 2`, is not the repeat of it that the checkpoint says it is;
it overlaps the first by a byte and is then found again, while `2 3` is found inside the first block. All
of them have the same hash, and the index loses entries meanwhile. The source reads back. -/
theorem colliding_sources_are_read :
    ∃ opened list, ImageReader.openImage storedCodec collidingBuild.flush.medium.bytes = .ok opened ∧
      collidingBuild.flush.lists[0]? = some list ∧
      (opened.readList list.toList 6 2).1 = .ok ⟨#[1, 2, 1, 2, 2, 3]⟩ := by
  have hrecords : ∀ w ∈ collidingBuild.records, w.data.size < 2 ^ 32 := by
    unfold ImageBuild.records
    rw [colliding_prepared]
    show ∀ w ∈ (collidingBuild.script collidingPlaced.2.placement).records, w.data.size < 2 ^ 32
    rw [colliding_script]
    decide
  obtain ⟨opened, hopened, hread⟩ := stored_sources_are_read collidingTools collidingConfig
    (some (.file wrongCheckpoint)) (.limited (2 ^ 64 - 1)) collidingRequests collidingBuild _
    (Medium.limited_bounded (by decide)) rfl (storedCodec_restores .zstd)
    colliding_scheduled colliding_flushed (by cbv) (by cbv) hrecords
  obtain ⟨list, hlist, hdata⟩ := hread opened .opened 0 _ _ rfl (Source.ofBytes_delivers _ _)
  exact ⟨opened, list, hopened, hlist, hdata⟩

end DedupImage
