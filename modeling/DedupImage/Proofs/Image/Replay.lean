import DedupImage.Proofs.Batch.Checkpoint
import DedupImage.Proofs.Image.Flushing

/-!
# A checkpoint is replayed

A batch whose sources always deliver the bytes that they claim is prepared once without a checkpoint.
That finds its repeats and writes them, and whenever the batch is prepared again, the checkpoint is
accepted and gives the very same repeats (`checkpoint_is_replayed`).

The first build opens its sources a second time to place them, and a later one opens them only once. As
they deliver the same each time, both place the same blocks in the same way (`BatchState.placeAll_congr`),
and on the same medium they leave the same image.
-/

namespace DedupImage

/-! ## The same batch again -/

/-- What a batch comes to depends on its openings only as far as these deliver. -/
theorem BatchState.placeAll_congr {ι : Type} [Catalog ι] (s : BatchState ι) (repeats : Repeats)
    {opening opening' : Nat} {items : List ScheduledItem}
    (h : ∀ item ∈ items, item.delivery opening = item.delivery opening') :
    s.placeAll repeats opening items = s.placeAll repeats opening' items := by
  induction items generalizing s with
  | nil => rfl
  | cons item rest ih =>
    have hitem : s.placeItem repeats opening item = s.placeItem repeats opening' item := by
      rw [placeItem_eq, placeItem_eq, h item List.mem_cons_self]
    unfold placeAll
    rw [hitem]
    rcases s.placeItem repeats opening' item with ⟨e | ⟨⟩, t⟩
    · rfl
    · exact ih t fun i hi => h i (List.mem_cons_of_mem item hi)

/-- What is found without a checkpoint is found again with the one that was written, and then no source
is opened. -/
theorem Checkpoint.prepare_again (identity : ByteArray → UInt64) {items : List ScheduledItem}
    (hitems : ∀ item ∈ items, item.Steady)
    (hcount : (items.map ScheduledItem.blockCount).sum < 2 ^ 64) :
    ∃ repeats file,
      prepare identity items (some .vacant) = .ok ⟨repeats, some (.file file), 1⟩ ∧
      repeats.blockCount = (items.map ScheduledItem.blockCount).sum ∧
      ∀ identity', prepare identity' items (some (.file file)) =
        .ok ⟨repeats, some (.file file), 0⟩ := by
  obtain ⟨repeats, hfind, hsum⟩ := Repeats.find_of_steady identity hitems
  have hforward := Repeats.forward_of_find hfind
  exact ⟨repeats, bytes repeats, prepare_vacant hfind, hsum,
    fun _ => prepare_file hforward (hsum ▸ hcount) hsum⟩

namespace ImageBuild

variable {tools : BuildTools} {config : ImageConfig} {checkpoint checkpoint' : Option CheckpointPlace}
  {medium medium' : Medium} {requests : List Request} {b : ImageBuild}

/-- The same build with another checkpoint and on another medium. -/
def redo (b : ImageBuild) (checkpoint : Option CheckpointPlace) (medium : Medium) : ImageBuild :=
  { b with checkpoint := checkpoint, medium := medium }

theorem start_redo (h : start tools config checkpoint medium = .ok b) :
    start tools config checkpoint' medium' = .ok (b.redo checkpoint' medium') := by
  obtain ⟨hcheck, setting, hsetting, rfl⟩ := start_eq_ok h
  unfold start
  rw [hcheck, hsetting]
  rfl

/-- Scheduling looks at neither. -/
theorem schedule_redo (b : ImageBuild) (source : Source) (rank blockSize : Nat) :
    (b.redo checkpoint medium).schedule source rank blockSize =
      (b.schedule source rank blockSize).map fun b => b.redo checkpoint medium := by
  have hsettings : (b.redo checkpoint medium).config = b.config := rfl
  unfold schedule
  rw [hsettings]
  cases ImageConfig.blockSizeFault? blockSize b.config.containerSize with
  | some f => rfl
  | none => rfl

theorem request_redo (b : ImageBuild) (r : Request) :
    (b.redo checkpoint medium).request r =
      (b.request r).map fun b => b.redo checkpoint medium := by
  unfold request
  cases r.blockSize with
  | some size => exact b.schedule_redo r.source r.rank size
  | none => exact b.schedule_redo r.source r.rank b.config.blockSize

theorem requestAll_redo (b : ImageBuild) (requests : List Request) :
    (b.redo checkpoint medium).requestAll requests =
      (b.requestAll requests).map fun b => b.redo checkpoint medium := by
  induction requests generalizing b with
  | nil => rfl
  | cons r rest ih =>
    unfold requestAll
    rw [request_redo]
    cases b.request r with
    | error e => rfl
    | ok next => exact ih next

theorem of_redo (h : of tools config checkpoint medium requests = .ok b) :
    of tools config checkpoint' medium' requests = .ok (b.redo checkpoint' medium') := by
  obtain ⟨first, hstart, hall⟩ := of_eq_ok_iff.mp h
  refine of_eq_ok_iff.mpr ⟨_, start_redo hstart, ?_⟩
  rw [requestAll_redo, hall]
  rfl

/-- The items of requests whose sources always deliver what they claim. -/
theorem Scheduled.steady (h : Scheduled tools config medium requests b)
    (hrequests : ∀ r ∈ requests, ∃ data, r.source.Delivers data) :
    ∀ item ∈ b.sorted, item.Steady := by
  intro item hitem
  obtain ⟨i, r, hr, rfl⟩ := h.mem_sort_iff.mp hitem
  have hr := List.mem_of_getElem? hr
  exact ⟨h.sizes r hr, hrequests r hr⟩

/-- The blocks of a batch are those of its requests. -/
theorem Scheduled.sum_blockCount (h : Scheduled tools config medium requests b) :
    (b.sorted.map ScheduledItem.blockCount).sum =
      (requests.map fun r => pieceCount r.source.length (r.sizeIn config)).sum := by
  have hperm : b.sorted.Perm b.items.reverse := List.mergeSort_perm _ _
  have hcounts : (requests.mapIdx (Request.item config)).map ScheduledItem.blockCount =
      requests.map fun r => pieceCount r.source.length (r.sizeIn config) := by
    apply List.ext_getElem
    · simp
    · intro i _ _
      simp only [List.getElem_map, List.getElem_mapIdx]
      rfl
  rw [(hperm.map _).sum_eq, h.items, hcounts]

/-- A batch is placed the same after the repeats were found and after they were read. -/
theorem placed_redo {repeats : Repeats} {place : Option CheckpointPlace}
    (hsteady : ∀ item ∈ b.sorted, item.Steady)
    (hfirst : b.prepare b.sorted = .ok ⟨repeats, place, 1⟩)
    (hagain : (b.redo checkpoint medium).prepare b.sorted = .ok ⟨repeats, place, 0⟩) :
    (b.redo checkpoint medium).placed = b.placed := by
  have hplaced : b.begin.placeAll repeats 0 b.sorted = b.begin.placeAll repeats 1 b.sorted :=
    b.begin.placeAll_congr repeats fun item hitem => (hsteady item hitem).delivery_congr 0 1
  rw [placed_eq hfirst, placed_eq hagain]
  dsimp only
  rw [← hplaced]
  rfl

/-- Builds that placed the same deliver the same lists and leave the same checkpoint, and on one medium
they end in the same way. -/
theorem flush_redo {p : Placed} (hplaced : b.placed = .ok p)
    (hagain : (b.redo checkpoint medium).placed = b.placed) :
    (b.redo checkpoint medium).flush.lists = b.flush.lists ∧
      (b.redo checkpoint medium).flush.checkpoint = p.checkpoint ∧
      (medium = b.medium → (b.redo checkpoint medium).flush = b.flush) := by
  rw [flush_eq_close, flush_eq_close, hagain, hplaced]
  refine ⟨?_, checkpoint_close _ p, ?_⟩
  · rw [lists_close, lists_close]
  · rintro rfl
    rfl

end ImageBuild

/-! ## Main result -/

/-- **A checkpoint is replayed.**

An item whose source always delivers the bytes that it claims has as many blocks as its length says,
whenever it is opened, and counting them in words of 64 bits gives the same number.

Let all items of a batch be such, and let their blocks be counted in 64 bits. Preparing the batch without
a checkpoint finds repeats and writes a checkpoint. Preparing it with this checkpoint, however often, gives
the same repeats and opens no source; and placing the items gives the same result. If every item can be
counted in words, so can the batch, and the checkpoint is compared with that count.

So an image of such sources, begun again with the checkpoint that the first build left, places every
block as the first one did, whatever the media refuse; and on the same medium it ends in the same way.

What is in memory or in a file has less than 2 ^ 63 bytes, so its blocks can be counted in words. -/
theorem checkpoint_is_replayed :
    (∀ item : ScheduledItem, item.Steady →
      (∀ opening, ∃ blocks, item.delivery opening = .ok (blocks, none) ∧
        blocks.size = item.blockCount) ∧
      (item.source.length + item.blockSize < 2 ^ 64 → item.wordCount.toNat = item.blockCount)) ∧
    (∀ (identity : ByteArray → UInt64) (items : List ScheduledItem),
      (∀ item ∈ items, item.Steady) → (items.map ScheduledItem.blockCount).sum < 2 ^ 64 →
      ∃ repeats file,
        Checkpoint.prepare identity items (some .vacant) = .ok ⟨repeats, some (.file file), 1⟩ ∧
        repeats.blockCount = (items.map ScheduledItem.blockCount).sum ∧
        ((∀ item ∈ items, item.source.length + item.blockSize < 2 ^ 64) →
          (ScheduledItem.wordTotal items).toNat = repeats.blockCount) ∧
        (∀ identity', Checkpoint.prepare identity' items (some (.file file)) =
          .ok ⟨repeats, some (.file file), 0⟩) ∧
        ∀ (ι : Type) [Catalog ι] (s : BatchState ι),
          s.placeAll repeats 0 items = s.placeAll repeats 1 items) ∧
    (∀ (tools : BuildTools) (config : ImageConfig) (medium : Medium) (requests : List Request)
      (b : ImageBuild), config.dedup = .prepass →
      (∀ r ∈ requests, ∃ data, r.source.Delivers data) →
      (requests.map fun r => pieceCount r.source.length (r.sizeIn config)).sum < 2 ^ 64 →
      ImageBuild.of tools config (some .vacant) medium requests = .ok b →
      ((∀ r ∈ requests, r.source.length + r.sizeIn config < 2 ^ 64) →
        (ScheduledItem.wordTotal b.sorted).toNat =
          (requests.map fun r => pieceCount r.source.length (r.sizeIn config)).sum) ∧
      ∃ file, b.flush.checkpoint = some (.file file) ∧
        ∀ medium', ∃ again,
          ImageBuild.of tools config (some (.file file)) medium' requests = .ok again ∧
          again.placed = b.placed ∧ again.flush.lists = b.flush.lists ∧
          again.flush.checkpoint = some (.file file) ∧
          (medium' = medium → again.flush = b.flush)) := by
  refine ⟨?_, ?_, ?_⟩
  · intro item hitem
    exact ⟨hitem.size_delivery, ScheduledItem.toNat_wordCount hitem.1⟩
  · intro identity items hitems hcount
    obtain ⟨repeats, file, hfirst, hsum, hagain⟩ := Checkpoint.prepare_again identity hitems hcount
    refine ⟨repeats, file, hfirst, hsum, fun hfits => ?_, hagain, fun ι _ s =>
      s.placeAll_congr repeats fun item hitem => (hitems item hitem).delivery_congr 0 1⟩
    rw [hsum]
    exact ScheduledItem.toNat_wordTotal (fun item hitem => ⟨(hitems item hitem).1, hfits item hitem⟩) hcount
  · intro tools config medium requests b hmode hrequests hcount hbuild
    obtain ⟨-, hscheduled⟩ := ImageBuild.of_scheduled hbuild
    have hsteady := hscheduled.steady hrequests
    rw [← hscheduled.sum_blockCount] at hcount
    obtain ⟨repeats, file, hfirst, -, hagain⟩ :=
      Checkpoint.prepare_again b.tools.identity hsteady hcount
    have hmode : b.config.dedup = .prepass := hscheduled.sameConfig ▸ hmode
    have hvacant : b.checkpoint = some .vacant :=
      congrArg ImageBuild.checkpoint (Except.ok.inj (hbuild.symm.trans (ImageBuild.of_redo hbuild)))
    have hprepared : b.prepare b.sorted = .ok ⟨repeats, some (.file file), 1⟩ := by
      rw [ImageBuild.prepare, if_pos hmode, hvacant]
      exact hfirst
    have hplaced := ImageBuild.placed_eq hprepared
    refine ⟨fun hfits => ?_, file, ?_, ?_⟩
    · rw [← hscheduled.sum_blockCount]
      refine ScheduledItem.toNat_wordTotal (fun item hitem => ⟨(hsteady item hitem).1, ?_⟩) hcount
      obtain ⟨i, r, hr, rfl⟩ := hscheduled.mem_sort_iff.mp hitem
      exact hfits r (List.mem_of_getElem? hr)
    · rw [b.flush_eq_close, hplaced, b.checkpoint_close]
    · intro medium'
      have hreprepared : (b.redo (some (.file file)) medium').prepare b.sorted =
          .ok ⟨repeats, some (.file file), 0⟩ := by
        rw [ImageBuild.prepare, if_pos (by exact hmode)]
        exact hagain _
      have hreplaced := ImageBuild.placed_redo hsteady hprepared hreprepared
      obtain ⟨hlists, hcheckpoint, hflush⟩ := ImageBuild.flush_redo hplaced hreplaced
      exact ⟨_, ImageBuild.of_redo hbuild, hreplaced, hlists, hcheckpoint,
        fun hmedium => hflush (hmedium.trans hscheduled.sameMedium.symm)⟩

/-- The batch of two sources without a checkpoint, on a medium with room for 80 bytes. -/
def brokenOffBuild : ImageBuild :=
  { collidingBuild with checkpoint := some .vacant, medium := .limited 80 }

/-- All blocks of one length have the same identity, so the checkpoint says of two blocks that they repeat
another one, though only one of them does. The medium is too small for the image. With a larger one and
the checkpoint, the blocks are placed as they were. -/
theorem broken_off_build_is_replayed :
    (∃ file again, brokenOffBuild.flush.checkpoint = some (.file file) ∧
      ImageBuild.of collidingTools collidingConfig (some (.file file)) (.limited 1000)
        collidingRequests = .ok again ∧
      again.flush.lists = brokenOffBuild.flush.lists) ∧
    ∃ repeats file, repeats.blockCount = 4 ∧
      Checkpoint.prepare Digest.identity brokenOffBuild.sorted (some (.file file)) =
        .ok ⟨repeats, some (.file file), 0⟩ := by
  have hbuild : ImageBuild.of collidingTools collidingConfig (some .vacant) (.limited 80)
      collidingRequests = .ok brokenOffBuild := by cbv
  have hrequests : ∀ r ∈ collidingRequests, ∃ data, r.source.Delivers data := by
    intro r hr
    rcases List.mem_cons.mp hr with rfl | hr
    · exact ⟨_, Source.ofBytes_delivers _ _⟩
    · obtain rfl := List.mem_singleton.mp hr
      exact ⟨_, Source.ofBytes_delivers _ _⟩
  have hsteady : ∀ item ∈ brokenOffBuild.sorted, item.Steady :=
    (ImageBuild.of_scheduled hbuild).2.steady hrequests
  have hcount : (brokenOffBuild.sorted.map ScheduledItem.blockCount).sum = 4 := by cbv
  obtain ⟨-, hprepared, hreplayed⟩ := checkpoint_is_replayed
  constructor
  · obtain ⟨-, file, hfile, hagain⟩ := hreplayed collidingTools collidingConfig (.limited 80)
      collidingRequests brokenOffBuild rfl hrequests (by cbv) hbuild
    obtain ⟨again, hof, -, hlists, -⟩ := hagain (.limited 1000)
    exact ⟨file, again, hfile, hof, hlists⟩
  · obtain ⟨repeats, file, -, hblocks, -, hprepare, -⟩ :=
      hprepared collidingTools.identity brokenOffBuild.sorted hsteady (by rw [hcount]; decide)
    exact ⟨repeats, file, hblocks.trans hcount, hprepare Digest.identity⟩

end DedupImage
