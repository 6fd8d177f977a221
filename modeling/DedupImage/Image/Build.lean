import DedupImage.Batch.Checkpoint
import DedupImage.Batch.Placing
import DedupImage.Codec.Standard
import DedupImage.Image.Config
import DedupImage.Image.Script
import DedupImage.Quoted

/-!
# Building an image

An image is begun with a configuration and a medium, sources are scheduled, and flushing does all the
work: it sorts the sources, finds the repeats of the batch if the mode asks for it, places every block,
and writes the image. A failure anywhere ends the build. What had been delivered or written before
stays, and `Flushed` shows it: the block lists of the sources that were finished, the medium, and the
checkpoint.

The codecs and the two digests are parameters, because nothing here depends on what they compute.
-/

namespace DedupImage

/-- The parts that a build takes as they are. -/
structure BuildTools where
  /-- The codec of a scheme, at the level of the build. -/
  codec : Scheme → Codec
  /-- The hash of the block index. -/
  fingerprint : ByteArray → UInt32
  /-- The identity of a block within a batch. -/
  identity : ByteArray → UInt64

/-- Tools with the codecs of a compression library, at these levels. -/
def BuildTools.ofLibrary (lib : CodecLibrary) (level : Scheme → Int) : BuildTools :=
  ⟨fun scheme => lib.codec ⟨scheme, level scheme⟩, Digest.fingerprint, Digest.identity⟩

/-- The tools of this library, at the standard levels. -/
def BuildTools.standard : BuildTools :=
  ofLibrary CodecLibrary.standard fun scheme => (CodecSetting.levels scheme).standard

/-- An image whose sources are being scheduled. -/
structure ImageBuild where
  tools : BuildTools
  config : ImageConfig
  setting : CodecSetting
  /-- The checkpoint of the batch, if it has one. -/
  checkpoint : Option CheckpointPlace
  medium : Medium
  /-- The scheduled sources, the last one first. -/
  items : List ScheduledItem := []
  placement : Placement AnyIndex

/-- What an image holds. -/
structure ImageSummary where
  /-- Blocks placed, counting every repeat. -/
  blocks : Nat
  /-- Entries of the block table. -/
  uniqueBlocks : Nat
  containers : Nat
  /-- Bytes of all containers, uncompressed. -/
  rawBytes : Nat
  /-- Bytes of all containers, compressed. -/
  compressedBytes : Nat
  reusedBlocks : Nat
  /-- Bytes of new blocks that were already stored. -/
  overlappedBytes : Nat
  /-- Index segments given up. -/
  evictions : Nat
  /-- The size of the image. -/
  imageBytes : Nat
  packedLocators : Bool
  deriving DecidableEq, Repr

/-- What is left when a build has ended. -/
structure Flushed where
  outcome : Except Failure ImageSummary
  /-- The block numbers of every source, in the order of scheduling. -/
  lists : Array (Array BlockNum)
  medium : Medium
  checkpoint : Option CheckpointPlace

namespace ImageConfig

/-- The settings of placement. -/
def placementSettings (c : ImageConfig) (hash : ByteArray → UInt32) : PlacementSettings where
  dedup := c.dedup
  leastOverlap := c.leastOverlap
  granularity := c.granularity
  maxCandidates := c.maxCandidates
  windowPeriod := c.windowPeriod
  windowInterval := c.windowInterval
  hash := hash

/-- The catalog, if the mode has one. -/
def catalog (c : ImageConfig) (codec : Codec) : Option AnyIndex :=
  if c.dedup.usesIndex then
    some (AnyIndex.empty c.backend codec (decide (c.staging ≠ .missing)) c.shape)
  else
    none

/-- The state before the first block is placed. -/
def startPlacement (c : ImageConfig) (tools : BuildTools) : Placement AnyIndex :=
  Placement.start (c.placementSettings tools.fingerprint)
    (ContainerStore.empty c.containerSize c.reserve c.staging) (c.catalog (tools.codec c.scheme))

/-- The layout of the image. -/
def layout (c : ImageConfig) : ImageLayout where
  blockSize := c.blockSize
  containerSize := c.containerSize
  packLocators := c.packLocators
  sparse := c.sparse
  modificationTime := c.modificationTime

end ImageConfig

namespace ImageBuild

/-- Begin an image. -/
def start (tools : BuildTools) (config : ImageConfig) (checkpoint : Option CheckpointPlace)
    (medium : Medium) : Except Failure ImageBuild :=
  match config.check with
  | .error e => .error e
  | .ok () =>
    match CodecSetting.configure config.scheme config.allOptions with
    | .error e => .error e
    | .ok setting =>
      .ok
        { tools := tools
          config := config
          setting := setting
          checkpoint := checkpoint
          medium := medium
          placement := config.startPlacement tools }

/-- Schedule a source, to be cut into blocks of `blockSize` bytes. -/
def schedule (b : ImageBuild) (source : Source) (rank blockSize : Nat) :
    Except Failure ImageBuild :=
  match ImageConfig.blockSizeFault? blockSize b.config.containerSize with
  | some f => .error (.invalidConfig f)
  | none =>
    .ok
      { b with
        items := ⟨source, rank, blockSize, b.items.length⟩ :: b.items
        placement := b.placement.addBlockSize blockSize }

/-- Schedule a source, to be cut into blocks of the image's block size. -/
def scheduleDefault (b : ImageBuild) (source : Source) (rank : Nat) : Except Failure ImageBuild :=
  b.schedule source rank b.config.blockSize

/-- The repeats of the batch, if the mode asks for them. -/
def prepare (b : ImageBuild) (items : List ScheduledItem) : Except Failure Checkpoint.Prepared :=
  if b.config.dedup = .prepass then
    Checkpoint.prepare b.tools.identity items b.checkpoint
  else
    .ok ⟨{}, b.checkpoint, 0⟩

/-- The writes of the image with the containers and the block table of a finished placement. -/
def script (b : ImageBuild) (p : Placement AnyIndex) : ImageScript :=
  ImageScript.of b.config.layout (b.tools.codec b.config.scheme) p.store.contents.toList
    (p.blocks.toList.map BlockRecord.location)

/-- What an image holds, from a finished placement of `blocks` blocks and what was written. -/
def summary (p : Placement AnyIndex) (blocks : Nat) (w : WrittenImage) : ImageSummary where
  blocks := blocks
  uniqueBlocks := p.blocks.size
  containers := p.store.count
  rawBytes := w.rawBytes
  compressedBytes := w.compressedBytes
  reusedBlocks := p.stats.reused
  overlappedBytes := p.stats.overlappedBytes
  evictions := (p.index.map fun x => (Catalog.stats x).evictions).getD 0
  imageBytes := w.bytesUsed
  packedLocators := w.packedLocators

/-- Place every block and write the image. -/
def flush (b : ImageBuild) : Flushed :=
  let items := ScheduledItem.sort b.items.reverse
  let lists := Array.replicate b.items.length #[]
  match b.prepare items with
  | .error e => ⟨.error e, lists, b.medium, b.checkpoint⟩
  | .ok prepared =>
    let state : BatchState AnyIndex := { placement := b.placement, lists := lists }
    match state.placeAll prepared.repeats prepared.openings items with
    | (.error e, s) => ⟨.error e, s.lists, b.medium, prepared.place⟩
    | (.ok (), s) =>
      match (b.script s.placement).run b.medium with
      | (.error e, medium) => ⟨.error e, s.lists, medium, prepared.place⟩
      | (.ok written, medium) =>
        ⟨.ok (summary s.placement s.placed.size written), s.lists, medium, prepared.place⟩

/-- The text of a scheduled item. -/
def itemText (i : ScheduledItem) : String :=
  "ScheduleItem \x7b source: " ++ quoted i.source.name ++ ", class: " ++ toString i.rank ++
    ", block_size: " ++ toString i.blockSize ++ " \x7d"

/-- The text of an image before it is flushed. -/
def text (b : ImageBuild) : String :=
  let layout := b.config.layout
  "Image \x7b items: [" ++ ", ".intercalate (b.items.reverse.map itemText) ++ "], dedup: " ++
    b.config.dedup.text ++ ", layout: Layout \x7b block_size: " ++ toString layout.blockSize ++
    ", container_size: " ++ toString layout.containerSize ++ ", pack_locators: " ++
    toString layout.packLocators ++ ", sparse_containers: " ++ toString layout.sparse ++
    ", modification_time: " ++ toString layout.modificationTime ++
    " \x7d, compression: ParallelCompressor \x7b pool: WorkerPool \x7b threads: " ++
    toString (max b.config.threads 1) ++ ", .. \x7d, .. \x7d \x7d"

end ImageBuild

end DedupImage
