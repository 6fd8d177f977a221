import DedupImage.Proofs.Image.RoundTrip
import DedupImage.Proofs.Placement.Counterparts

/-!
# Storage makes no difference to placement

Two placements that differ in nothing but the catalog (`Twin`) are counterparts with one set of block sizes.
So they take every step together: each call has the same answer, and afterwards they again differ in nothing
but the catalog (`Twin.run`). In particular every block gets the same number and the same location.

With what is known of indexes this means that the backend of an index can be chosen at will
(`backends_are_interchangeable`).
-/

namespace DedupImage

namespace Placement

variable {ι κ : Type}

/-! ## Twins -/

/-- The same placement with another catalog. -/
def withIndex (p : Placement ι) (index : Option κ) : Placement κ :=
  { settings := p.settings
    store := p.store
    index := index
    blocks := p.blocks
    numbers := p.numbers
    windowed := p.windowed
    blockSizes := p.blockSizes
    stats := p.stats }

variable [Catalog ι] [Catalog κ]

/-- Two placements that differ in nothing but catalogs, which may be used one for the other. -/
def Twin (S : CatalogSimulation ι κ) (p : Placement ι) (q : Placement κ) : Prop :=
  ∃ index, q = p.withIndex index ∧ Option.Rel S.Alike p.index index

variable {S : CatalogSimulation ι κ} {p : Placement ι} {q : Placement κ}

namespace Twin

theorem counterpart (h : Twin S p q) : Counterpart S p.blockSizes p q := by
  obtain ⟨index, rfl, hindex⟩ := h
  exact ⟨p.store.staging, index, rfl, hindex, .rfl⟩

theorem staging (h : Twin S p q) : q.store.staging = p.store.staging := by
  obtain ⟨index, rfl, -⟩ := h
  rfl

/-- Counterparts with one set of block sizes are twins if they keep their containers at one place. -/
theorem of_counterpart {sizes : Std.TreeSet Nat} (h : Counterpart S sizes p q)
    (hsizes : p.blockSizes = sizes) (hstaging : q.store.staging = p.store.staging) : Twin S p q := by
  obtain ⟨staging, index, rfl, hindex, -⟩ := h
  obtain rfl : staging = p.store.staging := hstaging
  subst hsizes
  exact ⟨index, rfl, hindex⟩

/-- There are two catalogs, or none. -/
theorem index_cases (h : Twin S p q) : (p.index = none ∧ q.index = none) ∨
    ∃ x y, p.index = some x ∧ q.index = some y ∧ S.Alike x y :=
  h.counterpart.index_cases

/-- **Placing a block has the same answer.** -/
theorem place (h : Twin S p q) (data : ByteArray) :
    (p.place data).1 = (q.place data).1 ∧ Twin S (p.place data).2 (q.place data).2 := by
  obtain ⟨hanswer, hnext⟩ := h.counterpart.place h.staging data
  refine ⟨hanswer, .of_counterpart hnext (p.place_blockSizes data) ?_⟩
  rw [place_staging, place_staging, h.staging]

theorem placeRepeat (h : Twin S p q) (data : ByteArray) (earlier : BlockNum) :
    (p.placeRepeat data earlier).1 = (q.placeRepeat data earlier).1 ∧
      Twin S (p.placeRepeat data earlier).2 (q.placeRepeat data earlier).2 := by
  obtain ⟨hanswer, hnext⟩ := h.counterpart.placeRepeat h.staging data earlier
  refine ⟨hanswer, .of_counterpart hnext (p.placeRepeat_blockSizes data earlier) ?_⟩
  rw [placeRepeat_staging, placeRepeat_staging, h.staging]

end Twin

/-! ## Runs -/

/-- A call of a placement. -/
inductive Call where
  | place (data : ByteArray)
  | placeRepeat (data : ByteArray) (earlier : BlockNum)
  | addBlockSize (size : Nat)

/-- The event that the call is. -/
def Call.event {ι : Type} : Call → Event ι
  | place data => .place data
  | placeRepeat data earlier => .placeRepeat data earlier
  | addBlockSize size => .addBlockSize size

theorem Twin.step (h : Twin S p q) (c : Call) :
    (p.step c.event).1 = (q.step c.event).1 ∧ Twin S (p.step c.event).2 (q.step c.event).2 := by
  cases c with
  | place data => exact ⟨congrArg some (h.place data).1, (h.place data).2⟩
  | placeRepeat data earlier =>
    exact ⟨congrArg some (h.placeRepeat data earlier).1, (h.placeRepeat data earlier).2⟩
  | addBlockSize size =>
    obtain ⟨index, rfl, hindex⟩ := h
    exact ⟨rfl, index, rfl, hindex⟩

/-- **Placements that differ in their catalogs only give the same answers to all calls**, and differ in
them only afterwards. -/
theorem Twin.run (h : Twin S p q) (calls : List Call) :
    (p.run (calls.map Call.event)).1 = (q.run (calls.map Call.event)).1 ∧
      Twin S (p.run (calls.map Call.event)).2 (q.run (calls.map Call.event)).2 := by
  induction calls generalizing p q with
  | nil => exact ⟨rfl, h⟩
  | cons c rest ih =>
    obtain ⟨hanswer, hnext⟩ := h.step c
    obtain ⟨hanswers, hlast⟩ := ih hnext
    refine ⟨?_, hlast⟩
    show (p.step c.event).1.toList ++ _ = (q.step c.event).1.toList ++ _
    rw [hanswer, hanswers]

end Placement

/-! ## Backends -/

open Placement

/-- The catalog over finite maps without entries. -/
def finiteIndex (shape : IndexShape) : BlockIndex (FiniteMap BlockNum) (FiniteMap Location) :=
  ⟨.empty (.ok ∅) shape, .empty (.ok ∅) shape⟩

/-- An index without entries is like that over finite maps, wherever it is kept. -/
theorem emptyIndex_alike {codec : Codec} (h : codec.Lossless) (backend : Backend) (shape : IndexShape) :
    BlockIndex.Alike (AnySegment.counted BlockNum) (AnySegment.counted Location)
      (AnyIndex.empty backend codec true shape) (finiteIndex shape) :=
  ⟨ShardedIndex.empty_alike (AnySegment.fresh_models h backend) shape,
    ShardedIndex.empty_alike (AnySegment.fresh_models h backend) shape⟩

/-- An index whose segments are kept at a backend is as good as one whose segments are finite maps: from
single segments up to the placement of blocks, all answers and all counts are the same. -/
structure Interchangeable (codec : Codec) (backend : Backend) : Prop where
  segment : ∀ {V : Type} [RecordValue V] [LawfulRecordValue V] (calls : List (SegmentCall V)),
    ∃ s : AnySegment V, AnySegment.fresh backend codec true = .ok s ∧
      (runCalls SegmentCall.apply s calls).1 =
        (runCalls SegmentCall.apply (∅ : FiniteMap V) calls).1
  chain : ∀ {V : Type} [RecordValue V] [LawfulRecordValue V] [DecidableEq V] (most room : Nat)
    (calls : List (IndexCall V)),
    (runCalls Chain.call (.empty (AnySegment.fresh (V := V) backend codec true) most room) calls).1 =
      (runCalls Chain.call (.empty (.ok (∅ : FiniteMap V)) most room) calls).1
  sharded : ∀ {V : Type} [RecordValue V] [LawfulRecordValue V] [DecidableEq V] (shape : IndexShape)
    (calls : List (IndexCall V)),
    (runCalls ShardedIndex.call (.empty (AnySegment.fresh (V := V) backend codec true) shape) calls).1 =
      (runCalls ShardedIndex.call (.empty (.ok (∅ : FiniteMap V)) shape) calls).1
  blocks : ∀ (shape : IndexShape) (calls : List BlockIndex.Call),
    (runCalls BlockIndex.call (AnyIndex.empty backend codec true shape) calls).1 =
      (runCalls BlockIndex.call (finiteIndex shape) calls).1
  placement : ∀ (settings : PlacementSettings) (store : ContainerStore) (shape : IndexShape)
    (calls : List Call),
    let p := (start settings store (some (AnyIndex.empty backend codec true shape))).run
      (calls.map Call.event)
    let q := (start settings store (some (finiteIndex shape))).run (calls.map Call.event)
    p.1 = q.1 ∧ p.2.blocks = q.2.blocks ∧ p.2.store = q.2.store ∧ p.2.stats = q.2.stats ∧
      p.2.index.map Catalog.stats = q.2.index.map Catalog.stats

/-- **The backend of an index makes no difference.** With a lossless codec, and a directory for files,
segments of all backends answer like finite maps; so indexes of one shape give the same values in the
same order, have the same number of entries and give up the same number of segments, and blocks are placed
at the same locations. -/
theorem backends_are_interchangeable {codec : Codec} (h : codec.Lossless) (backend : Backend) :
    Interchangeable codec backend where
  segment {V} _ _ calls := by
    obtain ⟨s, hs, hmodels⟩ := AnySegment.fresh_models (V := V) h backend
    exact ⟨s, hs, hmodels.runCalls calls⟩
  chain most room calls :=
    (Chain.empty_alike (AnySegment.fresh_models h backend) most room).runCalls calls
  sharded shape calls :=
    (ShardedIndex.empty_alike (AnySegment.fresh_models h backend) shape).runCalls calls
  blocks shape calls := (emptyIndex_alike h backend shape).runCalls calls
  placement settings store shape calls := by
    have htwin : Twin (BlockIndex.simulation (AnySegment.counted BlockNum)
        (AnySegment.counted Location))
        (start settings store (some (AnyIndex.empty backend codec true shape)))
        (start settings store (some (finiteIndex shape))) :=
      ⟨some (finiteIndex shape), rfl, .some (emptyIndex_alike h backend shape)⟩
    obtain ⟨hanswers, hlast⟩ := htwin.run calls
    refine ⟨hanswers, ?_⟩
    rcases hlast.index_cases with ⟨hp, hq⟩ | ⟨x, y, hp, hq, hxy⟩
    · rw [hp, hq]
      obtain ⟨index, heq, -⟩ := hlast
      rw [heq]
      exact ⟨rfl, rfl, rfl, rfl⟩
    · rw [hp, hq, Option.map_some, Option.map_some, hxy.stats]
      obtain ⟨index, heq, -⟩ := hlast
      rw [heq]
      exact ⟨rfl, rfl, rfl, rfl⟩

/-- The second value goes into another bucket, which is dropped when the first bucket is needed again. -/
theorem buckets_answer_like_maps :
    ∃ s : AnySegment BlockNum, AnySegment.fresh .compressed (storedCodec .zstd) true = .ok s ∧
      (runCalls SegmentCall.apply s
        [.put 5 ⟨1⟩, .put 5000 ⟨2⟩, .delete 5000, .get 5, .has 5000]).1 =
        [(.ok .done, 1), (.ok .done, 2), (.ok .done, 1), (.ok (.value (some ⟨1⟩)), 1),
          (.ok (.present false), 1)] := by
  obtain ⟨s, hs, heq⟩ :=
    (backends_are_interchangeable (storedCodec_lossless .zstd) .compressed).segment
      [SegmentCall.put 5 (BlockNum.mk 1), .put 5000 ⟨2⟩, .delete 5000, .get 5, .has 5000]
  exact ⟨s, hs, heq.trans (by rfl)⟩

end DedupImage
