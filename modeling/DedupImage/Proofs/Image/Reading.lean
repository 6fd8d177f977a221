import DedupImage.Image.Reading
import DedupImage.Proofs.Batch.Delivery
import Mathlib.Data.List.Forall2

/-!
# What a reader gives

A reader serves containers and locations if its table has the locations, and its records or its cache
give the containers (`ImageReader.Serves`). Reading changes nothing but the cache, and what enters the
cache was loaded; so a reader that serves them once, serves them after any further reads, and whatever
its cache keeps (`ImageReader.After.serves`).

From such a reader a list of blocks that name the pieces of a string gives the string
(`ImageReader.Serves.readList_eq`).
-/

namespace DedupImage

/-! ## The cache -/

namespace ContainerCache

variable {c : ContainerCache} {id : Nat} {data : ByteArray} {e : Nat × ByteArray}

theorem mem_of_lookup (h : c.lookup id = some data) : (id, data) ∈ c.entries := by
  obtain ⟨⟨id', data'⟩, hfound, rfl⟩ := Option.map_eq_some_iff.mp h
  have hid : id' = id := by simpa using List.find?_some hfound
  rw [← hid]
  exact List.mem_of_find?_eq_some hfound

theorem mem_touch (h : e ∈ (c.touch id data).entries) : e ∈ c.entries ∨ e = (id, data) := by
  rcases List.mem_append.mp h with h | h
  · exact .inl (List.mem_of_mem_filter h)
  · exact .inr (List.mem_singleton.mp h)

/-- What is kept was there. -/
theorem mem_dropOld {limit bytes : Nat} {entries : List (Nat × ByteArray)}
    (h : e ∈ (dropOld limit entries bytes).1) : e ∈ entries := by
  induction entries, bytes using dropOld.induct limit with
  | case1 first second rest bytes hover ih =>
    rw [dropOld, if_pos hover] at h
    exact List.mem_cons_of_mem first (ih h)
  | case2 first second rest bytes hover =>
    rw [dropOld, if_neg hover] at h
    exact h
  | case3 entries bytes hshort =>
    rw [dropOld] at h
    · exact h
    · exact hshort

theorem mem_insert (h : e ∈ (c.insert id data).entries) : e ∈ c.entries ∨ e = (id, data) := by
  rcases List.mem_append.mp (mem_dropOld h) with h | h
  · exact .inl h
  · exact .inr (List.mem_singleton.mp h)

theorem mem_setLimit {limit : Nat} (h : e ∈ (c.setLimit limit).entries) : e ∈ c.entries :=
  mem_dropOld h

end ContainerCache

/-! ## Readers of given containers -/

/-- A block number names a string: its location is in the table, and the container there has the string
from the location's offset on. -/
def Named (containers : List ByteArray) (locations : List Location) (b : BlockNum)
    (data : ByteArray) : Prop :=
  ∃ l bytes, locations[b.number.toNat]? = some l ∧ containers[l.container.toNat]? = some bytes ∧
    holdsAt bytes l.offset.toNat data = true

namespace ImageReader

variable {r r' : ImageReader} {containers : List ByteArray} {locations : List Location}

/-- A reader gives these containers and has these locations. -/
structure Serves (r : ImageReader) (containers : List ByteArray) (locations : List Location) :
    Prop where
  table : r.table = locations.toArray
  loaded : ∀ id data, r.loadContainer id = .ok data ↔ containers[id]? = some data
  cached : ∀ e ∈ r.cache.entries, containers[e.1]? = some e.2

/-- Only the cache matters. -/
theorem Serves.withCache (h : r.Serves containers locations) {cache : ContainerCache}
    (hcache : ∀ e ∈ cache.entries, containers[e.1]? = some e.2) :
    ({ r with cache := cache } : ImageReader).Serves containers locations :=
  ⟨h.table, h.loaded, hcache⟩

/-- A container is given, and the reader serves the same afterwards. -/
theorem Serves.container (h : r.Serves containers locations) (id : Nat) :
    (r.container id).2.Serves containers locations ∧
      ∀ data, containers[id]? = some data → (r.container id).1 = .ok data := by
  unfold ImageReader.container
  cases hlookup : r.cache.lookup id with
  | some cached =>
    have hdata : containers[id]? = some cached := h.cached _ (ContainerCache.mem_of_lookup hlookup)
    constructor
    · apply h.withCache
      intro e he
      rcases ContainerCache.mem_touch he with he | rfl
      · exact h.cached e he
      · exact hdata
    · intro data hid
      rw [hdata] at hid
      exact congrArg Except.ok (Option.some.inj hid)
  | none =>
    cases hload : r.loadContainer id with
    | error e =>
      refine ⟨h, ?_⟩
      intro data hid
      rw [(h.loaded id data).mpr hid] at hload
      cases hload
    | ok loaded =>
      have hdata : containers[id]? = some loaded := (h.loaded id loaded).mp hload
      constructor
      · apply h.withCache
        intro e he
        rcases ContainerCache.mem_insert he with he | rfl
        · exact h.cached e he
        · exact hdata
      · intro data hid
        rw [hdata] at hid
        exact congrArg Except.ok (Option.some.inj hid)

/-- A block that names a string gives it, and the reader serves the same afterwards. -/
theorem Serves.readBlock (h : r.Serves containers locations) (b : BlockNum) (length : Nat) :
    (r.readBlock b length).2.Serves containers locations ∧
      ∀ data, data.size = length → Named containers locations b data →
        (r.readBlock b length).1 = .ok data := by
  have hlocation : r.location? b = locations[b.number.toNat]? := by
    rw [location?, h.table, List.getElem?_toArray]
  unfold ImageReader.readBlock
  rw [hlocation]
  cases hl : locations[b.number.toNat]? with
  | none =>
    refine ⟨h, ?_⟩
    rintro data - ⟨l, bytes, hl', -⟩
    rw [hl] at hl'
    cases hl'
  | some l =>
    obtain ⟨hserves, hgives⟩ := h.container l.container.toNat
    rcases hread : r.container l.container.toNat with ⟨e | bytes, r'⟩
    · rw [hread] at hserves hgives
      simp only [hread]
      refine ⟨hserves, ?_⟩
      rintro data - ⟨l', bytes, hl', hbytes, -⟩
      obtain rfl : l = l' := Option.some.inj (hl.symm.trans hl')
      cases hgives bytes hbytes
    · rw [hread] at hserves hgives
      by_cases hfits : l.offset.toNat + length ≤ bytes.size
      · simp only [hread, if_pos hfits]
        refine ⟨hserves, ?_⟩
        rintro data rfl ⟨l', bytes', hl', hbytes, hholds⟩
        obtain rfl : l = l' := Option.some.inj (hl.symm.trans hl')
        obtain rfl : bytes = bytes' := Except.ok.inj (hgives bytes' hbytes)
        exact congrArg Except.ok (holdsAt_iff_slice.mp hholds).2
      · simp only [hread, if_neg hfits]
        refine ⟨hserves, ?_⟩
        rintro data rfl ⟨l', bytes', hl', hbytes, hholds⟩
        obtain rfl : l = l' := Option.some.inj (hl.symm.trans hl')
        obtain rfl : bytes = bytes' := Except.ok.inj (hgives bytes' hbytes)
        exact absurd (holdsAt_iff_slice.mp hholds).1 hfits

/-! ## Lists of blocks -/

theorem Serves.readBlocks (h : r.Serves containers locations) (size remaining : Nat) (out : ByteArray)
    (blocks : List BlockNum) :
    (r.readBlocks size remaining out blocks).2.Serves containers locations := by
  induction blocks generalizing r remaining out with
  | nil => exact h
  | cons b rest ih =>
    obtain ⟨hserves, -⟩ := h.readBlock b (min remaining size)
    unfold ImageReader.readBlocks
    by_cases hdone : min remaining size = 0
    · simp only [if_pos hdone]
      exact h
    · rcases hread : r.readBlock b (min remaining size) with ⟨e | data, r'⟩
      · rw [hread] at hserves
        simp only [if_neg hdone, hread]
        exact hserves
      · rw [hread] at hserves
        simp only [if_neg hdone, hread]
        exact ih hserves _ _

theorem Serves.readList (h : r.Serves containers locations) (blocks : List BlockNum)
    (total size : Nat) : (r.readList blocks total size).2.Serves containers locations := by
  have hserves := h.readBlocks size total ByteArray.empty blocks
  unfold ImageReader.readList
  rcases hread : r.readBlocks size total ByteArray.empty blocks with ⟨e | ⟨data, missing⟩, r'⟩
  · rw [hread] at hserves
    exact hserves
  · rw [hread] at hserves
    simp only
    split <;> exact hserves

/-- Blocks that name the rest of a string, piece by piece, give it. -/
theorem Serves.readBlocks_eq (h : r.Serves containers locations) {size : Nat} (hsize : 0 < size)
    {data : ByteArray} {start : Nat} {blocks : List BlockNum}
    (hblocks : List.Forall₂ (Named containers locations) blocks
      (piecesFrom data size start (pieceCount (data.size - start) size))) (out : ByteArray) :
    (r.readBlocks size (data.size - start) out blocks).1 =
      .ok (out ++ data.extract start data.size, 0) := by
  induction blocks generalizing r start out with
  | nil =>
    have hnone : data.size - start = 0 := by
      by_cases hrest : data.size - start = 0
      · exact hrest
      · rw [pieceCount_pos hsize (Nat.pos_of_ne_zero hrest), piecesFrom] at hblocks
        cases hblocks
    have hempty : data.extract start data.size = ByteArray.empty :=
      ByteArray.extract_eq_empty_iff.mpr (by omega)
    rw [ImageReader.readBlocks, hnone, hempty, ByteArray.append_empty]
  | cons b rest ih =>
    have hrest : 0 < data.size - start := by
      by_cases hnone : data.size - start = 0
      · rw [hnone, pieceCount_zero hsize] at hblocks
        cases hblocks
      · exact Nat.pos_of_ne_zero hnone
    rw [pieceCount_pos hsize hrest, piecesFrom] at hblocks
    obtain ⟨hb, hblocks⟩ := List.forall₂_cons.mp hblocks
    obtain ⟨hserves, hgives⟩ := h.readBlock b (min (data.size - start) size)
    have hlength : (slice data start size).size = min (data.size - start) size := by
      rw [size_slice]
      omega
    have hread := hgives _ hlength hb
    have hleft : data.size - start - min (data.size - start) size = data.size - (start + size) := by
      omega
    have hjoin : slice data start size ++ data.extract (start + size) data.size =
        data.extract start data.size := by
      rw [slice, ByteArray.extract_append_extract, Nat.min_eq_left (Nat.le_add_right _ _),
        ← extract_min_size, Nat.min_eq_right (Nat.le_max_right _ _)]
    rw [Nat.sub_sub] at hblocks
    have hnext := ih hserves hblocks (out ++ slice data start size)
    rcases hb' : r.readBlock b (min (data.size - start) size) with ⟨answer, r'⟩
    rw [hb'] at hread hnext
    obtain rfl : answer = .ok (slice data start size) := hread
    rw [ImageReader.readBlocks, if_neg (by omega)]
    simp only [hb', hleft]
    rw [hnext, ByteArray.append_assoc, hjoin]

/-- **A list of blocks gives the string whose pieces they name.** -/
theorem Serves.readList_eq (h : r.Serves containers locations) {size : Nat} (hsize : 0 < size)
    {data : ByteArray} {blocks : List BlockNum}
    (hblocks : List.Forall₂ (Named containers locations) blocks (pieces data size)) :
    (r.readList blocks data.size size).1 = .ok data := by
  have hwhole : List.Forall₂ (Named containers locations) blocks
      (piecesFrom data size 0 (pieceCount (data.size - 0) size)) := hblocks
  have hread := h.readBlocks_eq hsize hwhole ByteArray.empty
  rw [Nat.sub_zero, ByteArray.empty_append, ByteArray.extract_zero_size] at hread
  unfold ImageReader.readList
  rcases hr : r.readBlocks size data.size ByteArray.empty blocks with ⟨answer, r'⟩
  rw [hr] at hread
  obtain rfl : answer = .ok (data, 0) := hread
  rfl

/-! ## Readers in use -/

/-- A reader after some reads and changes of the cache limit. -/
inductive After (r : ImageReader) : ImageReader → Prop where
  | opened : After r r
  | read {r' : ImageReader} (h : After r r') (blocks : List BlockNum) (total size : Nat) :
    After r (r'.readList blocks total size).2
  | readOne {r' : ImageReader} (h : After r r') (b : BlockNum) (length : Nat) :
    After r (r'.readBlock b length).2
  | limited {r' : ImageReader} (h : After r r') (limit : Nat) : After r (r'.setCacheLimit limit)

/-- **What a reader serves, it serves from then on.** -/
theorem After.serves (h : After r r') (hr : r.Serves containers locations) :
    r'.Serves containers locations := by
  induction h with
  | opened => exact hr
  | read _ blocks total size ih => exact ih.readList blocks total size
  | readOne _ b length ih => exact (ih.readBlock b length).1
  | limited _ limit ih =>
    apply ih.withCache
    intro e he
    exact ih.cached e (ContainerCache.mem_setLimit he)

/-- A call of a reader. -/
inductive Call where
  | container (id : Nat)
  | block (b : BlockNum) (length : Nat)
  | list (blocks : List BlockNum) (total size : Nat)
  | limit (bytes : Nat)

/-- The reader after a call. -/
def afterCall (r : ImageReader) : Call → ImageReader
  | .container id => (r.container id).2
  | .block b length => (r.readBlock b length).2
  | .list blocks total size => (r.readList blocks total size).2
  | .limit bytes => r.setCacheLimit bytes

/-- The reader after some calls. -/
def afterCalls (r : ImageReader) (calls : List Call) : ImageReader := calls.foldl afterCall r

theorem Serves.afterCall (h : r.Serves containers locations) (call : Call) :
    (r.afterCall call).Serves containers locations := by
  cases call with
  | container id => exact (h.container id).1
  | block b length => exact (h.readBlock b length).1
  | list blocks total size => exact h.readList blocks total size
  | limit bytes =>
    apply h.withCache
    intro e he
    exact h.cached e (ContainerCache.mem_setLimit he)

/-- **What a reader serves, it serves after any calls.** -/
theorem Serves.afterCalls (h : r.Serves containers locations) (calls : List Call) :
    (r.afterCalls calls).Serves containers locations := by
  induction calls generalizing r with
  | nil => exact h
  | cons call rest ih => exact ih (h.afterCall call)

end ImageReader

end DedupImage
