import DedupImage.Proofs.Placement.Gathering

/-!
# No block is stored twice

If every block is looked up and the catalog loses nothing, the blocks of the table are different strings,
for a block that is in the table is found there (`Distinct`). If moreover no two strings that are hashed
have one hash, the blocks are told apart by their hashes, of which there are no more than words. So words
can name all blocks without an assumption on how many are placed (`place_blocks_le`).

The invariant is kept by every call, whether it finds its block, writes it or fails (`place_distinct`).
-/

namespace DedupImage.Placement

/-- Strings with different hashes are not more than there are hashes. -/
theorem length_le_of_injOn {hash : ByteArray → UInt32} {S : Set ByteArray} (hinjective : S.InjOn hash)
    {strings : List ByteArray} (hnodup : strings.Nodup) (hS : ∀ w ∈ strings, w ∈ S) :
    strings.length ≤ 2 ^ 32 := by
  have hhashes : (strings.map fun w => (hash w).toFin).Nodup := by
    refine hnodup.map_on fun w hw w' hw' heq => ?_
    exact hinjective (hS w hw) (hS w' hw') (UInt32.toFin_inj.mp heq)
  have hcard := hhashes.length_le_card
  rwa [List.length_map, Fintype.card_fin] at hcard

variable {ι : Type} [Catalog ι] {V : FullView ι} {p q : Placement ι} {S : Set ByteArray}
  {stored : List ByteArray} {data : ByteArray}

/-- The blocks of the table are these strings in this order. They are different, each was hashed, and
each is in the catalog. -/
structure Distinct (V : FullView ι) (S : Set ByteArray) (p : Placement ι) (stored : List ByteArray) :
    Prop where
  size : p.blocks.size = stored.length
  nodup : stored.Nodup
  hashed : ∀ w ∈ stored, w ∈ S
  resolves : ∀ (i : Nat) w, stored[i]? = some w → p.Resolves ⟨i.toUInt32⟩ w
  held : ∀ (i : Nat) w, stored[i]? = some w → Has V p (.block (p.settings.hash w) ⟨i.toUInt32⟩)

namespace Distinct

/-- Steps that add no block, and after which every block is still in the catalog, keep the invariant. -/
theorem carried (h : Distinct V S p stored) (hext : p.Extends q) (hsize : q.blocks.size = p.blocks.size)
    (hkept : ∀ hash b, Has V p (.block hash b) → Has V q (.block hash b)) : Distinct V S q stored where
  size := hsize.trans h.size
  nodup := h.nodup
  hashed := h.hashed
  resolves i w hw := hext.resolves (h.resolves i w hw)
  held i w hw := by
    rw [hext.settings]
    exact hkept _ _ (h.held i w hw)

/-- Steps that add no block and do not ask the catalog keep the invariant. -/
theorem congr (h : Distinct V S p stored) (hext : p.Extends q) (hsize : q.blocks.size = p.blocks.size)
    (hindex : q.index = p.index) : Distinct V S q stored :=
  h.carried hext hsize fun _ _ hb => hb.congr hindex

/-- Steps that add no block and lose nothing keep the invariant. -/
theorem later (h : Distinct V S p stored) (hext : p.Extends q) (hsize : q.blocks.size = p.blocks.size)
    (hasked : Asked p q) (hvalid : IndexValid V.toKeepingView p)
    (hintact : IndexIntact V.toKeepingView q) : Distinct V S q stored :=
  h.carried hext hsize fun _ _ hb => hb.asked hasked hvalid hintact

/-- What a block resolves to is one of the strings. -/
theorem mem_of_resolves (h : Distinct V S p stored) {b : BlockNum} (hb : p.Resolves b data) :
    data ∈ stored := by
  obtain ⟨r, hr, hs⟩ := hb
  have hlt : b.number.toNat < stored.length := by
    rw [← h.size]
    exact (Array.getElem?_eq_some_iff.mp hr).1
  have hw := List.getElem?_eq_getElem hlt
  have hresolves := h.resolves _ _ hw
  rw [Nat.toUInt32_eq, UInt32.ofNat_toNat] at hresolves
  obtain rfl := Resolves.unique ⟨r, hr, hs⟩ hresolves
  exact List.mem_of_getElem? hw

/-- A string that is a block is found as a block. -/
theorem lookup (hd : Distinct V S p stored) (h : Sound V.toLossyView p)
    (hp : IndexIntact V.toKeepingView p) (hoverlaps : p.settings.dedup.overlaps = true)
    (hdata : data ∈ stored) : ∃ b, (p.lookup data).1 = .ok (some (.block b)) := by
  obtain ⟨i, hi⟩ := List.getElem?_of_mem hdata
  exact lookup_of_block h hp hoverlaps (hd.held i data hi) (hd.resolves i data hi)

theorem length_lt (h : Distinct V S p stored) (hinjective : S.InjOn p.settings.hash) (hdata : data ∈ S)
    (hnew : data ∉ stored) : stored.length < 2 ^ 32 := by
  have hnodup : (stored ++ [data]).Nodup :=
    List.nodup_append.mpr ⟨h.nodup, List.nodup_singleton data, by
      rintro w hw w' hw' rfl
      exact hnew (List.mem_singleton.mp hw' ▸ hw)⟩
  have hlength := length_le_of_injOn hinjective hnodup fun w hw => by
    rcases List.mem_append.mp hw with hw | hw
    · exact h.hashed w hw
    · exact List.mem_singleton.mp hw ▸ hdata
  rwa [List.length_append] at hlength

end Distinct

/-! ## One more block -/

/-- A call adds at most one block, and none if it found one. -/
theorem place_blocks_size (hp : p.Consistent) (data : ByteArray) :
    (p.place data).2.blocks.size ≤ p.blocks.size + 1 ∧
      ∀ b, (p.lookup data).1 = .ok (some (.block b)) → (p.place data).2.blocks = p.blocks := by
  constructor
  · cases hanswer : (p.place data).1 with
    | error e =>
      rw [(place_failed hanswer).blocks]
      exact Nat.le_succ _
    | ok b =>
      cases place_outcome hp hanswer with
      | reused _ blocks _ =>
        rw [blocks]
        exact Nat.le_succ _
      | promoted l _ _ _ blocks _ =>
        rw [blocks]
        exact (size_register_blocks p _).2
      | written id newSize fit store _ _ _ _ blocks _ =>
        rw [blocks]
        exact (size_register_blocks p _).2
  · intro b hb
    have halike := p.lookup_alike data
    rcases p.place_cases data with ⟨e, q, hq, hout⟩ | ⟨hit, q, hq, hout⟩ | ⟨q, hq, hout⟩ <;>
      rw [hq] at hb halike
    · cases hb
    · obtain rfl := Option.some.inj (Except.ok.inj hb)
      rw [hout]
      show (q.useHit _ _ _).2.blocks = _
      rw [useHit_eq]
      exact (predict_alike _ _ _).blocks.trans halike.blocks
    · cases hb

/-- Words can name all blocks after a call, if they could before. -/
theorem place_blocks_le (hd : Distinct V S p stored) (hp : p.Consistent) (h : Sound V.toLossyView p)
    (hintact : IndexIntact V.toKeepingView p) (hoverlaps : p.settings.dedup.overlaps = true)
    (hinjective : S.InjOn p.settings.hash) (hdata : data ∈ S) :
    (p.place data).2.blocks.size ≤ 2 ^ 32 := by
  obtain ⟨hsize, hfound⟩ := place_blocks_size hp data
  by_cases hmem : data ∈ stored
  · obtain ⟨b, hb⟩ := hd.lookup h hintact hoverlaps hmem
    rw [hfound b hb, hd.size]
    exact length_le_of_injOn hinjective hd.nodup hd.hashed
  · have := hd.length_lt hinjective hdata hmem
    have := hd.size
    omega

/-- A call that returns a number makes a container for a new block only. -/
theorem place_count_le_blocks (hd : Distinct V S p stored) (hp : p.Consistent)
    (h : Sound V.toLossyView p) (hintact : IndexIntact V.toKeepingView p)
    (hoverlaps : p.settings.dedup.overlaps = true) (hinjective : S.InjOn p.settings.hash)
    (hdata : data ∈ S) (hle : p.store.count ≤ p.blocks.size) {b : BlockNum}
    (hb : (p.place data).1 = .ok b) : (p.place data).2.store.count ≤ (p.place data).2.blocks.size := by
  by_cases hmem : data ∈ stored
  · obtain ⟨b', hb'⟩ := hd.lookup h hintact hoverlaps hmem
    rw [place_count_of_hit hb']
    exact Nat.le_trans hle (p.place_extends data).size_le
  · have hlt := hd.length_lt hinjective hdata hmem
    have hsize := hd.size
    have hcontainers := ((place_outcome hp hb).account hp (by omega)).containers
    omega

/-- A string that is not a block yet becomes the last one when it is enrolled. -/
theorem enrol_distinct (hd : Distinct V S p stored) (hp : p.Consistent)
    (hvalid : IndexValid V.toKeepingView p) {x : ι} (hx : p.index = some x) {r : BlockRecord}
    (hlength : r.length = data.size) (hstored : p.store.holds r.location data = true)
    (hdata : data ∈ S) (hnew : data ∉ stored)
    (hsize : (p.enrol r (p.settings.hash data) true).2.blocks.size ≤ 2 ^ 32)
    (hintact : IndexIntact V.toKeepingView (p.enrol r (p.settings.hash data) true).2) :
    Distinct V S (p.enrol r (p.settings.hash data) true).2 (stored ++ [data]) := by
  have hunknown : ∀ b, p.record? b ≠ some r := fun b hb =>
    hnew (hd.mem_of_resolves ⟨r, hb, storesAs_iff.mpr ⟨hlength, hstored⟩⟩)
  obtain ⟨hnumber, hblocks⟩ := register_of_new hp hunknown
  have hrecord := register_record? hp r hsize
  rw [hd.size] at hnumber
  have hext := p.enrol_extends r (p.settings.hash data) true
  have hindex : (p.enrol r (p.settings.hash data) true).2.index =
      some (Catalog.addReal x (p.settings.hash data) (p.enrol r (p.settings.hash data) true).1) :=
    enrol_index hx
  refine ⟨?_, ?_, ?_, ?_, ?_⟩
  · show (p.register r).2.blocks.size = _
    rw [hblocks, Array.size_push, hd.size, List.length_append, List.length_singleton]
  · refine List.nodup_append.mpr ⟨hd.nodup, List.nodup_singleton data, ?_⟩
    rintro w hw w' hw' rfl
    exact hnew (List.mem_singleton.mp hw' ▸ hw)
  · intro w hw
    rcases List.mem_append.mp hw with hw | hw
    · exact hd.hashed w hw
    · exact List.mem_singleton.mp hw ▸ hdata
  · intro i w hi
    rcases getElem?_concat_eq_some hi with hi | ⟨rfl, rfl⟩
    · exact hext.resolves (hd.resolves i w hi)
    · rw [← hnumber]
      exact ⟨r, hrecord, storesAs_iff.mpr ⟨hlength, hext.store.holds hstored⟩⟩
  · intro i w hi
    rw [hext.settings]
    rcases getElem?_concat_eq_some hi with hi | ⟨rfl, rfl⟩
    · exact (hd.held i w hi).asked (enrol_asked _ _ _ _) hvalid hintact
    · rw [← hnumber]
      exact ⟨_, hindex, V.holds_addReal (hvalid x hx) (hintact _ hindex)⟩

/-! ## Calls -/

theorem useHit_distinct (hd : Distinct V S p stored) (hp : p.Consistent)
    (hvalid : IndexValid V.toKeepingView p) {x : ι} (hx : p.index = some x) {hit : Hit}
    (hhit : hit.Stores p data) (hdata : data ∈ S) (hnew : data ∉ stored)
    (hfit : (p.useHit (p.settings.hash data) hit data.size).2.Addressable)
    (hintact : IndexIntact V.toKeepingView (p.useHit (p.settings.hash data) hit data.size).2) :
    Distinct V S (p.useHit (p.settings.hash data) hit data.size).2 (stored ++ [data]) := by
  cases hit with
  | block b => exact absurd (hd.mem_of_resolves hhit) hnew
  | window l =>
    rw [useHit_eq] at hfit hintact ⊢
    have hpredict := predict_alike (p.takeHit (p.settings.hash data) (.window l) data.size).2 l data.size
    have hasked := predict_asked (p.takeHit (p.settings.hash data) (.window l) data.size).2 l data.size
    have hvalid' := hvalid.asked (takeHit_asked p (p.settings.hash data) (.window l) data.size)
    have htaken := hintact.of_asked hvalid' hasked
    refine Distinct.later ?_ hpredict.extends (congrArg Array.size hpredict.blocks) hasked hvalid' hintact
    have hfit := (hpredict.addressable_iff.mp hfit).blocks
    unfold takeHit at hfit htaken ⊢
    dsimp only at hfit htaken ⊢
    rw [promote_eq] at hfit htaken ⊢
    have hreleased : Asked p (p.releaseWindow (p.settings.hash data) l data.size) :=
      releaseWindow_via _ _ _
    have hrelease := p.releaseWindow_alike (p.settings.hash data) l data.size
    have hreleasedValid := hvalid.asked hreleased
    refine enrol_distinct ?_ (hrelease.consistent hp) hreleasedValid (congrArg (Option.map _) hx) rfl hhit
      hdata hnew hfit htaken
    exact hd.later hrelease.extends rfl hreleased hvalid
      (htaken.of_asked hreleasedValid (enrol_asked _ _ _ _))

theorem carryOut_distinct (hd : Distinct V S p stored) (hp : p.Consistent)
    (hvalid : IndexValid V.toKeepingView p) {x : ι} (hx : p.index = some x) {plan : WritePlan}
    (hready : plan.Ready p data) (hdata : data ∈ S) (hnew : data ∉ stored)
    (hfit : (p.carryOut plan (p.settings.hash data) data true).2.Addressable)
    (hintact : IndexIntact V.toKeepingView (p.carryOut plan (p.settings.hash data) data true).2) :
    ∃ stored', Distinct V S (p.carryOut plan (p.settings.hash data) data true).2 stored' := by
  rcases carryOut_stages hp hready (p.settings.hash data) true with
    ⟨e, q, hout, henlarged, -⟩ | ⟨id, base, newSize, overlapped, q, hlanded, hout, -⟩ <;>
    rw [hout] at hfit hintact ⊢
  · exact ⟨stored, hd.congr henlarged.grown (congrArg Array.size henlarged.blocks) henlarged.index⟩
  · dsimp only at hfit hintact ⊢
    have hvalid' := hvalid.asked (.of_eq hlanded.index)
    have henrol := enrol_asked q ⟨Location.ofNat id base, data.size⟩ (p.settings.hash data) true
    have hdue := enterDueWindows_alike
      (q.enrol ⟨Location.ofNat id base, data.size⟩ (p.settings.hash data) true).2 id newSize overlapped
    have hdueAsked := enterDueWindows_asked
      (q.enrol ⟨Location.ofNat id base, data.size⟩ (p.settings.hash data) true).2 id newSize overlapped
    have hfit := hdue.addressable_iff.mp hfit
    have hq : q.Addressable := (q.enrol_extends _ _ _).addressable hfit
    have henrolled := hintact.of_asked (hvalid'.asked henrol) hdueAsked
    have hwritten := hd.congr hlanded.grown (congrArg Array.size hlanded.blocks) hlanded.index
    refine ⟨stored ++ [data], Distinct.later ?_ hdue.extends (congrArg Array.size hdue.blocks) hdueAsked
      (hvalid'.asked henrol) hintact⟩
    rw [← hlanded.grown.settings] at hfit henrolled ⊢
    exact enrol_distinct hwritten hlanded.consistent hvalid' (hlanded.index.trans hx) rfl
      (hlanded.holds hq.containers) hdata hnew hfit.blocks henrolled

/-- After a call the blocks are different strings still. -/
theorem place_distinct (hd : Distinct V S p stored) (hp : p.Consistent) (h : Sound V.toLossyView p)
    (hoverlaps : p.settings.dedup.overlaps = true) {x : ι} (hx : p.index = some x) (hdata : data ∈ S)
    (hfit : (p.place data).2.Addressable) (hintact : IndexIntact V.toKeepingView (p.place data).2) :
    ∃ stored', Distinct V S (p.place data).2 stored' := by
  have hvalid : IndexValid V.toKeepingView p := h.valid
  by_cases hmem : data ∈ stored
  · obtain ⟨b, hb⟩ := hd.lookup h (hintact.of_asked hvalid (p.place_asked data)) hoverlaps hmem
    exact ⟨stored, hd.later (p.place_extends data)
      (congrArg Array.size ((place_blocks_size hp data).2 b hb)) (p.place_asked data) hvalid hintact⟩
  · have halike := p.lookup_alike data
    have hasked := p.lookup_asked data
    have hvalid' := hvalid.asked hasked
    have hlater := p.place_asked_lookup data
    have hlookup := hd.later halike.extends (congrArg Array.size halike.blocks) hasked hvalid
      (hintact.of_asked hvalid' hlater)
    obtain ⟨y, hy, -⟩ := hasked.after hx
    rcases p.place_cases data with ⟨e, q, hq, hout⟩ | ⟨hit, q, hq, hout⟩ | ⟨q, hq, hout⟩ <;>
      rw [hq] at halike hvalid' hlookup hy <;> rw [hout] at hfit hintact ⊢
    · exact ⟨stored, hlookup⟩
    · have hstores : hit.Stores p data := lookup_stores (by rw [hq])
      rw [← halike.settings] at hfit hintact ⊢
      exact ⟨_, useHit_distinct hlookup (halike.consistent hp) hvalid' hy (halike.stores hstores) hdata hmem
        hfit hintact⟩
    · have hq := halike.consistent hp
      rw [indexes_of_overlaps hoverlaps, ← halike.settings] at hfit hintact ⊢
      exact carryOut_distinct hlookup hq hvalid' hy (writePlan_ready hq.store data) hdata hmem hfit hintact

end DedupImage.Placement
