import DedupImage.Proofs.Placement.Ranks
import DedupImage.Proofs.Placement.Success

/-!
# Equal blocks have equal numbers

As long as the catalog loses no block, the number of a block is the rank of its key: blocks that the mode
looks up are numbered by their bytes in order of first occurrence, and any other block gets a number of
its own.

The invariant is `Numbered`. The blocks of the table correspond to the distinct keys seen so far, in
order; each consists of the bytes of its key, and each that can be looked up is in the catalog. So a
block that was seen is found, however it is found, and under the one number it can have. A block that was
not seen gets a record that no other block has: if its bytes are looked up, no block has these bytes at
all, and if they are not, the mode does not overlap, and the block starts where its container ended.
-/

namespace DedupImage.Placement

variable {ι : Type} [Catalog ι] {V : KeepingView ι} {p q : Placement ι}

/-! ## Intact catalogs -/

/-- The catalog, if there is one, has lost nothing. -/
def IndexIntact (V : KeepingView ι) (p : Placement ι) : Prop := ∀ x, p.index = some x → V.Intact x

/-- The catalog, if there is one, is in order. -/
def IndexValid (V : KeepingView ι) (p : Placement ι) : Prop := ∀ x, p.index = some x → V.Valid x

/-- The later catalog comes from the earlier one by requests. -/
abbrev Asked (p q : Placement ι) : Prop := Via (fun _ => True) p q

theorem enrol_asked (p : Placement ι) (r : BlockRecord) (hash : UInt32) (indexed : Bool) :
    Asked p (p.enrol r hash indexed).2 :=
  enrol_via fun _ => trivial

theorem lookup_asked (p : Placement ι) (data : ByteArray) : Asked p (p.lookup data).2 := lookup_via data

theorem takeHit_asked (p : Placement ι) (hash : UInt32) (hit : Hit) (length : Nat) :
    Asked p (p.takeHit hash hit length).2 := by
  cases hit with
  | block b => exact .of_eq rfl
  | window l =>
    unfold takeHit
    dsimp only
    rw [promote_eq]
    exact (releaseWindow_via _ _ _).trans (enrol_asked _ _ _ _)

theorem predict_asked (p : Placement ι) (l : Location) (length : Nat) : Asked p (p.predict l length) :=
  predict_via fun _ => trivial

theorem useHit_asked (p : Placement ι) (hash : UInt32) (hit : Hit) (length : Nat) :
    Asked p (p.useHit hash hit length).2 := by
  rw [useHit_eq]
  exact (takeHit_asked p hash hit length).trans (predict_asked _ _ _)

theorem enterDueWindows_asked (p : Placement ι) (container size : Nat) (overlapped : Bool) :
    Asked p (p.enterDueWindows container size overlapped) :=
  enterDueWindows_via fun _ _ _ _ => trivial

theorem carryOut_asked (p : Placement ι) (plan : WritePlan) (hash : UInt32) (data : ByteArray)
    (indexed : Bool) : Asked p (p.carryOut plan hash data indexed).2 := by
  rcases p.carryOut_cases plan hash data indexed with
    ⟨e, _, h⟩ | ⟨id, q, e, hc, _, h⟩ | ⟨id, q, newSize, store, hc, _, h⟩ <;> rw [h]
  · exact .of_eq rfl
  · exact .of_eq (containerFor_index hc)
  · have hwritten : Asked p (q.written store plan.fit data.size) := by
      refine .of_eq ?_
      show q.index = p.index
      exact containerFor_index hc
    exact (hwritten.trans (enrol_asked _ _ _ _)).trans (enterDueWindows_asked _ _ _ _)

theorem place_asked_lookup (p : Placement ι) (data : ByteArray) :
    Asked (p.lookup data).2 (p.place data).2 := by
  rcases p.place_cases data with ⟨e, q, hq, h⟩ | ⟨hit, q, hq, h⟩ | ⟨q, hq, h⟩ <;> rw [hq, h]
  · exact .of_eq rfl
  · exact useHit_asked q _ hit _
  · exact carryOut_asked q _ _ _ _

theorem place_asked (p : Placement ι) (data : ByteArray) : Asked p (p.place data).2 :=
  (p.lookup_asked data).trans (p.place_asked_lookup data)

theorem placeRepeat_asked (p : Placement ι) (data : ByteArray) (earlier : BlockNum) :
    Asked p (p.placeRepeat data earlier).2 := by
  rcases p.placeRepeat_cases data earlier with ⟨r, _, _, h⟩ | h <;> rw [h]
  · exact .of_eq rfl
  · exact p.place_asked data

theorem step_asked (p : Placement ι) {e : Event ι} (he : ∀ index, e ≠ .tamper index) :
    Asked p (p.step e).2 := by
  cases e with
  | place data => exact p.place_asked data
  | placeRepeat data earlier => exact p.placeRepeat_asked data earlier
  | addBlockSize size => exact .of_eq rfl
  | tamper index => exact absurd rfl (he index)
  | obstructed data earlier =>
    rcases p.step_obstructed data earlier with ⟨-, h⟩ | ⟨b, -, h⟩ | h <;> rw [h]
    · exact p.place_asked data
    · exact p.placeRepeat_asked data b
    · exact p.lookup_asked data

theorem run_asked (p : Placement ι) {events : List (Event ι)}
    (hevents : ∀ e ∈ events, ∀ index, e ≠ .tamper index) : Asked p (p.run events).2 := by
  induction events generalizing p with
  | nil => exact .of_eq rfl
  | cons e rest ih =>
    exact (p.step_asked (hevents e List.mem_cons_self)).trans
      (ih (p.step e).2 fun e' he' => hevents e' (List.mem_cons_of_mem e he'))

theorem IndexIntact.of_asked (hq : IndexIntact V q) (hp : IndexValid V p) (h : Asked p q) :
    IndexIntact V p := by
  intro x hx
  cases hy : q.index with
  | none =>
    unfold Asked Via at h
    rw [hx, hy] at h
    cases h
  | some y =>
    obtain ⟨x', hx', hreached⟩ := h.reached hy
    obtain rfl := Option.some.inj (hx.symm.trans hx')
    exact V.intact_of_reached (hp x hx) hreached (hq y hy)

theorem IndexValid.asked (hp : IndexValid V p) (h : Asked p q) : IndexValid V q := by
  intro y hy
  obtain ⟨x, hx, hreached⟩ := h.reached hy
  exact V.valid_reached (hp x hx) hreached

/-! ## The invariant -/

/-- The blocks of the table are the keys seen, in order, after so many calls. -/
structure Numbered (V : KeepingView ι) (p : Placement ι) (seen : List (ByteArray × Option Nat))
    (calls : Nat) : Prop where
  size : p.blocks.size = seen.length
  nodup : seen.Nodup
  keys : ∀ k ∈ seen, 0 < k.1.size ∧ ∃ call < calls, k = blockKey p.settings.dedup call k.1
  resolves : ∀ (i : Nat) k, seen[i]? = some k → p.Resolves ⟨i.toUInt32⟩ k.1
  held : ∀ (i : Nat) k, seen[i]? = some k → p.settings.dedup.indexes k.1 = true →
    ∀ x, p.index = some x → V.Holds x (.block (p.settings.hash k.1) ⟨i.toUInt32⟩)

namespace Numbered

variable {seen : List (ByteArray × Option Nat)} {calls calls' : Nat} {data : ByteArray}

/-- Steps that add no block and lose nothing keep the invariant. -/
theorem later (h : Numbered V p seen calls) (hext : p.Extends q) (hsize : q.blocks.size = p.blocks.size)
    (hasked : Asked p q) (hvalid : IndexValid V p) (hintact : IndexIntact V q) (hcalls : calls ≤ calls') :
    Numbered V q seen calls' where
  size := hsize.trans h.size
  nodup := h.nodup
  keys k hk := by
    obtain ⟨hpos, call, hcall, heq⟩ := h.keys k hk
    refine ⟨hpos, call, Nat.lt_of_lt_of_le hcall hcalls, ?_⟩
    rw [hext.settings]
    exact heq
  resolves i k hk := hext.resolves (h.resolves i k hk)
  held i k hk hi y hy := by
    rw [hext.settings] at hi ⊢
    obtain ⟨x, hx, hreached⟩ := hasked.reached hy
    exact V.keeps_reached (hvalid x hx) hreached (hintact y hy) (h.held i k hk hi x hx)

/-- Look-ups and entered windows keep the invariant. -/
theorem alike (h : Numbered V p seen calls) (halike : Alike p q) (hasked : Asked p q)
    (hvalid : IndexValid V p) (hintact : IndexIntact V q) : Numbered V q seen calls :=
  h.later halike.extends (congrArg Array.size halike.blocks) hasked hvalid hintact (Nat.le_refl calls)

/-- The record of a block describes the bytes of its key. -/
theorem storesAs_of_record? (h : Numbered V p seen calls) {b : BlockNum} {r : BlockRecord}
    (hr : p.record? b = some r) :
    ∃ k, seen[b.number.toNat]? = some k ∧ p.storesAs r k.1 = true := by
  have hlt : b.number.toNat < seen.length := by
    rw [← h.size]
    exact (Array.getElem?_eq_some_iff.mp hr).1
  have hk := List.getElem?_eq_getElem hlt
  obtain ⟨r', hr', hs⟩ := h.resolves _ _ hk
  rw [Nat.toUInt32_eq, UInt32.ofNat_toNat] at hr'
  obtain rfl := Option.some.inj (hr.symm.trans hr')
  exact ⟨_, hk, hs⟩

/-- A number that resolves is that of a key with these bytes. -/
theorem key_of_resolves (h : Numbered V p seen calls) {b : BlockNum} (hb : p.Resolves b data) :
    ∃ k, seen[b.number.toNat]? = some k ∧ k.1 = data := by
  obtain ⟨r, hr, hs⟩ := hb
  obtain ⟨k, hk, hs'⟩ := h.storesAs_of_record? hr
  exact ⟨k, hk, Resolves.unique ⟨r, hr, hs'⟩ ⟨r, hr, hs⟩⟩

/-- If a block is looked up, a number that resolves to it is the rank of its key. -/
theorem rank_of_resolves (h : Numbered V p seen calls) (hi : p.settings.dedup.indexes data = true)
    {b : BlockNum} (hb : p.Resolves b data) (call : Nat) :
    blockKey p.settings.dedup call data ∈ seen ∧
      b = numberIn seen (blockKey p.settings.dedup call data) := by
  obtain ⟨k, hk, rfl⟩ := h.key_of_resolves hb
  have hmem := List.mem_of_getElem? hk
  obtain ⟨-, c, -, heq⟩ := h.keys k hmem
  have hkey : blockKey p.settings.dedup call k.1 = k := by
    rw [heq]
    exact blockKey_eq_iff.mpr ⟨rfl, .inl hi⟩
  rw [hkey, numberIn, rankIn_of_getElem? h.nodup hk, Nat.toUInt32_eq, UInt32.ofNat_toNat]
  exact ⟨hmem, rfl⟩

/-- Only blocks that are looked up can have been seen. -/
theorem indexes_of_mem (h : Numbered V p seen calls)
    (hk : blockKey p.settings.dedup calls data ∈ seen) : p.settings.dedup.indexes data = true := by
  obtain ⟨-, call, hcall, heq⟩ := h.keys _ hk
  rcases (blockKey_eq_iff.mp heq).2 with hi | hi
  · exact hi
  · omega

end Numbered

/-! ## Look-ups -/

omit [Catalog ι] in
/-- If no block matches, none of those that were tried consists of the bytes. -/
theorem firstBlock_eq_none {data : ByteArray} {known : List BlockNum}
    (h : p.firstBlock data known = .ok none) {b : BlockNum} (hb : b ∈ known) : ¬ p.Resolves b data := by
  rintro ⟨r, hr, hs⟩
  induction known with
  | nil => cases hb
  | cons c rest ih =>
    unfold firstBlock at h
    split at h
    · cases h
    · split at h
      · cases h
      · rename_i hc hcs
        rcases List.mem_cons.mp hb with rfl | hb
        · obtain rfl := Option.some.inj (hc.symm.trans hr)
          exact hcs hs
        · exact ih h hb

variable {seen : List (ByteArray × Option Nat)} {calls : Nat} {data : ByteArray}

/-- A block that the catalog holds is found as a block. -/
theorem findHit_of_held (h : Sound V.toLossyView p) {x : ι} (hx : p.index = some x) {hash : UInt32}
    {b : BlockNum} (hheld : V.Holds x (.block hash b)) (hb : p.Resolves b data)
    (hintact : IndexIntact V (p.findHit hash data).2) :
    ∃ b', (p.findHit hash data).1 = .ok (some (.block b')) := by
  obtain ⟨found, hfound⟩ := firstBlock_findReal_ok h hx hash data
  unfold findHit at hintact ⊢
  rw [hx] at hintact ⊢
  dsimp only at hintact ⊢
  rw [hfound] at hintact ⊢
  cases found with
  | some b' => exact ⟨b', rfl⟩
  | none =>
    -- the catalog was intact when it was asked, so it named the block
    have hvalid : IndexValid V { p with index := some (Catalog.findReal x hash).2 } := by
      rintro y hy
      obtain rfl := Option.some.inj hy
      exact V.valid_apply (h.valid x hx) (.findReal hash)
    have hintact : IndexIntact V { p with index := some (Catalog.findReal x hash).2 } :=
      hintact.of_asked hvalid (findWindowHit_via rfl)
    have hmem := V.mem_findReal (h.valid x hx) (hintact _ rfl) hheld
    exact absurd hb (firstBlock_eq_none hfound hmem)

/-- A block that was seen is found as a block. -/
theorem lookup_of_mem (h : Healthy V.toLossyView p) (hn : Numbered V p seen calls)
    (hindex : ∃ x, p.index = some x) (hintact : IndexIntact V (p.lookup data).2)
    (hk : blockKey p.settings.dedup calls data ∈ seen) :
    ∃ b, (p.lookup data).1 = .ok (some (.block b)) := by
  obtain ⟨x, hx⟩ := hindex
  have hi := hn.indexes_of_mem hk
  obtain ⟨i, hi'⟩ := List.getElem?_of_mem hk
  have hcounted := Alike.counted p { p.stats with placed := p.stats.placed + 1 }
  have hsound : Sound V.toLossyView { p with stats := { p.stats with placed := p.stats.placed + 1 } } :=
    h.sound.via hcounted.extends (.of_eq rfl)
  unfold lookup at hintact ⊢
  rw [if_pos hi] at hintact ⊢
  exact findHit_of_held hsound hx (hn.held i _ hi' hi x hx)
    (hcounted.resolves_iff.mpr (hn.resolves i _ hi')) hintact

/-- Only blocks that are looked up are found. -/
theorem indexes_of_lookup {hit : Hit} (h : (p.lookup data).1 = .ok (some hit)) :
    p.settings.dedup.indexes data = true := by
  unfold lookup at h
  dsimp only at h
  split at h
  · assumption
  · cases h

/-! ## New blocks -/

omit [Catalog ι] in
/-- A record that no block has joins the block table. -/
theorem register_of_new (hp : p.Consistent) {r : BlockRecord} (hnew : ∀ b, p.record? b ≠ some r) :
    (p.register r).1 = ⟨p.blocks.size.toUInt32⟩ ∧ (p.register r).2.blocks = p.blocks.push r := by
  rcases p.register_cases r with ⟨b, hb, -⟩ | ⟨-, h⟩
  · obtain ⟨r', hr', hcode⟩ := hp.numbers _ _ hb
    rw [BlockRecord.code_injective hcode] at hr'
    exact absurd hr' (hnew b)
  · rw [h]
    exact ⟨rfl, rfl⟩

/-- The catalog after a block was enrolled. -/
theorem enrol_index {r : BlockRecord} {hash : UInt32} {indexed : Bool} {x : ι}
    (hx : p.index = some x) :
    (p.enrol r hash indexed).2.index =
      some (if indexed then Catalog.addReal x hash (p.enrol r hash indexed).1 else x) := by
  show (if indexed then (p.register r).2.index.map _ else (p.register r).2.index) = _
  rw [register_index, hx]
  cases indexed with
  | true => rfl
  | false => rfl

/-- A block that is enrolled under a new record gets the next number, which is the rank of its key. -/
theorem enrol_numbered (hn : Numbered V p seen calls) (hp : p.Consistent) (hvalid : IndexValid V p)
    {r : BlockRecord} (hlength : r.length = data.size) (hstored : p.store.holds r.location data = true)
    (hnew : ∀ b, p.record? b ≠ some r) (hdata : 0 < data.size)
    (hk : blockKey p.settings.dedup calls data ∉ seen)
    (hsize : (p.enrol r (p.settings.hash data) (p.settings.dedup.indexes data)).2.blocks.size ≤ 2 ^ 32)
    (hintact : IndexIntact V
      (p.enrol r (p.settings.hash data) (p.settings.dedup.indexes data)).2) :
    (p.enrol r (p.settings.hash data) (p.settings.dedup.indexes data)).1 = ⟨seen.length.toUInt32⟩ ∧
      Numbered V (p.enrol r (p.settings.hash data) (p.settings.dedup.indexes data)).2
        (seen ++ [blockKey p.settings.dedup calls data]) (calls + 1) := by
  obtain ⟨hnumber, hblocks⟩ := register_of_new hp hnew
  have hrecord := register_record? hp r hsize
  rw [hn.size] at hnumber
  have hext := p.enrol_extends r (p.settings.hash data) (p.settings.dedup.indexes data)
  have hasked := p.enrol_asked r (p.settings.hash data) (p.settings.dedup.indexes data)
  refine ⟨hnumber, ?_, ?_, ?_, ?_, ?_⟩
  · show (p.register r).2.blocks.size = _
    rw [hblocks, Array.size_push, hn.size, List.length_append, List.length_singleton]
  · rw [← meet_of_not_mem hk]
    exact nodup_meet hn.nodup _
  · intro k hmem
    rw [hext.settings]
    rcases List.mem_append.mp hmem with hmem | hmem
    · obtain ⟨hpos, call, hcall, heq⟩ := hn.keys k hmem
      exact ⟨hpos, call, by omega, heq⟩
    · obtain rfl := List.mem_singleton.mp hmem
      exact ⟨hdata, calls, Nat.lt_succ_self calls, rfl⟩
  · intro i k hi
    rcases getElem?_concat_eq_some hi with hi | ⟨rfl, rfl⟩
    · exact hext.resolves (hn.resolves i k hi)
    · rw [← hnumber]
      exact ⟨r, hrecord, storesAs_iff.mpr ⟨hlength, hext.store.holds hstored⟩⟩
  · intro i k hi hindexes y hy
    rw [hext.settings] at hindexes ⊢
    rcases getElem?_concat_eq_some hi with hi | ⟨rfl, rfl⟩
    · obtain ⟨x, hx, hreached⟩ := hasked.reached hy
      exact V.keeps_reached (hvalid x hx) hreached (hintact y hy) (hn.held i k hi hindexes x hx)
    · obtain ⟨x, hx, -⟩ := hasked.reached hy
      have hindexes : p.settings.dedup.indexes data = true := hindexes
      have hadded := hy
      rw [enrol_index hx, hindexes, if_pos rfl] at hadded
      obtain rfl := Option.some.inj hadded
      rw [← hnumber]
      exact V.holds_addReal (hvalid x hx) (hintact _ hy)

/-! ## Writes without overlaps -/

omit [Catalog ι] in
/-- Blocks that are not looked up are not overlapped either. -/
theorem overlaps_of_not_indexes {mode : Dedup} (h : ¬ mode.indexes data = true) :
    mode.overlaps = false := by
  cases mode with
  | off => rfl
  | blanks => rfl
  | all => exact absurd rfl h
  | prepass => exact absurd rfl h

omit [Catalog ι] in
/-- A mode that does not overlap starts every block at the end of its container. -/
theorem containerFor_append (hoverlaps : p.settings.dedup.overlaps = false) {id : Nat}
    (h : p.containerFor (p.writePlan data) = .ok (id, q)) :
    q.store.size id = (p.writePlan data).fit.base := by
  obtain ⟨hwhich, hdatas, -⟩ := containerFor_eq_ok h
  have hsize : q.store.size id = p.store.size id := by
    unfold ContainerStore.size
    rw [hdatas]
  rw [hsize]
  unfold writePlan at hwhich ⊢
  dsimp only at hwhich ⊢
  rw [hoverlaps, if_neg Bool.false_ne_true] at hwhich ⊢
  cases hbest : p.bestOf data.size ((p.candidates data.size).map fun id =>
      (id, p.fitInto none data.size (p.store.data id))) with
  | some best =>
    obtain ⟨k, fit⟩ := best
    obtain ⟨hmem, -⟩ := bestOf_eq_some hbest
    obtain ⟨k', -, heq⟩ := List.mem_map.mp hmem
    obtain ⟨rfl, hfit⟩ := Prod.mk.inj heq
    obtain rfl := Option.some.inj hfit
    rw [hbest] at hwhich
    obtain rfl : k' = id := by
      rcases hwhich with hwhich | ⟨hwhich, -⟩
      · exact Option.some.inj hwhich
      · cases hwhich
    rfl
  | none =>
    rw [hbest] at hwhich
    rcases hwhich with hwhich | ⟨-, rfl⟩
    · cases hwhich
    · unfold ContainerStore.size
      rw [ContainerStore.data_of_le (Nat.le_refl _)]
      rfl

/-- The record of a block that was written is not in the table: either no block has its bytes, or its
place lies behind all that was stored. -/
theorem written_record_new {store : ContainerStore} {id : Nat} {fit : Fit}
    (hn : Numbered V p seen calls) (hw : Numbered V (p.written store fit data.size) seen calls)
    (hstored : store.holds (Location.ofNat id fit.base) data = true) (hid : id < 2 ^ 32)
    (hbase : fit.base < 2 ^ 32) (hdata : 0 < data.size)
    (hk : blockKey p.settings.dedup calls data ∉ seen)
    (happend : ¬ p.settings.dedup.indexes data = true → p.store.size id = fit.base) (b : BlockNum) :
    (p.written store fit data.size).record? b ≠ some ⟨Location.ofNat id fit.base, data.size⟩ := by
  intro hb
  by_cases hi : p.settings.dedup.indexes data = true
  · exact hk (hw.rank_of_resolves hi ⟨_, hb, storesAs_iff.mpr ⟨rfl, hstored⟩⟩ calls).1
  · obtain ⟨k, -, hs⟩ := hn.storesAs_of_record? hb
    obtain ⟨hlength, hholds⟩ := storesAs_iff.mp hs
    have hend := ContainerStore.end_le_of_holds hholds
    have hlength : data.size = k.1.size := hlength
    dsimp only at hend
    rw [Location.container_ofNat hid, Location.offset_ofNat hbase, happend hi] at hend
    omega

/-! ## Placing -/

/-- A hit gives the rank of the block's key. A window is used only for a block that was not seen. -/
theorem takeHit_numbered (hn : Numbered V p seen calls) (hp : p.Consistent) (hvalid : IndexValid V p)
    {hit : Hit} (hhit : hit.Stores p data) (hdata : 0 < data.size)
    (hi : p.settings.dedup.indexes data = true)
    (hwindow : ∀ l, hit = .window l → blockKey p.settings.dedup calls data ∉ seen)
    (hfit : (p.takeHit (p.settings.hash data) hit data.size).2.Addressable)
    (hintact : IndexIntact V (p.takeHit (p.settings.hash data) hit data.size).2) :
    (p.takeHit (p.settings.hash data) hit data.size).1 =
        numberIn (meet seen (blockKey p.settings.dedup calls data))
          (blockKey p.settings.dedup calls data) ∧
      Numbered V (p.takeHit (p.settings.hash data) hit data.size).2
        (meet seen (blockKey p.settings.dedup calls data)) (calls + 1) := by
  cases hit with
  | block b =>
    obtain ⟨hk, hb⟩ := hn.rank_of_resolves hi hhit calls
    rw [meet_of_mem hk]
    exact ⟨hb, hn.later (Alike.counted p _).extends rfl (.of_eq rfl) hvalid hintact (Nat.le_succ _)⟩
  | window l =>
    have hk := hwindow l rfl
    have hrelease := p.releaseWindow_alike (p.settings.hash data) l data.size
    have hreleased : Asked p (p.releaseWindow (p.settings.hash data) l data.size) :=
      releaseWindow_via _ _ _
    have hvalid' := hvalid.asked hreleased
    unfold takeHit at hfit hintact ⊢
    dsimp only at hfit hintact ⊢
    rw [promote_eq, ← hi] at hfit hintact ⊢
    have henrolled := (p.releaseWindow (p.settings.hash data) l data.size).enrol_asked
      ⟨l, data.size⟩ (p.settings.hash data) (p.settings.dedup.indexes data)
    have hn' := hn.later hrelease.extends rfl hreleased hvalid
      (hintact.of_asked hvalid' henrolled) (Nat.le_refl calls)
    have hnew : ∀ b, p.record? b ≠ some ⟨l, data.size⟩ := fun b hb =>
      hk (hn.rank_of_resolves hi ⟨_, hb, storesAs_iff.mpr ⟨rfl, hhit⟩⟩ calls).1
    rw [numberIn_meet_of_not_mem hk, meet_of_not_mem hk]
    exact enrol_numbered hn' (hrelease.consistent hp) hvalid' rfl hhit hnew hdata hk hfit.blocks hintact

/-- A block that was not seen gets the next rank when it is written and enrolled. -/
theorem enrolWritten_numbered (hn : Numbered V p seen calls) (hp : p.Consistent)
    (hvalid : IndexValid V p) {store : ContainerStore} {id newSize : Nat} {fit : Fit}
    (hid : id < p.store.count) (hlays : fit.Lays (p.store.data id) data)
    (happ : p.store.Appended store id fit.base newSize data)
    (happend : ¬ p.settings.dedup.indexes data = true → p.store.size id = fit.base)
    (hdata : 0 < data.size) (hk : blockKey p.settings.dedup calls data ∉ seen)
    (hfit : (p.enrolWritten store id fit (p.settings.hash data) data.size
      (p.settings.dedup.indexes data)).2.Addressable)
    (hintact : IndexIntact V (p.enrolWritten store id fit (p.settings.hash data) data.size
      (p.settings.dedup.indexes data)).2) :
    (p.enrolWritten store id fit (p.settings.hash data) data.size (p.settings.dedup.indexes data)).1 =
        ⟨seen.length.toUInt32⟩ ∧
      Numbered V (p.enrolWritten store id fit (p.settings.hash data) data.size
        (p.settings.dedup.indexes data)).2 (seen ++ [blockKey p.settings.dedup calls data])
        (calls + 1) := by
  have henrol := enrol_asked (p.written store fit data.size) ⟨Location.ofNat id fit.base, data.size⟩
    (p.settings.hash data) (p.settings.dedup.indexes data)
  have hwritten : IndexIntact V (p.written store fit data.size) := hintact.of_asked hvalid henrol
  have hnw := hn.later (written_extends happ.grows fit data.size) rfl (.of_eq rfl) hvalid hwritten
    (Nat.le_refl calls)
  -- the record is new
  have henrolled := enrolWritten_enrolled hp hid hlays happ hfit
  have hstored : store.holds (Location.ofNat id fit.base) data = true := by
    have hstore : (p.enrolWritten store id fit (p.settings.hash data) data.size
        (p.settings.dedup.indexes data)).2.store = store := enrol_store _ _ _ _
    rw [← hstore]
    exact henrolled.stored
  have hword : id < 2 ^ 32 := Nat.lt_of_lt_of_le henrolled.container_lt hfit.containers
  have hbase : fit.base < 2 ^ 32 := by
    have := happ.base_le
    have := hp.store.size_le id
    have := hp.capacity_lt
    omega
  have hnew := written_record_new hn hnw hstored hword hbase hdata hk happend
  exact enrol_numbered hnw (written_consistent hp hid happ) hvalid rfl hstored hnew hdata hk hfit.blocks
    hintact

/-- A block that was not seen is written under a new record. -/
theorem carryOut_numbered (h : Healthy V.toLossyView p) (hn : Numbered V p seen calls)
    (hdata : 0 < data.size) (hle : data.size ≤ p.store.capacity)
    (hk : blockKey p.settings.dedup calls data ∉ seen)
    (hfit : (p.carryOut (p.writePlan data) (p.settings.hash data) data
      (p.settings.dedup.indexes data)).2.Addressable)
    (hintact : IndexIntact V (p.carryOut (p.writePlan data) (p.settings.hash data) data
      (p.settings.dedup.indexes data)).2) :
    (p.carryOut (p.writePlan data) (p.settings.hash data) data (p.settings.dedup.indexes data)).1 =
        .ok ⟨seen.length.toUInt32⟩ ∧
      Numbered V (p.carryOut (p.writePlan data) (p.settings.hash data) data
        (p.settings.dedup.indexes data)).2 (seen ++ [blockKey p.settings.dedup calls data])
        (calls + 1) := by
  have hready := writePlan_ready h.consistent.store data
  obtain ⟨id, q, newSize, store, hc, ha, hout⟩ := carryOut_ok h.consistent h.staging hready hle
    (p.settings.hash data) (p.settings.dedup.indexes data)
  rw [hout] at hfit hintact ⊢
  obtain ⟨hid, hlays, hq⟩ := containerFor_lays h.consistent hready hc
  have hsame : q.index = p.index := containerFor_index hc
  have hsettings : q.settings = p.settings := (containerFor_extends hc).settings
  have hblocks : q.blocks.size = p.blocks.size := congrArg Array.size (containerFor_eq_ok hc).2.2
  rw [← hsettings] at hk hfit hintact ⊢
  have hvalid : IndexValid V q := IndexValid.asked h.sound.valid (.of_eq hsame)
  -- the catalog was intact all the way
  have henrol : Asked q (q.enrolWritten store id (p.writePlan data).fit (q.settings.hash data) data.size
      (q.settings.dedup.indexes data)).2 :=
    enrol_asked (q.written store (p.writePlan data).fit data.size) _ _ _
  have hdueAlike := enterDueWindows_alike
    (q.enrolWritten store id (p.writePlan data).fit (q.settings.hash data) data.size
      (q.settings.dedup.indexes data)).2 id newSize (decide (0 < (p.writePlan data).fit.shared data.size))
  have hdue := enterDueWindows_asked
    (q.enrolWritten store id (p.writePlan data).fit (q.settings.hash data) data.size
      (q.settings.dedup.indexes data)).2 id newSize (decide (0 < (p.writePlan data).fit.shared data.size))
  have hvalid' := hvalid.asked henrol
  have hintactEnrolled := hintact.of_asked hvalid' hdue
  have hnq := hn.later (containerFor_extends hc) hblocks (.of_eq hsame) h.sound.valid
    (hintactEnrolled.of_asked hvalid henrol) (Nat.le_refl calls)
  have happend : ¬ q.settings.dedup.indexes data = true →
      q.store.size id = (p.writePlan data).fit.base := by
    intro hi
    apply containerFor_append _ hc
    rw [← hsettings]
    exact overlaps_of_not_indexes hi
  obtain ⟨hnumber, hnumbered⟩ := enrolWritten_numbered hnq hq hvalid hid hlays
    (ContainerStore.append_ok ha) happend hdata hk (hdueAlike.addressable_iff.mp hfit) hintactEnrolled
  exact ⟨congrArg Except.ok hnumber, hnumbered.alike hdueAlike hdue hvalid' hintact⟩

omit [Catalog ι] in
/-- A mode that looks a block up has a catalog. -/
theorem usesIndex_of_indexes {mode : Dedup} (h : mode.indexes data = true) : mode.usesIndex = true := by
  cases mode with
  | off => cases h
  | blanks => rfl
  | all => rfl
  | prepass => rfl

theorem useHit_numbered (hn : Numbered V p seen calls) (hp : p.Consistent) (hvalid : IndexValid V p)
    {hit : Hit} (hhit : hit.Stores p data) (hdata : 0 < data.size)
    (hi : p.settings.dedup.indexes data = true)
    (hwindow : ∀ l, hit = .window l → blockKey p.settings.dedup calls data ∉ seen)
    (hfit : (p.useHit (p.settings.hash data) hit data.size).2.Addressable)
    (hintact : IndexIntact V (p.useHit (p.settings.hash data) hit data.size).2) :
    (p.useHit (p.settings.hash data) hit data.size).1 =
        numberIn (meet seen (blockKey p.settings.dedup calls data))
          (blockKey p.settings.dedup calls data) ∧
      Numbered V (p.useHit (p.settings.hash data) hit data.size).2
        (meet seen (blockKey p.settings.dedup calls data)) (calls + 1) := by
  rw [useHit_eq] at hfit hintact ⊢
  have hpredict := predict_alike (p.takeHit (p.settings.hash data) hit data.size).2
    (p.hitLocation hit) data.size
  have hasked := predict_asked (p.takeHit (p.settings.hash data) hit data.size).2
    (p.hitLocation hit) data.size
  have htaken : Asked p (p.takeHit (p.settings.hash data) hit data.size).2 := takeHit_asked p _ _ _
  have hvalid' := hvalid.asked htaken
  obtain ⟨hnumber, hnumbered⟩ := takeHit_numbered hn hp hvalid hhit hdata hi hwindow
    (hpredict.addressable_iff.mp hfit) (hintact.of_asked hvalid' hasked)
  exact ⟨hnumber, hnumbered.alike hpredict hasked hvalid' hintact⟩

/-- **One call.** A block that fits into a container gets the rank of its key as its number. -/
theorem place_numbered (h : Healthy V.toLossyView p) (hn : Numbered V p seen calls)
    (hindex : p.settings.dedup.usesIndex = true → ∃ x, p.index = some x) (hdata : 0 < data.size)
    (hle : data.size ≤ p.store.capacity) (hfit : (p.place data).2.Addressable)
    (hintact : IndexIntact V (p.place data).2) :
    (p.place data).1 =
        .ok (numberIn (meet seen (blockKey p.settings.dedup calls data))
          (blockKey p.settings.dedup calls data)) ∧
      Numbered V (p.place data).2 (meet seen (blockKey p.settings.dedup calls data)) (calls + 1) := by
  have halike := p.lookup_alike data
  have hasked := p.lookup_asked data
  have hvalid : IndexValid V (p.lookup data).2 := IndexValid.asked h.sound.valid hasked
  have hsound : Sound V.toLossyView (p.lookup data).2 :=
    h.sound.via halike.extends (lookup_via data)
  have hfound (hq : IndexIntact V (p.lookup data).2)
      (hk : blockKey p.settings.dedup calls data ∈ seen) :
      ∃ b, (p.lookup data).1 = .ok (some (.block b)) :=
    lookup_of_mem h hn (hindex (usesIndex_of_indexes (hn.indexes_of_mem hk))) hq hk
  rcases p.place_cases data with ⟨e, q, hq, heq⟩ | ⟨hit, q, hq, heq⟩ | ⟨q, hq, heq⟩
  · obtain ⟨found, hfound⟩ := lookup_ok h.sound data
    rw [hq] at hfound
    cases hfound
  · have hi : p.settings.dedup.indexes data = true := indexes_of_lookup (by rw [hq])
    have hstores : hit.Stores p data := lookup_stores (by rw [hq])
    rw [hq] at halike hasked hvalid hfound
    rw [← halike.settings] at heq hi hfound ⊢
    rw [heq] at hfit hintact ⊢
    have hintact' : IndexIntact V q := hintact.of_asked hvalid (useHit_asked q _ hit _)
    have hn' : Numbered V q seen calls := hn.alike halike hasked h.sound.valid hintact'
    have hwindow : ∀ l, hit = .window l → blockKey q.settings.dedup calls data ∉ seen := by
      rintro l rfl hk
      obtain ⟨b, hb⟩ := hfound hintact' hk
      cases hb
    obtain ⟨hnumber, hnumbered⟩ := useHit_numbered hn' (halike.consistent h.consistent) hvalid
      (halike.stores hstores) hdata hi hwindow hfit hintact
    exact ⟨congrArg Except.ok hnumber, hnumbered⟩
  · have hready : Healthy V.toLossyView q := by
      rw [hq] at halike hsound
      exact ⟨halike.consistent h.consistent, hsound, halike.store ▸ h.staging⟩
    rw [hq] at halike hasked hvalid hfound
    rw [← halike.settings] at heq hfound ⊢
    rw [heq] at hfit hintact ⊢
    have hintact' : IndexIntact V q := hintact.of_asked hvalid (carryOut_asked q _ _ _ _)
    have hn' : Numbered V q seen calls := hn.alike halike hasked h.sound.valid hintact'
    have hk : blockKey q.settings.dedup calls data ∉ seen := by
      intro hk
      obtain ⟨b, hb⟩ := hfound hintact' hk
      cases hb
    rw [numberIn_meet_of_not_mem hk, meet_of_not_mem hk]
    exact carryOut_numbered hready hn' hdata (halike.store ▸ hle) hk hfit hintact

/-- There are never more containers than blocks: only a block that was not seen makes one. -/
theorem place_containers (h : Healthy V.toLossyView p) (hn : Numbered V p seen calls)
    (hindex : p.settings.dedup.usesIndex = true → ∃ x, p.index = some x)
    (hcount : p.store.count ≤ seen.length) (hintact : IndexIntact V (p.place data).2) :
    (p.place data).2.store.count ≤ (meet seen (blockKey p.settings.dedup calls data)).length := by
  by_cases hk : blockKey p.settings.dedup calls data ∈ seen
  · have hvalid : IndexValid V (p.lookup data).2 :=
      IndexValid.asked h.sound.valid (p.lookup_asked data)
    obtain ⟨b, hb⟩ := lookup_of_mem h hn (hindex (usesIndex_of_indexes (hn.indexes_of_mem hk)))
      (hintact.of_asked hvalid (p.place_asked_lookup data)) hk
    rw [meet_of_mem hk, place_count_of_hit hb]
    exact hcount
  · rw [meet_of_not_mem hk, List.length_append]
    exact (p.place_count_le data).trans (Nat.succ_le_succ hcount)

end DedupImage.Placement
