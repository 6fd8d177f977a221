import DedupImage.Proofs.Placement.Evidence
import DedupImage.Proofs.Placement.Requests

/-!
# Entries that lead somewhere

A placement that fills its own catalog puts in only valid entries (`EntryValid`): a block entry names a
block of the table whose bytes have the hash, a window entry a stretch inside a container that has the
hash and the length of a block or of an announced size. Valid entries stay valid, for table and
containers only grow (`Extends.entryValid`).

`Sound` says this of everything that a catalog holds under a view that may lose entries. Every step keeps
it, whatever was lost (`place_sound`, `placeRepeat_sound`), and a look-up in a sound catalog does not
fail (`lookup_ok`).
-/

namespace DedupImage.Placement

variable {ι : Type} {p q : Placement ι}

/-! ## Valid entries -/

/-- The length of a block, or one that was announced. -/
def Measured (p : Placement ι) (n : Nat) : Prop :=
  n ∈ p.blockSizes ∨ ∃ b r, p.record? b = some r ∧ r.length = n

/-- The entry leads to bytes that have its hash. -/
def EntryValid (p : Placement ι) : CatalogEntry → Prop
  | .block hash b => ∃ data, p.Resolves b data ∧ p.settings.hash data = hash
  | .window hash l =>
    ∃ n, p.Measured n ∧ l.container.toNat < p.store.count ∧
      l.offset.toNat + n ≤ p.store.size l.container.toNat ∧
      p.settings.hash (slice (p.store.data l.container.toNat) l.offset.toNat n) = hash

theorem Extends.measured (h : Extends p q) {n : Nat} (hn : p.Measured n) : q.Measured n := by
  rcases hn with hn | ⟨b, r, hr, hlength⟩
  · exact .inl (h.blockSizes n hn)
  · exact .inr ⟨b, r, h.record? hr, hlength⟩

theorem Extends.entryValid (h : Extends p q) {e : CatalogEntry} (he : p.EntryValid e) :
    q.EntryValid e := by
  cases e with
  | block hash b =>
    obtain ⟨data, hr, hhash⟩ := he
    exact ⟨data, h.resolves hr, by rw [h.settings]; exact hhash⟩
  | window hash l =>
    obtain ⟨n, hn, hcount, hend, hhash⟩ := he
    refine ⟨n, h.measured hn, Nat.lt_of_lt_of_le hcount h.store.count_le,
      Nat.le_trans hend (h.store.size_le _), ?_⟩
    rw [h.settings, h.store.slice_eq hend]
    exact hhash

theorem Resolves.measured {b : BlockNum} {data : ByteArray} (h : p.Resolves b data) :
    p.Measured data.size := by
  obtain ⟨r, hr, hs⟩ := h
  exact .inr ⟨b, r, hr, (storesAs_iff.mp hs).1⟩

/-- A stretch of measured length inside a container makes a valid entry. -/
theorem window_valid (hp : p.Consistent) (hfit : p.Addressable) {container start n : Nat}
    (hcontainer : container < p.store.count) (hn : p.Measured n)
    (hend : start + n ≤ p.store.size container) :
    p.EntryValid (.window (p.settings.hash (slice (p.store.data container) start n))
      (Location.ofNat container start)) := by
  have hstart : start < 2 ^ 32 := by
    have := hp.store.size_le container
    have := hp.capacity_lt
    omega
  have hword : container < 2 ^ 32 := Nat.lt_of_lt_of_le hcontainer hfit.containers
  refine ⟨n, hn, ?_⟩
  rw [Location.container_ofNat hword, Location.offset_ofNat hstart]
  exact ⟨hcontainer, hend, rfl⟩

/-- A window that is counted is complete. -/
theorem windowCount_complete {period blockSize size i : Nat} (hperiod : 0 < period)
    (h : i < windowCount period blockSize size) : i * period + blockSize ≤ size := by
  unfold windowCount at h
  split at h
  · cases h
  · have hi : i ≤ (size - blockSize) / period := by omega
    have := (Nat.le_div_iff_mul_le hperiod).mp hi
    omega

variable [Catalog ι]

theorem predict_valid (hp : p.Consistent) (hfit : p.Addressable) {l : Location} {length : Nat}
    (hl : l.container.toNat < p.store.count) (hn : p.Measured length) :
    Via p.EntryValid p (p.predict l length) :=
  predict_via fun hend => window_valid hp hfit hl hn hend

theorem enterDueWindows_valid (hp : p.Consistent) (hfit : p.Addressable) {container size : Nat}
    (hcontainer : container < p.store.count) (hsize : p.store.size container = size)
    (overlapped : Bool) :
    Via p.EntryValid p (p.enterDueWindows container size overlapped) := by
  refine enterDueWindows_via ?_
  intro blockSize hn i hi
  have hend := windowCount_complete (by omega) hi
  exact window_valid hp hfit hcontainer (.inl hn) (hsize ▸ hend)

/-! ## Steps -/

/-- An enrolled block makes a valid entry. -/
theorem enrol_valid {r : BlockRecord} {indexed : Bool} {data : ByteArray}
    (hr : (p.enrol r (p.settings.hash data) indexed).2.Resolves
      (p.enrol r (p.settings.hash data) indexed).1 data) :
    Via (p.enrol r (p.settings.hash data) indexed).2.EntryValid p
      (p.enrol r (p.settings.hash data) indexed).2 := by
  refine enrol_via fun _ => ⟨data, hr, ?_⟩
  rw [(p.enrol_extends r _ indexed).settings]

theorem takeHit_valid {hit : Hit} {data : ByteArray}
    (hr : (p.takeHit (p.settings.hash data) hit data.size).2.Resolves
      (p.takeHit (p.settings.hash data) hit data.size).1 data) :
    Via (p.takeHit (p.settings.hash data) hit data.size).2.EntryValid p
      (p.takeHit (p.settings.hash data) hit data.size).2 := by
  cases hit with
  | block b => exact .of_eq rfl
  | window l =>
    unfold takeHit at hr ⊢
    dsimp only at hr ⊢
    rw [promote_eq] at hr ⊢
    exact (releaseWindow_via _ _ _).trans (enrol_valid hr)

theorem useHit_valid (hp : p.Consistent) {hit : Hit} {data : ByteArray} (hhit : hit.Stores p data)
    (hfit : (p.useHit (p.settings.hash data) hit data.size).2.Addressable) :
    Via (p.useHit (p.settings.hash data) hit data.size).2.EntryValid p
      (p.useHit (p.settings.hash data) hit data.size).2 := by
  rw [useHit_eq] at hfit ⊢
  have hpredict := predict_alike (p.takeHit (p.settings.hash data) hit data.size).2
    (p.hitLocation hit) data.size
  have hfit := hpredict.addressable_iff.mp hfit
  obtain ⟨hresolves, hconsistent, hstored⟩ := takeHit_resolves hp hhit hfit
  have hstored := (p.takeHit_extends (p.settings.hash data) hit data.size).store.holds hstored
  have htaken := takeHit_valid hresolves
  have hentered := predict_valid hconsistent hfit (ContainerStore.holds_iff.mp hstored).1
    hresolves.measured
  exact (htaken.trans hentered).mono fun e he => hpredict.extends.entryValid he

theorem carryOut_valid (hp : p.Consistent) {plan : WritePlan} {data : ByteArray} {indexed : Bool}
    (hready : plan.Ready p data)
    (hfit : (p.carryOut plan (p.settings.hash data) data indexed).2.Addressable) :
    Via (p.carryOut plan (p.settings.hash data) data indexed).2.EntryValid p
      (p.carryOut plan (p.settings.hash data) data indexed).2 := by
  rcases p.carryOut_cases plan (p.settings.hash data) data indexed with
    ⟨e, _, h⟩ | ⟨id, q, e, hc, _, h⟩ | ⟨id, q, newSize, store, hc, ha, h⟩
  · rw [h]
    exact .of_eq rfl
  · rw [h]
    exact .of_eq (containerFor_index hc)
  · rw [h] at hfit ⊢
    obtain ⟨hid, hlays, hq⟩ := containerFor_lays hp hready hc
    have hsettings : p.settings = q.settings := (containerFor_extends hc).settings.symm
    rw [hsettings] at hfit ⊢
    have hdue := enterDueWindows_alike
      (q.enrolWritten store id plan.fit (q.settings.hash data) data.size indexed).2
      id newSize (decide (0 < plan.fit.shared data.size))
    have hfit := hdue.addressable_iff.mp hfit
    have hres := enrolWritten_enrolled hq hid hlays (ContainerStore.append_ok ha) hfit
    have henrolled := enrol_valid hres.resolves
    have hentered := enterDueWindows_valid hres.consistent hfit hres.container_lt hres.size
      (decide (0 < plan.fit.shared data.size))
    refine Via.mono (fun e he => hdue.extends.entryValid he) (Via.trans (.of_eq ?_)
      (henrolled.trans hentered))
    show q.index = p.index
    exact containerFor_index hc

/-- What placing a block puts in is valid afterwards. -/
theorem place_valid (hp : p.Consistent) (data : ByteArray) (hfit : (p.place data).2.Addressable) :
    Via (p.place data).2.EntryValid p (p.place data).2 := by
  have halike := p.lookup_alike data
  have hlookup : Via (p.place data).2.EntryValid p (p.lookup data).2 := lookup_via data
  rcases p.place_cases data with ⟨e, q, hq, h⟩ | ⟨hit, q, hq, h⟩ | ⟨q, hq, h⟩ <;>
    rw [hq] at halike hlookup
  · rw [h] at hlookup ⊢
    exact hlookup
  · have hstores : hit.Stores p data := lookup_stores (by rw [hq])
    rw [← halike.settings] at h
    rw [h] at hfit hlookup ⊢
    exact hlookup.trans (useHit_valid (halike.consistent hp) (halike.stores hstores) hfit)
  · rw [← halike.settings] at h
    rw [h] at hfit hlookup ⊢
    have hq := halike.consistent hp
    exact hlookup.trans (carryOut_valid hq (writePlan_ready hq.store data) hfit)

theorem placeRepeat_valid (hp : p.Consistent) (data : ByteArray) (earlier : BlockNum)
    (hfit : (p.placeRepeat data earlier).2.Addressable) :
    Via (p.placeRepeat data earlier).2.EntryValid p (p.placeRepeat data earlier).2 := by
  rcases p.placeRepeat_cases data earlier with ⟨r, hr, hs, h⟩ | h <;> rw [h] at hfit ⊢
  · exact .of_eq rfl
  · exact place_valid hp data hfit

/-! ## Sound catalogs -/

/-- The catalog, if there is one, is in order, and all it holds is valid. -/
structure Sound (V : LossyView ι) (p : Placement ι) : Prop where
  valid : ∀ x, p.index = some x → V.Valid x
  entries : ∀ x, p.index = some x → ∀ e, V.Holds x e → p.EntryValid e

variable {V : LossyView ι}

/-- Putting in valid entries keeps a catalog sound. -/
theorem Sound.via (h : Sound V p) (hext : p.Extends q) (hvia : Via q.EntryValid p q) :
    Sound V q where
  valid y hy := by
    obtain ⟨x, hx, hreached⟩ := hvia.reached hy
    exact V.valid_reached (h.valid x hx) hreached
  entries y hy e he := by
    obtain ⟨x, hx, hreached⟩ := hvia.reached hy
    rcases V.holds_reached (h.valid x hx) hreached he with hnew | hold
    · exact hnew
    · exact hext.entryValid (h.entries x hx e hold)

theorem start_sound {settings : PlacementSettings} {store : ContainerStore} {index : Option ι}
    (h : ∀ x, index = some x → V.Fresh x) : Sound V (start settings store index) where
  valid x hx := (h x hx).valid
  entries x hx e he := absurd he ((h x hx).empty e)

/-! ## Look-ups in sound catalogs -/

omit [Catalog ι] in
theorem firstBlock_ok {data : ByteArray} {known : List BlockNum}
    (h : ∀ b ∈ known, ∃ r, p.record? b = some r) : ∃ found, p.firstBlock data known = .ok found := by
  induction known with
  | nil => exact ⟨none, rfl⟩
  | cons b rest ih =>
    obtain ⟨r, hr⟩ := h b List.mem_cons_self
    unfold firstBlock
    rw [hr]
    dsimp only
    split
    · exact ⟨some b, rfl⟩
    · exact ih fun b hb => h b (List.mem_cons_of_mem _ hb)

omit [Catalog ι] in
theorem firstWindow_ok {data : ByteArray} {known : List Location}
    (h : ∀ l ∈ known, l.container.toNat < p.store.count ∧
      l.offset.toNat ≤ p.store.size l.container.toNat) :
    ∃ found, p.firstWindow data known = .ok found := by
  induction known with
  | nil => exact ⟨none, rfl⟩
  | cons l rest ih =>
    obtain ⟨hcontainer, hoffset⟩ := h l List.mem_cons_self
    unfold firstWindow
    rw [if_neg (by omega)]
    split
    · exact ⟨some l, rfl⟩
    · exact ih fun l hl => h l (List.mem_cons_of_mem _ hl)

theorem findWindowHit_ok (h : Sound V p) {x : ι} (hx : p.index = some x) (hash : UInt32)
    (data : ByteArray) : ∃ found, (p.findWindowHit x hash data).1 = .ok found := by
  unfold findWindowHit
  split
  · have hknown : ∀ l ∈ (Catalog.findWindow x hash).1, l.container.toNat < p.store.count ∧
        l.offset.toNat ≤ p.store.size l.container.toNat := by
      intro l hl
      obtain ⟨n, _, hcontainer, hend, _⟩ := h.entries x hx _ (V.holds_findWindow (h.valid x hx) hl)
      exact ⟨hcontainer, Nat.le_of_add_right_le hend⟩
    have hfirst : ∃ found, firstWindow { p with index := some (Catalog.findWindow x hash).2 } data
        (Catalog.findWindow x hash).1 = .ok found := firstWindow_ok hknown
    obtain ⟨found, hfound⟩ := hfirst
    dsimp only
    rw [hfound]
    cases found with
    | none => exact ⟨none, rfl⟩
    | some l => exact ⟨some (.window l), rfl⟩
  · exact ⟨none, rfl⟩

/-- No block that the catalog names is missing. -/
theorem firstBlock_findReal_ok (h : Sound V p) {x : ι} (hx : p.index = some x) (hash : UInt32)
    (data : ByteArray) :
    ∃ found, firstBlock { p with index := some (Catalog.findReal x hash).2 } data
      (Catalog.findReal x hash).1 = .ok found := by
  refine firstBlock_ok ?_
  intro b hb
  obtain ⟨_, ⟨r, hr, _⟩, _⟩ := h.entries x hx _ (V.holds_findReal (h.valid x hx) hb)
  exact ⟨r, hr⟩

theorem findHit_ok (h : Sound V p) (hash : UInt32) (data : ByteArray) :
    ∃ found, (p.findHit hash data).1 = .ok found := by
  unfold findHit
  cases hx : p.index with
  | none => exact ⟨none, rfl⟩
  | some x =>
    obtain ⟨found, hfound⟩ := firstBlock_findReal_ok h hx hash data
    dsimp only
    rw [hfound]
    cases found with
    | some b => exact ⟨some (.block b), rfl⟩
    | none =>
      have hasked : Via p.EntryValid p { p with index := some (Catalog.findReal x hash).2 } :=
        .of_some hx rfl (Catalog.reached_findReal hash)
      have hsound : Sound V { p with index := some (Catalog.findReal x hash).2 } :=
        h.via (Alike.extends ⟨rfl, rfl, rfl, rfl, rfl⟩) hasked
      exact findWindowHit_ok hsound rfl hash data

/-- A look-up in a sound catalog does not fail. -/
theorem lookup_ok (h : Sound V p) (data : ByteArray) : ∃ found, (p.lookup data).1 = .ok found := by
  unfold lookup
  dsimp only
  split
  · have hsound : Sound V { p with stats := { p.stats with placed := p.stats.placed + 1 } } :=
      h.via (Alike.counted p _).extends (.of_eq rfl)
    exact findHit_ok hsound _ data
  · exact ⟨none, rfl⟩

end DedupImage.Placement
