import DedupImage.Proofs.Pattern.Fit
import DedupImage.Proofs.Placement.Growth

/-!
# Evidence for a location

A block number that a placement returns resolves to the bytes that were placed (`Resolves`), whatever
the catalog answers: a hit counts only once its bytes were compared, a repeat likewise, and a write is
laid over equal bytes and completes them.

The one fact about the state that this needs is `Consistent`: the map from records to numbers leads to
blocks that have these records, the records are in containers that exist, and the store was made by its
own operations. Numbers and locations are 32-bit words, so the table and the store must not have outgrown
them when the step ends (`Addressable`).
-/

namespace DedupImage

/-! ## Words -/

theorem Location.container_ofNat {container offset : Nat} (h : container < 2 ^ 32) :
    (Location.ofNat container offset).container.toNat = container :=
  toNat_toUInt32 h

theorem Location.offset_ofNat {container offset : Nat} (h : offset < 2 ^ 32) :
    (Location.ofNat container offset).offset.toNat = offset :=
  toNat_toUInt32 h

/-- Different records have different codes. -/
theorem BlockRecord.code_injective {r s : BlockRecord} (h : r.code = s.code) : r = s := by
  unfold code UInt64.size UInt32.size at h
  have hrc := r.location.container.toNat_lt
  have hsc := s.location.container.toNat_lt
  have hro := r.location.offset.toNat_lt
  have hso := s.location.offset.toNat_lt
  have hlength : r.length = s.length := by omega
  have hcontainer : r.location.container.toNat = s.location.container.toNat := by omega
  have hoffset : r.location.offset.toNat = s.location.offset.toNat := by omega
  obtain ⟨⟨rc, ro⟩, rl⟩ := r
  obtain ⟨⟨sc, so⟩, sl⟩ := s
  obtain rfl : rc = sc := UInt32.toNat_inj.mp hcontainer
  obtain rfl : ro = so := UInt32.toNat_inj.mp hoffset
  obtain rfl : rl = sl := hlength
  rfl

namespace Placement

variable {ι : Type} {p q : Placement ι}

/-! ## Resolving -/

/-- A block number leads to a record that describes the data. -/
def Resolves (p : Placement ι) (b : BlockNum) (data : ByteArray) : Prop :=
  ∃ r, p.record? b = some r ∧ p.storesAs r data = true

theorem storesAs_iff {r : BlockRecord} {data : ByteArray} :
    p.storesAs r data = true ↔ r.length = data.size ∧ p.store.holds r.location data = true := by
  unfold storesAs
  rw [Bool.and_eq_true, beq_iff_eq]

/-- What a number resolves to stays what it resolves to. -/
theorem Extends.resolves (h : Extends p q) {b : BlockNum} {data : ByteArray}
    (hr : p.Resolves b data) : q.Resolves b data := by
  obtain ⟨r, hr, hs⟩ := hr
  exact ⟨r, h.record? hr, h.storesAs hs⟩

theorem Alike.resolves_iff (h : Alike p q) {b : BlockNum} {data : ByteArray} :
    q.Resolves b data ↔ p.Resolves b data := by
  unfold Resolves
  simp only [h.record?, h.storesAs]

/-- What a hit leads to does not depend on the catalog. -/
theorem Alike.stores (h : Alike p q) {hit : Hit} {data : ByteArray} (hs : hit.Stores p data) :
    hit.Stores q data := by
  cases hit with
  | block b => exact h.resolves_iff.mpr hs
  | window l =>
    show q.store.holds l data = true
    rw [h.store]
    exact hs

/-- A number resolves to one string only. -/
theorem Resolves.unique {b : BlockNum} {data data' : ByteArray} (h : p.Resolves b data)
    (h' : p.Resolves b data') : data = data' := by
  obtain ⟨r, hr, hs⟩ := h
  obtain ⟨r', hr', hs'⟩ := h'
  obtain rfl := Option.some.inj (hr.symm.trans hr')
  obtain ⟨hl, hs⟩ := storesAs_iff.mp hs
  obtain ⟨hl', hs'⟩ := storesAs_iff.mp hs'
  exact p.store.holds_unique hs hs' (hl.symm.trans hl')

/-! ## Consistent states -/

/-- Every block and every container can be named by a 32-bit word. -/
structure Addressable (p : Placement ι) : Prop where
  blocks : p.blocks.size ≤ 2 ^ 32
  containers : p.store.count ≤ 2 ^ 32

/-- A smaller state is addressable if a later one is. -/
theorem Extends.addressable (h : Extends p q) (hq : q.Addressable) : p.Addressable :=
  ⟨Nat.le_trans h.size_le hq.blocks, Nat.le_trans h.store.count_le hq.containers⟩

/-- The store was made by its own operations, positions in it fit a word, the number that the map has
for a record is that of a block with this record, and the records are in containers that exist. -/
structure Consistent (p : Placement ι) : Prop where
  store : p.store.Valid
  capacity_lt : p.store.capacity < 2 ^ 32
  numbers : ∀ code b, p.numbers[code]? = some b → ∃ r, p.record? b = some r ∧ r.code = code
  located : ∀ r ∈ p.blocks, r.location.container.toNat < p.store.count

theorem start_consistent {settings : PlacementSettings} {capacity reserve : Nat} {staging : Staging}
    {index : Option ι} (h : capacity < 2 ^ 32) :
    (start settings (.empty capacity reserve staging) index).Consistent where
  store := ContainerStore.empty_valid _ _ _
  capacity_lt := h
  numbers code b hb := by
    have : (∅ : Std.TreeMap Nat BlockNum)[code]? = some b := hb
    rw [Std.TreeMap.getElem?_emptyc] at this
    cases this
  located _ hr := absurd hr (Array.not_mem_empty _)

/-- Only the store and the block table matter. -/
theorem Consistent.congr (hp : p.Consistent) (hstore : q.store = p.store)
    (hblocks : q.blocks = p.blocks) (hnumbers : q.numbers = p.numbers) : q.Consistent where
  store := hstore ▸ hp.store
  capacity_lt := hstore ▸ hp.capacity_lt
  numbers code b hb := by
    obtain ⟨r, hr, hc⟩ := hp.numbers code b (hnumbers ▸ hb)
    refine ⟨r, ?_, hc⟩
    unfold record? at hr ⊢
    rw [hblocks]
    exact hr
  located r hr := by
    rw [hstore]
    exact hp.located r (hblocks ▸ hr)

theorem Alike.consistent (h : Alike p q) (hp : p.Consistent) : q.Consistent :=
  hp.congr h.store h.blocks h.numbers

theorem Alike.addressable_iff (h : Alike p q) : q.Addressable ↔ p.Addressable := by
  constructor
  · exact h.extends.addressable
  · intro hp
    exact ⟨h.blocks ▸ hp.blocks, h.store ▸ hp.containers⟩

/-- A record that is registered is the record of its number, whether it was known or is new. -/
theorem register_record? (hp : p.Consistent) (r : BlockRecord)
    (hsize : (p.register r).2.blocks.size ≤ 2 ^ 32) :
    (p.register r).2.record? (p.register r).1 = some r := by
  rcases p.register_cases r with ⟨b, hb, h⟩ | ⟨hb, h⟩
  · rw [h]
    obtain ⟨r', hr', hc⟩ := hp.numbers _ _ hb
    rwa [BlockRecord.code_injective hc] at hr'
  · rw [h] at hsize ⊢
    have hlt : p.blocks.size < 2 ^ 32 := by
      have : (p.blocks.push r).size ≤ 2 ^ 32 := hsize
      rw [Array.size_push] at this
      omega
    show (p.blocks.push r)[p.blocks.size.toUInt32.toNat]? = some r
    rw [toNat_toUInt32 hlt, Array.getElem?_push_size]

/-- A record in a container that exists can be registered. -/
theorem register_consistent (hp : p.Consistent) {r : BlockRecord}
    (hr : r.location.container.toNat < p.store.count)
    (hsize : (p.register r).2.blocks.size ≤ 2 ^ 32) : (p.register r).2.Consistent := by
  have hnew := register_record? hp r hsize
  have hextends := p.register_extends r
  rcases p.register_cases r with ⟨b, -, h⟩ | ⟨-, h⟩
  · rw [h]
    exact hp
  · rw [h] at hnew hextends ⊢
    refine ⟨hp.store, hp.capacity_lt, ?_, ?_⟩
    · intro code b hcode
      rw [Std.TreeMap.getElem?_insert] at hcode
      split at hcode
      · obtain rfl := Option.some.inj hcode
        exact ⟨r, hnew, Std.compare_eq_iff_eq.mp ‹_›⟩
      · obtain ⟨r', hr', hc⟩ := hp.numbers code b hcode
        exact ⟨r', hextends.record? hr', hc⟩
    · intro r' hr'
      rcases Array.mem_push.mp hr' with hr' | rfl
      · exact hp.located r' hr'
      · exact hr

/-! ## Plans -/

/-- A fit that is tried for a block lays it over equal bytes. -/
theorem fitInto_lays {data text : ByteArray} {overlaps : Bool} {fit : Fit}
    (h : p.fitInto (if overlaps then some (Pattern.ofBytes data) else none) data.size text = some fit) :
    fit.Lays text data := by
  cases overlaps with
  | true => exact Pattern.fit?_lays h
  | false =>
    obtain rfl := Option.some.inj h
    exact Fit.append_lays text data

/-- The best fit is one of those given, and acceptable. -/
theorem bestOf_eq_some {length : Nat} {fits : List (Nat × Option Fit)} {id : Nat} {fit : Fit}
    (h : p.bestOf length fits = some (id, fit)) :
    (id, some fit) ∈ fits ∧ p.acceptable length fit = true := by
  induction fits with
  | nil => cases h
  | cons head rest ih =>
    have tail {o : Nat × Fit} (ho : p.bestOf length rest = some o) (heq : o = (id, fit)) :
        (id, some fit) ∈ head :: rest ∧ p.acceptable length fit = true := by
      obtain ⟨hmem, hacc⟩ := ih (ho.trans (congrArg some heq))
      exact ⟨List.mem_cons_of_mem head hmem, hacc⟩
    match head with
    | (_, none) => exact tail h rfl
    | (id', some fit') =>
      unfold bestOf at h
      dsimp only at h
      split at h
      · split at h
        · obtain ⟨rfl, rfl⟩ := Prod.mk.inj (Option.some.inj h)
          exact ⟨List.mem_cons_self, ‹_›⟩
        · split at h
          · exact tail ‹_› (Option.some.inj h)
          · obtain ⟨rfl, rfl⟩ := Prod.mk.inj (Option.some.inj h)
            exact ⟨List.mem_cons_self, ‹_›⟩
      · exact tail h rfl

/-- Only existing containers are tried. -/
theorem candidates_lt (hp : p.store.Valid) {length id : Nat} (h : id ∈ p.candidates length) :
    id < p.store.count := by
  unfold candidates at h
  rcases List.mem_append.mp (List.mem_of_mem_take h) with h | h
  · exact hp.bestFit_lt (Option.mem_toList.mp h)
  · exact ContainerStore.newest_lt (List.mem_filter.mp h).1

/-- A plan that may be carried out: the block is laid into an existing container over equal bytes, or
starts a new one. -/
inductive WritePlan.Ready (p : Placement ι) (data : ByteArray) : WritePlan → Prop
  | existing {id : Nat} {fit : Fit} (id_lt : id < p.store.count)
      (lays : fit.Lays (p.store.data id) data) (acceptable : p.acceptable data.size fit = true) :
      Ready p data ⟨some id, fit⟩
  | fresh : Ready p data ⟨none, .append 0 data.size⟩

/-- Every plan may be carried out. -/
theorem writePlan_ready (hp : p.store.Valid) (data : ByteArray) :
    (p.writePlan data).Ready p data := by
  unfold writePlan
  dsimp only
  split
  · rename_i id fit h
    obtain ⟨hmem, hacc⟩ := bestOf_eq_some h
    obtain ⟨id', hid', heq⟩ := List.mem_map.mp hmem
    obtain ⟨rfl, hfit⟩ := Prod.mk.inj heq
    exact .existing (candidates_lt hp hid') (fitInto_lays hfit) hacc
  · exact .fresh

/-- The container of a plan exists, and the block may be laid into it. -/
theorem containerFor_lays {plan : WritePlan} {data : ByteArray} {id : Nat} (hp : p.Consistent)
    (hready : plan.Ready p data) (h : p.containerFor plan = .ok (id, q)) :
    id < q.store.count ∧ plan.fit.Lays (q.store.data id) data ∧ q.Consistent := by
  cases hready with
  | existing id_lt lays _ =>
    obtain ⟨rfl, rfl⟩ := Prod.mk.inj (Except.ok.inj h)
    exact ⟨id_lt, lays, hp⟩
  | fresh =>
    rcases containerFor_cases h with ⟨hplan, -⟩ | ⟨store, -, hcreate, rfl⟩
    · cases hplan
    · obtain ⟨rfl, hcount, hdata, hgrows, hvalid⟩ := ContainerStore.create_ok hcreate
      refine ⟨Nat.lt_of_lt_of_eq (Nat.lt_succ_self _) hcount.symm, ?_, hvalid hp.store,
        hgrows.capacity ▸ hp.capacity_lt, hp.numbers, fun r hr =>
          Nat.lt_of_lt_of_le (hp.located r hr) hgrows.count_le⟩
      show (Fit.append 0 data.size).Lays (store.data p.store.count) data
      rw [hdata, ContainerStore.data_of_le (Nat.le_refl _)]
      exact Fit.append_lays ByteArray.empty data

/-- A write that succeeds stores the block at the place of its fit. -/
theorem append_holds {t : ContainerStore} {id newSize : Nat} {fit : Fit} {data : ByteArray}
    (hp : p.Consistent) (hcount : p.store.count ≤ 2 ^ 32) (hid : id < p.store.count)
    (hlays : fit.Lays (p.store.data id) data)
    (h : p.store.Appended t id fit.base newSize data) :
    t.holds (Location.ofNat id fit.base) data = true := by
  have hbase : fit.base < 2 ^ 32 := by
    have := hp.store.size_le id
    have := h.base_le
    have := hp.capacity_lt
    omega
  rw [ContainerStore.holds_iff, Location.container_ofNat (by omega), Location.offset_ofNat hbase]
  refine ⟨by rw [h.count]; exact hid, ?_⟩
  rw [h.data hid]
  exact hlays.holdsAt_rest

variable [Catalog ι]

/-! ## Each way to place a block -/

/-- An enrolled record's number resolves to what is stored there. -/
theorem enrol_resolves {l : Location} {hash : UInt32} {indexed : Bool} {data : ByteArray}
    (hp : p.Consistent) (hl : p.store.holds l data = true)
    (hsize : (p.enrol ⟨l, data.size⟩ hash indexed).2.blocks.size ≤ 2 ^ 32) :
    (p.enrol ⟨l, data.size⟩ hash indexed).2.Resolves (p.enrol ⟨l, data.size⟩ hash indexed).1 data ∧
      (p.enrol ⟨l, data.size⟩ hash indexed).2.Consistent := by
  have hr := register_record? hp ⟨l, data.size⟩ hsize
  have hc := register_consistent hp (ContainerStore.holds_iff.mp hl).1 hsize
  refine ⟨⟨_, hr, storesAs_iff.mpr ⟨rfl, ?_⟩⟩, hc.congr rfl rfl rfl⟩
  show (p.register ⟨l, data.size⟩).2.store.holds l data = true
  rw [register_store]
  exact hl

/-- What was found is evidence enough: its number resolves to the data, and its location exists. -/
theorem takeHit_resolves {hash : UInt32} {hit : Hit} {data : ByteArray} (hp : p.Consistent)
    (hhit : hit.Stores p data) (hfit : (p.takeHit hash hit data.size).2.Addressable) :
    (p.takeHit hash hit data.size).2.Resolves (p.takeHit hash hit data.size).1 data ∧
      (p.takeHit hash hit data.size).2.Consistent ∧
      p.store.holds (p.hitLocation hit) data = true := by
  cases hit with
  | block b =>
    obtain ⟨r, hr, hs⟩ := hhit
    have halike := Alike.counted p { p.stats with reused := p.stats.reused + 1 }
    refine ⟨halike.resolves_iff.mpr ⟨r, hr, hs⟩, halike.consistent hp, ?_⟩
    unfold hitLocation
    dsimp only
    rw [hr]
    exact (storesAs_iff.mp hs).2
  | window l =>
    have hc := (p.releaseWindow_alike hash l data.size).consistent hp
    unfold takeHit at hfit ⊢
    dsimp only at hfit ⊢
    rw [promote_eq] at hfit ⊢
    obtain ⟨hresolves, hconsistent⟩ := enrol_resolves hc hhit hfit.blocks
    exact ⟨hresolves, hconsistent, hhit⟩

theorem useHit_resolves {hash : UInt32} {hit : Hit} {data : ByteArray} (hp : p.Consistent)
    (hhit : hit.Stores p data) (hfit : (p.useHit hash hit data.size).2.Addressable) :
    (p.useHit hash hit data.size).2.Resolves (p.useHit hash hit data.size).1 data ∧
      (p.useHit hash hit data.size).2.Consistent := by
  rw [useHit_eq] at hfit ⊢
  have hpredict := predict_alike (p.takeHit hash hit data.size).2 (p.hitLocation hit) data.size
  obtain ⟨hresolves, hconsistent, -⟩ :=
    takeHit_resolves hp hhit (hpredict.addressable_iff.mp hfit)
  exact ⟨hpredict.resolves_iff.mpr hresolves, hpredict.consistent hconsistent⟩

/-- What holds once a block was written to a container and enrolled. -/
structure Enrolled (e : BlockNum × Placement ι) (id base newSize : Nat) (data : ByteArray) : Prop where
  record : e.2.record? e.1 = some ⟨Location.ofNat id base, data.size⟩
  stored : e.2.store.holds (Location.ofNat id base) data = true
  consistent : e.2.Consistent
  container_lt : id < e.2.store.count
  size : e.2.store.size id = newSize

omit [Catalog ι] in
theorem Enrolled.resolves {e : BlockNum × Placement ι} {id base newSize : Nat} {data : ByteArray}
    (h : Enrolled e id base newSize data) : e.2.Resolves e.1 data :=
  ⟨_, h.record, storesAs_iff.mpr ⟨rfl, h.stored⟩⟩

omit [Catalog ι] in
/-- A block that was written and counted leaves the state consistent. -/
theorem written_consistent {store : ContainerStore} {id newSize : Nat} {fit : Fit}
    {data : ByteArray} (hp : p.Consistent) (hid : id < p.store.count)
    (ha : p.store.Appended store id fit.base newSize data) :
    (p.written store fit data.size).Consistent :=
  ⟨ha.valid hid hp.store, ha.grows.capacity ▸ hp.capacity_lt, hp.numbers, fun r hr =>
    Nat.lt_of_lt_of_le (hp.located r hr) ha.grows.count_le⟩

theorem enrolWritten_enrolled {store : ContainerStore} {id newSize : Nat} {fit : Fit} {hash : UInt32}
    {data : ByteArray} {indexed : Bool} (hp : p.Consistent) (hid : id < p.store.count)
    (hlays : fit.Lays (p.store.data id) data) (ha : p.store.Appended store id fit.base newSize data)
    (hfit : (p.enrolWritten store id fit hash data.size indexed).2.Addressable) :
    Enrolled (p.enrolWritten store id fit hash data.size indexed) id fit.base newSize
      data := by
  have hstore : (p.enrolWritten store id fit hash data.size indexed).2.store = store :=
    enrol_store _ _ _ _
  have hcount : p.store.count ≤ 2 ^ 32 := by
    have := hfit.containers
    rw [hstore, ha.count] at this
    exact this
  have hheld := append_holds hp hcount hid hlays ha
  have hwritten := written_consistent hp hid ha
  have hrecord := register_record? hwritten ⟨Location.ofNat id fit.base, data.size⟩ hfit.blocks
  have hconsistent := register_consistent hwritten (r := ⟨Location.ofNat id fit.base, data.size⟩)
    (ContainerStore.holds_iff.mp hheld).1 hfit.blocks
  refine ⟨hrecord, ?_, hconsistent.congr rfl rfl rfl, ?_, ?_⟩
  · rw [hstore]
    exact hheld
  · rw [hstore, ha.count]
    exact hid
  · rw [hstore]
    exact ha.size_eq hid

theorem carryOut_resolves {plan : WritePlan} {hash : UInt32} {data : ByteArray} {indexed : Bool}
    (hp : p.Consistent) (hready : plan.Ready p data)
    (hfit : (p.carryOut plan hash data indexed).2.Addressable) :
    (∀ b, (p.carryOut plan hash data indexed).1 = .ok b →
      (p.carryOut plan hash data indexed).2.Resolves b data) ∧
      (p.carryOut plan hash data indexed).2.Consistent := by
  rcases p.carryOut_cases plan hash data indexed with
    ⟨e, _, h⟩ | ⟨id, q, e, hc, _, h⟩ | ⟨id, q, newSize, store, hc, ha, h⟩
  · rw [h]
    exact ⟨fun b hb => (nomatch hb), hp⟩
  · rw [h]
    exact ⟨fun b hb => (nomatch hb), (containerFor_lays hp hready hc).2.2⟩
  · rw [h] at hfit ⊢
    obtain ⟨hid, hlays, hq⟩ := containerFor_lays hp hready hc
    -- the windows that are entered afterwards touch neither table nor containers
    have hdue := enterDueWindows_alike
      (q.enrolWritten store id plan.fit hash data.size indexed).2 id newSize
      (decide (0 < plan.fit.shared data.size))
    have hres := enrolWritten_enrolled hq hid hlays (ContainerStore.append_ok ha)
      (hdue.addressable_iff.mp hfit)
    refine ⟨?_, hdue.consistent hres.consistent⟩
    intro b hb
    obtain rfl := Except.ok.inj hb
    exact hdue.resolves_iff.mpr hres.resolves

/-! ## Placing -/

/-- A block that is placed resolves to its bytes, and the state stays consistent even if it is not. -/
theorem place_resolves (hp : p.Consistent) (data : ByteArray) (hfit : (p.place data).2.Addressable) :
    (∀ b, (p.place data).1 = .ok b → (p.place data).2.Resolves b data) ∧
      (p.place data).2.Consistent := by
  have halike := p.lookup_alike data
  rcases p.place_cases data with ⟨e, q, hq, h⟩ | ⟨hit, q, hq, h⟩ | ⟨q, hq, h⟩ <;>
    rw [hq] at halike <;> rw [h] at hfit ⊢
  · exact ⟨fun b hb => (nomatch hb), halike.consistent hp⟩
  · have hstores : hit.Stores p data := lookup_stores (by rw [hq])
    have hres := useHit_resolves (halike.consistent hp) (halike.stores hstores) hfit
    exact ⟨fun b hb => Except.ok.inj hb ▸ hres.1, hres.2⟩
  · have hq := halike.consistent hp
    exact carryOut_resolves hq (writePlan_ready hq.store data) hfit

theorem placeRepeat_resolves (hp : p.Consistent) (data : ByteArray) (earlier : BlockNum)
    (hfit : (p.placeRepeat data earlier).2.Addressable) :
    (∀ b, (p.placeRepeat data earlier).1 = .ok b → (p.placeRepeat data earlier).2.Resolves b data) ∧
      (p.placeRepeat data earlier).2.Consistent := by
  rcases p.placeRepeat_cases data earlier with ⟨r, hr, hs, h⟩ | h <;> rw [h] at hfit ⊢
  · refine ⟨?_, (Alike.counted p _).consistent hp⟩
    intro b hb
    obtain rfl := Except.ok.inj hb
    exact (Alike.counted p _).resolves_iff.mpr ⟨r, hr, hs⟩
  · exact place_resolves hp data hfit

end Placement

end DedupImage
