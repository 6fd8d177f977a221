import DedupImage.Proofs.Index.CatalogView
import DedupImage.Proofs.Placement.Run
import DedupImage.Proofs.Placement.Words

/-!
# Placing succeeds

A placement that fills its catalog itself never fails, as long as its blocks fit into a container, the
containers can be made, and words can name all blocks and containers. The catalog may lose entries at
any time.

`Healthy` is the invariant: the table and the store are consistent, the catalog is sound, and containers
can be made. A plan is made in one view of the containers and
carried out against another check of them; the two agree because a plan that is ready ends inside the
capacity (`WritePlan.Ready.stop_le`), and that in turn because only acceptable fits are planned.

`placement_succeeds` collects what follows for every call of a run: the call returns a number, the word
arithmetic it takes is exact, every entry of the catalog leads somewhere, no container is longer than
the capacity, and a plain append left the reserve.
-/

namespace DedupImage.Placement

variable {ι : Type} {p q : Placement ι}

/-! ## Plans that can be carried out -/

/-- What is acceptable ends inside the capacity, and leaves the reserve unless it shares bytes. -/
theorem acceptable_le {length : Nat} {fit : Fit} (h : p.acceptable length fit = true) :
    fit.newSize ≤ p.store.capacity ∧
      (0 < fit.shared length ∨ fit.newSize ≤ p.store.capacity - p.store.reserve) := by
  unfold acceptable at h
  split at h
  · exact ⟨of_decide_eq_true h, .inl ‹_›⟩
  · have := of_decide_eq_true h
    exact ⟨by omega, .inr this⟩

/-- A block of a ready plan ends inside the capacity. -/
theorem WritePlan.Ready.stop_le {plan : WritePlan} {data : ByteArray} (h : plan.Ready p data)
    (hdata : data.size ≤ p.store.capacity) : plan.fit.base + data.size ≤ p.store.capacity := by
  cases h with
  | existing _ lays acceptable =>
    have := (acceptable_le acceptable).1
    have := lays.newSize
    dsimp only
    omega
  | fresh =>
    show 0 + data.size ≤ _
    omega

/-! ## Writes -/

/-- The container of a plan is the planned one or new. Choosing it changes no container's bytes, and adds
no block. -/
theorem containerFor_eq_ok {plan : WritePlan} {id : Nat} (h : p.containerFor plan = .ok (id, q)) :
    (plan.container = some id ∨ plan.container = none ∧ id = p.store.count) ∧
      q.store.data = p.store.data ∧ q.blocks = p.blocks := by
  rcases containerFor_cases h with ⟨hplan, rfl⟩ | ⟨store, hplan, hcreate, rfl⟩
  · exact ⟨.inl hplan, rfl, rfl⟩
  · obtain ⟨rfl, -, hdata, -⟩ := ContainerStore.create_ok hcreate
    exact ⟨.inr ⟨hplan, rfl⟩, hdata, rfl⟩

/-- A container can be had for every plan, unless there is no place for new ones. -/
theorem containerFor_ok (h : p.store.staging ≠ .missing) (plan : WritePlan) :
    ∃ id q, p.containerFor plan = .ok (id, q) := by
  unfold containerFor
  cases plan.container with
  | some id => exact ⟨id, p, rfl⟩
  | none =>
    obtain ⟨t, ht⟩ := ContainerStore.create_of_staging h
    rw [ht]
    exact ⟨_, _, rfl⟩

/-- What writing a block with this record did: one container got longer if need be, and no other
changed. The container was new, or it had bytes of the block already, or its room is still the reserve
or more. -/
structure Wrote (p q : Placement ι) (data : ByteArray) (r : BlockRecord) : Prop where
  length : r.length = data.size
  others : ∀ k, k ≠ r.location.container.toNat → q.store.data k = p.store.data k
  size : q.store.size r.location.container.toNat =
    max (p.store.size r.location.container.toNat) (r.location.offset.toNat + data.size)
  room : r.location.container.toNat = p.store.count ∨
    q.store.size r.location.container.toNat - p.store.size r.location.container.toNat < data.size ∨
    q.store.size r.location.container.toNat + q.store.reserve ≤ q.store.capacity

/-- What was written after a look-up was written. -/
theorem Alike.wrote {r : Placement ι} (h : Alike p q) {data : ByteArray} {record : BlockRecord}
    (hw : Wrote q r data record) : Wrote p r data record where
  length := hw.length
  others := h.store ▸ hw.others
  size := h.store ▸ hw.size
  room := h.store ▸ hw.room

/-- A ready plan for an existing container overlaps, or leaves the reserve. -/
theorem WritePlan.Ready.room {plan : WritePlan} {data : ByteArray} {id newSize : Nat}
    (h : plan.Ready p data) (hreserve : p.store.reserve ≤ p.store.capacity)
    (hwhich : plan.container = some id ∨ plan.container = none ∧ id = p.store.count)
    (hsize : newSize = max (p.store.size id) (plan.fit.base + data.size)) :
    id = p.store.count ∨ newSize - p.store.size id < data.size ∨
      newSize + p.store.reserve ≤ p.store.capacity := by
  cases h with
  | existing _ lays acceptable =>
    rename_i id' fit _
    obtain rfl : id' = id := by
      rcases hwhich with hwhich | ⟨hwhich, -⟩
      · exact Option.some.inj hwhich
      · cases hwhich
    have hold := lays.oldSize
    have hnew := lays.newSize
    obtain ⟨-, hshared | hroom⟩ := acceptable_le acceptable
    · refine .inr (.inl ?_)
      unfold Fit.shared Fit.added at hshared
      unfold ContainerStore.size at *
      dsimp only at hsize
      omega
    · refine .inr (.inr ?_)
      unfold ContainerStore.size at *
      dsimp only at hsize
      omega
  | fresh =>
    rcases hwhich with hwhich | ⟨-, hnew⟩
    · cases hwhich
    · exact .inl hnew

variable [Catalog ι]

/-- A plan that is ready is carried out. -/
theorem carryOut_ok (hp : p.Consistent) (hstaging : p.store.staging ≠ .missing) {plan : WritePlan}
    {data : ByteArray} (hready : plan.Ready p data) (hdata : data.size ≤ p.store.capacity)
    (hash : UInt32) (indexed : Bool) :
    ∃ id q newSize store, p.containerFor plan = .ok (id, q) ∧
      q.store.append id plan.fit.base data = .ok (newSize, store) ∧
      p.carryOut plan hash data indexed =
        (.ok (q.enrolWritten store id plan.fit hash data.size indexed).1,
          (q.enrolWritten store id plan.fit hash data.size indexed).2.enterDueWindows id newSize
            (decide (0 < plan.fit.shared data.size))) := by
  rcases p.carryOut_cases plan hash data indexed with
    ⟨e, hc, -⟩ | ⟨id, q, e, hc, ha, -⟩ | ⟨id, q, newSize, store, hc, ha, h⟩
  · obtain ⟨id, q, hok⟩ := containerFor_ok hstaging plan
    rw [hok] at hc
    cases hc
  · obtain ⟨-, hlays, -⟩ := containerFor_lays hp hready hc
    have hstop : plan.fit.base + data.size ≤ q.store.capacity := by
      rw [(containerFor_extends hc).store.capacity]
      exact hready.stop_le hdata
    obtain ⟨newSize, store, hok⟩ := ContainerStore.append_eq_ok hlays.base_le hstop
    rw [hok] at ha
    cases ha
  · exact ⟨id, q, newSize, store, hc, ha, h⟩

/-- What carrying out a ready plan did to the containers. -/
theorem carryOut_wrote (hp : p.Consistent) (hstaging : p.store.staging ≠ .missing)
    (hreserve : p.store.reserve ≤ p.store.capacity) {plan : WritePlan} {hash : UInt32}
    {data : ByteArray} {indexed : Bool} (hready : plan.Ready p data)
    (hdata : data.size ≤ p.store.capacity)
    (hfit : (p.carryOut plan hash data indexed).2.Addressable) :
    ∃ b r, (p.carryOut plan hash data indexed).1 = .ok b ∧
      (p.carryOut plan hash data indexed).2.record? b = some r ∧
      Wrote p (p.carryOut plan hash data indexed).2 data r := by
  obtain ⟨id, q, newSize, store, hc, ha, h⟩ := carryOut_ok hp hstaging hready hdata hash indexed
  rw [h] at hfit ⊢
  obtain ⟨hid, hlays, hq⟩ := containerFor_lays hp hready hc
  obtain ⟨hwhich, hdatas, -⟩ := containerFor_eq_ok hc
  have happ := ContainerStore.append_ok ha
  have hdue := enterDueWindows_alike
    (q.enrolWritten store id plan.fit hash data.size indexed).2 id newSize
    (decide (0 < plan.fit.shared data.size))
  have hfit := hdue.addressable_iff.mp hfit
  have henrolled := enrolWritten_enrolled hq hid hlays happ hfit
  have hstore : _ = store := hdue.store.trans
    (enrol_store (q.written store plan.fit data.size)
      ⟨Location.ofNat id plan.fit.base, data.size⟩ hash indexed)
  have hcontainer : (Location.ofNat id plan.fit.base).container.toNat = id :=
    Location.container_ofNat (Nat.lt_of_lt_of_le henrolled.container_lt hfit.containers)
  have hoffset : (Location.ofNat id plan.fit.base).offset.toNat = plan.fit.base := by
    refine Location.offset_ofNat ?_
    have := happ.base_le
    have := hq.store.size_le id
    have := hq.capacity_lt
    omega
  have hold : p.store.size id = q.store.size id := by
    unfold ContainerStore.size
    rw [hdatas]
  have hsize : newSize = max (p.store.size id) (plan.fit.base + data.size) := by
    rw [hold]
    exact happ.newSize
  have hroom := hready.room hreserve hwhich hsize
  refine ⟨_, ⟨Location.ofNat id plan.fit.base, data.size⟩, rfl,
    (hdue.record? _).trans henrolled.record, rfl, ?_, ?_, ?_⟩ <;> dsimp only <;>
    rw [hstore, hcontainer]
  · intro k hk
    exact (happ.other k hk).trans (congrFun hdatas k)
  · rw [hoffset]
    exact (happ.size_eq hid).trans hsize
  · have hgrows := (containerFor_extends hc).store.trans happ.grows
    rw [happ.size_eq hid, hgrows.capacity, hgrows.reserve]
    exact hroom

/-! ## Healthy placements -/

/-- Nothing stands in the way of the next block: the state is consistent, its catalog sound, and new
containers can be made. -/
structure Healthy (V : LossyView ι) (p : Placement ι) : Prop where
  consistent : p.Consistent
  sound : Sound V p
  staging : p.store.staging ≠ .missing

variable {V : LossyView ι}

theorem start_healthy {settings : PlacementSettings} {capacity reserve : Nat} {staging : Staging}
    {index : Option ι} (hcapacity : capacity < 2 ^ 32) (hstaging : staging ≠ .missing)
    (hindex : ∀ x, index = some x → V.Fresh x) :
    Healthy V (start settings (.empty capacity reserve staging) index) :=
  ⟨start_consistent hcapacity, start_sound hindex, hstaging⟩

/-- A step keeps a placement healthy if it keeps it consistent and puts in valid entries. -/
theorem Healthy.of_extends (h : Healthy V p) (hext : p.Extends q) (hconsistent : q.Consistent)
    (hvia : Via q.EntryValid p q) : Healthy V q where
  consistent := hconsistent
  sound := h.sound.via hext hvia
  staging := hext.store.staging ▸ h.staging

theorem place_healthy (h : Healthy V p) (data : ByteArray) (hfit : (p.place data).2.Addressable) :
    Healthy V (p.place data).2 :=
  h.of_extends (p.place_extends data) (place_resolves h.consistent data hfit).2
    (place_valid h.consistent data hfit)

theorem placeRepeat_healthy (h : Healthy V p) (data : ByteArray) (earlier : BlockNum)
    (hfit : (p.placeRepeat data earlier).2.Addressable) :
    Healthy V (p.placeRepeat data earlier).2 :=
  h.of_extends (p.placeRepeat_extends data earlier)
    (placeRepeat_resolves h.consistent data earlier hfit).2
    (placeRepeat_valid h.consistent data earlier hfit)

/-- A block that fits into a container is placed. -/
theorem place_ok (h : Healthy V p) {data : ByteArray} (hdata : data.size ≤ p.store.capacity) :
    ∃ b, (p.place data).1 = .ok b := by
  have halike := p.lookup_alike data
  obtain ⟨found, hfound⟩ := lookup_ok h.sound data
  rcases p.place_cases data with ⟨e, q, hq, heq⟩ | ⟨hit, q, hq, heq⟩ | ⟨q, hq, heq⟩ <;>
    rw [hq] at halike
  · rw [hq] at hfound
    cases hfound
  · exact ⟨_, congrArg Prod.fst heq⟩
  · have hq := halike.consistent h.consistent
    obtain ⟨id, r, newSize, store, -, -, hout⟩ := carryOut_ok hq (halike.store ▸ h.staging)
      (writePlan_ready hq.store data) (halike.store ▸ hdata) (p.settings.hash data)
      (p.settings.dedup.indexes data)
    rw [heq, hout]
    exact ⟨_, rfl⟩

theorem placeRepeat_ok (h : Healthy V p) {data : ByteArray} (hdata : data.size ≤ p.store.capacity)
    (earlier : BlockNum) : ∃ b, (p.placeRepeat data earlier).1 = .ok b := by
  rcases p.placeRepeat_cases data earlier with ⟨r, hr, hs, heq⟩ | heq <;> rw [heq]
  · exact ⟨earlier, rfl⟩
  · exact place_ok h hdata

/-- A block that was not found was written. -/
theorem place_wrote (h : Healthy V p) (hreserve : p.store.reserve ≤ p.store.capacity)
    {data : ByteArray} (hdata : data.size ≤ p.store.capacity) (hfit : (p.place data).2.Addressable)
    (hnone : (p.lookup data).1 = .ok none) :
    ∃ b r, (p.place data).1 = .ok b ∧ (p.place data).2.record? b = some r ∧
      Wrote p (p.place data).2 data r := by
  have halike := p.lookup_alike data
  rcases p.place_cases data with ⟨e, q, hq, heq⟩ | ⟨hit, q, hq, heq⟩ | ⟨q, hq, heq⟩ <;>
    rw [hq] at halike hnone
  · cases hnone
  · cases hnone
  · rw [heq] at hfit ⊢
    have hq := halike.consistent h.consistent
    obtain ⟨b, r, hb, hr, hwrote⟩ := carryOut_wrote hq (halike.store ▸ h.staging)
      (halike.store ▸ hreserve) (writePlan_ready hq.store data) (halike.store ▸ hdata) hfit
    exact ⟨b, r, hb, hr, halike.wrote hwrote⟩

/-! ## Runs -/

/-- The event brings nothing that is longer than a container, leaves the catalog alone and lets containers be
made. -/
def Event.Within (capacity : Nat) : Event ι → Prop
  | .place data => data.size ≤ capacity
  | .placeRepeat data _ => data.size ≤ capacity
  | .addBlockSize size => size ≤ capacity
  | .tamper _ => False
  | .obstructed _ _ => False

/-- The event writes a block: the block is no repeat that proves true, and it is not found. -/
def Event.Writes (p : Placement ι) : Event ι → Prop
  | .place data => (p.lookup data).1 = .ok none
  | .placeRepeat data earlier => ¬ p.Resolves earlier data ∧ (p.lookup data).1 = .ok none
  | .addBlockSize _ => False
  | .tamper _ => False
  | .obstructed data earlier =>
    (∀ b, earlier = some b → ¬ p.Resolves b data) ∧ (p.lookup data).1 = .ok none

/-- The word operations of an event, with windows hashed by some number of threads. -/
def Event.words (p : Placement ι) (threads : Nat) : Event ι → List WordOp
  | .place data => p.placeWords threads data
  | .placeRepeat data earlier =>
    if (p.record? earlier).any (p.storesAs · data) then [] else p.placeWords threads data
  | .addBlockSize _ => []
  | .tamper _ => []
  | .obstructed data earlier =>
    if earlier.any fun b => (p.record? b).any (p.storesAs · data) then [] else p.placeWords threads data

omit [Catalog ι] in
theorem Event.Within.not_tamper {capacity : Nat} {e : Event ι} (h : e.Within capacity)
    (index : Option ι) : e ≠ .tamper index := by
  rintro rfl
  exact h

theorem step_healthy (h : Healthy V p) {e : Event ι} (he : ∀ index, e ≠ .tamper index)
    (hfit : (p.step e).2.Addressable) : Healthy V (p.step e).2 := by
  cases e with
  | place data => exact place_healthy h data hfit
  | placeRepeat data earlier => exact placeRepeat_healthy h data earlier hfit
  | addBlockSize size =>
    exact h.of_extends (p.step_extends (.addBlockSize size)) (step_consistent h.consistent _ hfit)
      (.of_eq rfl)
  | tamper index => exact absurd rfl (he index)
  | obstructed data earlier =>
    rcases p.step_obstructed data earlier with ⟨-, heq⟩ | ⟨b, -, heq⟩ | heq <;> rw [heq] at hfit ⊢
    · exact place_healthy h data hfit
    · exact placeRepeat_healthy h data b hfit
    · have halike := p.lookup_alike data
      exact h.of_extends halike.extends (halike.consistent h.consistent) (lookup_via data)

theorem step_ok (h : Healthy V p) {e : Event ι} (he : e.Within p.store.capacity) {data : ByteArray}
    (hdata : e.data? = some data) : ∃ b, (p.step e).1 = some (.ok b) := by
  cases e with
  | place data =>
    obtain ⟨b, hb⟩ := place_ok h he
    exact ⟨b, congrArg some hb⟩
  | placeRepeat data earlier =>
    obtain ⟨b, hb⟩ := placeRepeat_ok h he earlier
    exact ⟨b, congrArg some hb⟩
  | addBlockSize size => cases hdata
  | tamper index => cases hdata
  | obstructed data earlier => exact he.elim

theorem step_wrote (h : Healthy V p) (hreserve : p.store.reserve ≤ p.store.capacity) {e : Event ι}
    (he : e.Within p.store.capacity) (hfit : (p.step e).2.Addressable) {data : ByteArray}
    (hdata : e.data? = some data) (hwrites : e.Writes p) :
    ∃ b r, (p.step e).1 = some (.ok b) ∧ (p.step e).2.record? b = some r ∧
      Wrote p (p.step e).2 data r := by
  cases e with
  | place data' =>
    obtain rfl := Option.some.inj hdata
    obtain ⟨b, r, hb, hr, hwrote⟩ := place_wrote h hreserve he hfit hwrites
    exact ⟨b, r, congrArg some hb, hr, hwrote⟩
  | placeRepeat data' earlier =>
    obtain rfl := Option.some.inj hdata
    have heq : p.placeRepeat data' earlier = p.place data' := by
      rcases p.placeRepeat_cases data' earlier with ⟨r, hr, hs, -⟩ | heq
      · exact absurd ⟨r, hr, hs⟩ hwrites.1
      · exact heq
    have hstep : p.step (.placeRepeat data' earlier) = p.step (.place data') := by
      show (some (p.placeRepeat data' earlier).1, (p.placeRepeat data' earlier).2) =
        (some (p.place data').1, (p.place data').2)
      rw [heq]
    rw [hstep] at hfit ⊢
    obtain ⟨b, r, hb, hr, hwrote⟩ := place_wrote h hreserve he hfit hwrites.2
    exact ⟨b, r, congrArg some hb, hr, hwrote⟩
  | addBlockSize size => cases hdata
  | tamper index => cases hdata
  | obstructed data earlier => exact he.elim

/-- The word operations of an event are exact, and the sizes noted stay behind the containers. -/
theorem step_words_exact (hp : p.Consistent) (h : p.Entered) (hcapacity : p.store.capacity ≤ 2 ^ 31)
    (threads : Nat) {e : Event ι} (he : e.Within p.store.capacity) (hfit : (p.step e).2.Addressable) :
    (∀ w ∈ e.words p threads, w.Exact) ∧ (p.step e).2.Entered := by
  cases e with
  | place data => exact placeWords_exact hp h hcapacity threads data hfit
  | placeRepeat data earlier =>
    have hfit : (p.placeRepeat data earlier).2.Addressable := hfit
    show (∀ w ∈ (if (p.record? earlier).any (p.storesAs · data) then [] else p.placeWords threads data),
      w.Exact) ∧ (p.placeRepeat data earlier).2.Entered
    rcases p.placeRepeat_cases data earlier with ⟨r, hr, hs, heq⟩ | heq <;> rw [heq] at hfit ⊢
    · have hany : (p.record? earlier).any (p.storesAs · data) = true := by
        rw [hr]
        exact hs
      rw [if_pos hany]
      exact ⟨fun w hw => (nomatch hw), h.of_extends (Alike.counted p _).extends ⟨rfl, rfl⟩⟩
    · obtain ⟨hexact, hentered⟩ := placeWords_exact hp h hcapacity threads data hfit
      refine ⟨?_, hentered⟩
      intro w hw
      split at hw
      · cases hw
      · exact hexact w hw
  | addBlockSize size =>
    have hle : size ≤ p.store.capacity := he
    refine ⟨fun w hw => (nomatch hw), fun n hn => ?_, h.windowed⟩
    rcases Std.TreeSet.mem_insert.mp hn with hn | hn
    · obtain rfl := Std.compare_eq_iff_eq.mp hn
      omega
    · exact h.blockSizes n hn
  | tamper index => exact he.elim
  | obstructed data earlier => exact he.elim

theorem run_healthy (h : Healthy V p) (hentered : p.Entered) (hcapacity : p.store.capacity ≤ 2 ^ 31)
    {events : List (Event ι)} (hevents : ∀ e ∈ events, e.Within p.store.capacity)
    (hfit : (p.run events).2.Addressable) :
    Healthy V (p.run events).2 ∧ (p.run events).2.Entered := by
  induction events generalizing p with
  | nil => exact ⟨h, hentered⟩
  | cons e rest ih =>
    have he := hevents e List.mem_cons_self
    have hstep := (run_extends _ rest).addressable hfit
    have hcap := (p.step_extends e).store.capacity
    refine ih (step_healthy h he.not_tamper hstep)
      (step_words_exact h.consistent hentered hcapacity 1 he hstep).2 (hcap ▸ hcapacity)
      (?_) hfit
    intro e' he'
    rw [hcap]
    exact hevents e' (List.mem_cons_of_mem e he')

/-! ## Without a place for containers -/

/-- A placement that has no container and can make none. -/
structure Barren (p : Placement ι) : Prop where
  consistent : p.Consistent
  none : p.store.count = 0
  staging : p.store.staging = .missing

omit [Catalog ι] in
theorem Barren.of_alike (h : Barren p) (halike : p.Alike q) : Barren q :=
  ⟨halike.consistent h.consistent, halike.store ▸ h.none, halike.store ▸ h.staging⟩

omit [Catalog ι] in
/-- Where there is no container, nothing is stored. -/
theorem Barren.not_holds (h : Barren p) {l : Location} {data : ByteArray} :
    p.store.holds l data ≠ true := fun hholds =>
  absurd (ContainerStore.holds_iff.mp hholds).1 (h.none ▸ Nat.not_lt_zero _)

omit [Catalog ι] in
theorem Barren.not_stores (h : Barren p) {hit : Hit} {data : ByteArray} : ¬ hit.Stores p data := by
  intro hstores
  cases hit with
  | block b =>
    obtain ⟨r, -, hr⟩ := hstores
    exact h.not_holds (storesAs_iff.mp hr).2
  | window l => exact h.not_holds hstores

theorem place_barren (h : Barren p) (data : ByteArray) :
    (∃ e, (p.place data).1 = .error e) ∧ Barren (p.place data).2 := by
  have halike := p.lookup_alike data
  rcases p.place_cases data with ⟨e, q, hq, heq⟩ | ⟨hit, q, hq, heq⟩ | ⟨q, hq, heq⟩
  · rw [hq] at halike
    rw [heq]
    exact ⟨⟨e, rfl⟩, h.of_alike halike⟩
  · exact absurd (lookup_stores (congrArg Prod.fst hq)) h.not_stores
  · rw [hq] at halike
    have hbarren := h.of_alike halike
    rw [heq]
    rcases q.carryOut_cases (q.writePlan data) (p.settings.hash data) data
        (p.settings.dedup.indexes data) with
      ⟨e, -, hcarry⟩ | ⟨id, r, e, hc, -, -⟩ | ⟨id, r, newSize, store, hc, -, -⟩
    · rw [hcarry]
      exact ⟨⟨e, rfl⟩, hbarren⟩
    all_goals
      have hready := writePlan_ready hbarren.consistent.store data
      unfold containerFor at hc
      generalize q.writePlan data = plan at hready hc
      cases hready with
      | existing id_lt _ _ => exact absurd id_lt (hbarren.none ▸ Nat.not_lt_zero _)
      | fresh =>
        rw [ContainerStore.create, if_pos hbarren.staging] at hc
        cases hc

theorem placeRepeat_barren (h : Barren p) (data : ByteArray) (earlier : BlockNum) :
    (∃ e, (p.placeRepeat data earlier).1 = .error e) ∧ Barren (p.placeRepeat data earlier).2 := by
  rcases p.placeRepeat_cases data earlier with ⟨r, -, hr, -⟩ | heq
  · exact absurd (storesAs_iff.mp hr).2 h.not_holds
  · rw [heq]
    exact place_barren h data

theorem step_barren (h : Barren p) (e : Event ι) :
    (∀ answer, (p.step e).1 = some answer → ∃ f, answer = .error f) ∧ Barren (p.step e).2 := by
  have failed {out : Except Failure BlockNum × Placement ι}
      (hout : (∃ f, out.1 = .error f) ∧ Barren out.2) :
      (∀ answer, some out.1 = some answer → ∃ f, answer = .error f) ∧ Barren out.2 := by
    obtain ⟨⟨f, hf⟩, hbarren⟩ := hout
    exact ⟨fun answer ha => ⟨f, (Option.some.inj ha).symm.trans hf⟩, hbarren⟩
  cases e with
  | place data => exact failed (place_barren h data)
  | placeRepeat data earlier => exact failed (placeRepeat_barren h data earlier)
  | addBlockSize size =>
    exact ⟨fun _ ha => absurd ha.symm (Option.some_ne_none _), h.consistent.congr rfl rfl rfl, h.none,
      h.staging⟩
  | tamper index =>
    exact ⟨fun _ ha => absurd ha.symm (Option.some_ne_none _), h.consistent.congr rfl rfl rfl, h.none,
      h.staging⟩
  | obstructed data earlier =>
    rcases p.step_obstructed data earlier with ⟨-, heq⟩ | ⟨b, -, heq⟩ | heq <;> rw [heq]
    · exact failed (place_barren h data)
    · exact failed (placeRepeat_barren h data b)
    · exact @failed (_, _) ⟨⟨_, rfl⟩, h.of_alike (p.lookup_alike data)⟩

/-- Such a placement returns no number. -/
theorem run_barren (h : Barren p) {events : List (Event ι)} {b : BlockNum} :
    .ok b ∉ (p.run events).1 := by
  induction events generalizing p with
  | nil => exact List.not_mem_nil
  | cons e rest ih =>
    obtain ⟨hfailed, hbarren⟩ := step_barren h e
    intro hmem
    rcases List.mem_append.mp hmem with hmem | hmem
    · obtain ⟨f, hf⟩ := hfailed _ (Option.mem_toList.mp hmem)
      cases hf
    · exact ih hbarren hmem

/-! ## Main result -/

/-- **A placement that fills its catalog itself does not fail**, and stays inside its limits. For every
call of a run from an empty store and a fresh catalog, which may lose entries but makes none up: a block
gets a number; no word operation leaves the words; every block entry names a block of the table and every
window entry a stretch inside its container; no container is longer than the capacity; and a container
that was written to has room for the reserve, unless the write overlapped stored bytes or started the
container. -/
theorem placement_succeeds (V : LossyView ι) (settings : PlacementSettings) (capacity reserve : Nat)
    (staging : Staging) (index : Option ι) (threads : Nat) (before : List (Event ι)) (event : Event ι)
    (hreserve : reserve ≤ capacity) (hcapacity : capacity ≤ 2 ^ 31) (hstaging : staging ≠ .missing)
    (hindex : ∀ x, index = some x → V.Fresh x)
    (hevents : ∀ e ∈ before ++ [event], e.Within capacity) :
    let p := ((start settings (.empty capacity reserve staging) index).run before).2
    let q := (p.step event).2
    q.Addressable →
      (∀ w ∈ event.words p threads, w.Exact) ∧
      (∀ x, q.index = some x → ∀ entry, V.Holds x entry → q.EntryValid entry) ∧
      (∀ id, q.store.size id ≤ capacity) ∧
      (∀ data, event.data? = some data → ∃ b, (p.step event).1 = some (.ok b)) ∧
      (∀ data, event.data? = some data → event.Writes p →
        ∃ b r, (p.step event).1 = some (.ok b) ∧ q.record? b = some r ∧ Wrote p q data r) := by
  intro p q hfit
  have hstart : Healthy V (start settings (.empty capacity reserve staging) index) :=
    start_healthy (by omega) hstaging hindex
  have hentered : (start settings (.empty capacity reserve staging) index).Entered :=
    ⟨fun n hn => absurd hn Std.TreeSet.not_mem_emptyc, fun _ _ _ => Nat.zero_le _⟩
  have hbefore : ∀ e ∈ before, e.Within capacity := fun e he =>
    hevents e (List.mem_append_left _ he)
  have hstep : p.Extends q := p.step_extends event
  obtain ⟨hp, hpe⟩ := run_healthy hstart hentered hcapacity hbefore (hstep.addressable hfit)
  have hgrows : (start settings (.empty capacity reserve staging) index).store.Grows p.store :=
    (run_extends _ before).store
  have hcap : p.store.capacity = capacity := hgrows.capacity
  have hres : p.store.reserve = reserve := hgrows.reserve
  have hevent : event.Within p.store.capacity :=
    hcap ▸ hevents event (List.mem_append_right _ (List.mem_singleton_self event))
  have hq : Healthy V q := step_healthy hp hevent.not_tamper hfit
  have hle : p.store.capacity ≤ 2 ^ 31 := hcap ▸ hcapacity
  have hroom : p.store.reserve ≤ p.store.capacity := by
    rw [hcap, hres]
    exact hreserve
  refine ⟨(step_words_exact hp.consistent hpe hle threads hevent hfit).1, hq.sound.entries,
    ?_, fun data hdata => step_ok hp hevent hdata,
    fun data hdata hwrites => step_wrote hp hroom hevent hfit hdata hwrites⟩
  intro id
  rw [← hcap, ← hstep.store.capacity]
  exact hq.consistent.store.size_le id

set_option maxRecDepth 1000000 in
/-- The block `1 2` overlaps the block `0 1`; all hashes are the same, and the catalog is so small that
entries of it are lost. -/
theorem placement_succeeds_when_colliding :
    let p := ((start (collidingSettings .all) (.empty 4 1 .memory)
      (some (BlockIndex.emptyTables ⟨1, 2, 2⟩ ⟨1, 2, 2⟩))).run [.addBlockSize 2, .place ⟨#[0, 1]⟩]).2
    let q := (p.step (.place ⟨#[1, 2]⟩)).2
    (∀ w ∈ (Event.place ⟨#[1, 2]⟩).words p 2, w.Exact) ∧ (∀ id, q.store.size id ≤ 4) ∧
      ∃ b, (p.step (.place ⟨#[1, 2]⟩)).1 = some (.ok b) := by
  obtain ⟨hwords, -, hsizes, hnumber, -⟩ :=
    placement_succeeds BlockIndex.tableView.toLossyView (collidingSettings .all) 4 1 .memory
      (some (BlockIndex.emptyTables ⟨1, 2, 2⟩ ⟨1, 2, 2⟩)) 2 [.addBlockSize 2, .place ⟨#[0, 1]⟩]
      (.place ⟨#[1, 2]⟩) (by decide) (by decide) (by decide)
      (fun x hx => Option.some.inj hx ▸ BlockIndex.emptyTables_fresh _ _)
      (by simp [Event.Within]; decide) ⟨by cbv, by cbv⟩
  exact ⟨hwords, hsizes, hnumber _ rfl⟩

end DedupImage.Placement
