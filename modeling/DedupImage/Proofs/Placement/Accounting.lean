import DedupImage.Proofs.Placement.Numbering

/-!
# The counts account for every byte

A call that returns a number does one of three things (`Outcome`): it reuses a block of the table, it makes
a window a block, or it writes the part of a block that is not stored yet. What it counts, what it adds to
the containers and what it adds to the block table are read off these three, and sums over a run follow
by adding up the calls (`Account`, `run_account`).

The containers themselves are accounted for by `ContainerStore.total`: a new one holds nothing, and a
write adds to it as many bytes as it is said to (`Appended.total_eq`).

A block that was not reused adds at most one record. In a mode without overlaps it adds exactly one:
it starts where its container ended, and no record that is in the table reaches further than its
container (`Ended`).
-/

namespace DedupImage

/-! ## Bytes of all containers -/

namespace ContainerStore

variable {s t : ContainerStore}

/-- The bytes of all containers. -/
def total (s : ContainerStore) : Nat := ∑ id ∈ Finset.range s.count, s.size id

theorem total_eq_sum (s : ContainerStore) : s.total = (s.contents.toList.map ByteArray.size).sum := by
  unfold total count size data
  rw [Finset.sum_range, ← Fin.sum_univ_fun_getElem]
  apply Finset.sum_congr rfl
  intro i _
  rw [Array.getD_eq_getD_getElem?, Array.getElem?_eq_getElem i.isLt]
  rfl

/-- The store for a write to container `id`: as it was, or with this container made. -/
def Opened (s : ContainerStore) (id : Nat) (t : ContainerStore) : Prop :=
  (t = s ∧ id < s.count) ∨ s.create = .ok (id, t)

theorem Opened.data_eq {id : Nat} (h : s.Opened id t) : t.data = s.data := by
  rcases h with ⟨rfl, -⟩ | hcreate
  · rfl
  · exact (create_ok hcreate).2.2.1

theorem Opened.size_eq {id : Nat} (h : s.Opened id t) (k : Nat) : t.size k = s.size k := by
  unfold size
  rw [h.data_eq]

theorem Opened.total_eq {id : Nat} (h : s.Opened id t) : t.total = s.total := by
  have hdata := h.data_eq
  rcases h with ⟨rfl, -⟩ | hcreate
  · rfl
  · have hcount := (create_ok hcreate).2.1
    unfold total size
    rw [hdata, hcount, Finset.sum_range_succ, data_of_le (Nat.le_refl _)]
    rfl

theorem Opened.lt {id : Nat} (h : s.Opened id t) : id < t.count := by
  rcases h with ⟨rfl, hlt⟩ | hcreate
  · exact hlt
  · obtain ⟨rfl, hcount, -⟩ := create_ok hcreate
    omega

/-- A write adds what its container grew by. -/
theorem Appended.total_eq {id base newSize : Nat} {block : ByteArray}
    (h : s.Appended t id base newSize block) (hid : id < s.count) :
    t.total + s.size id = s.total + newSize := by
  have hmem : id ∈ Finset.range s.count := Finset.mem_range.mpr hid
  have hothers : ∑ k ∈ (Finset.range s.count).erase id, t.size k =
      ∑ k ∈ (Finset.range s.count).erase id, s.size k := by
    apply Finset.sum_congr rfl
    intro k hk
    unfold size
    rw [h.other k (Finset.ne_of_mem_erase hk)]
  unfold total
  rw [h.count, ← Finset.add_sum_erase _ _ hmem, ← Finset.add_sum_erase _ s.size hmem, hothers,
    h.size_eq hid]
  omega

end ContainerStore

namespace Placement

variable {ι : Type} {p q r : Placement ι}

/-! ## Counts -/

/-- The counts differ at most in the number of windows. -/
def CountsAlike (p q : Placement ι) : Prop := ∃ n, q.stats = { p.stats with windowEntries := n }

theorem CountsAlike.refl (p : Placement ι) : CountsAlike p p := ⟨p.stats.windowEntries, rfl⟩

theorem CountsAlike.trans (h : CountsAlike p q) (h' : CountsAlike q r) : CountsAlike p r := by
  obtain ⟨n, hn⟩ := h
  obtain ⟨n', hn'⟩ := h'
  exact ⟨n', by rw [hn', hn]⟩

/-- What a call that returned a number added to the counts. -/
structure Counted (p q : Placement ι) (reused written overlapped : Nat) : Prop where
  placed : q.stats.placed = p.stats.placed + 1
  reused : q.stats.reused = p.stats.reused + reused
  written : q.stats.writtenBytes = p.stats.writtenBytes + written
  overlapped : q.stats.overlappedBytes = p.stats.overlappedBytes + overlapped

theorem Counted.later {reused written overlapped : Nat} (h : Counted p q reused written overlapped)
    (h' : CountsAlike q r) : Counted p r reused written overlapped := by
  obtain ⟨n, hn⟩ := h'
  exact ⟨hn ▸ h.placed, hn ▸ h.reused, hn ▸ h.written, hn ▸ h.overlapped⟩

theorem register_stats (p : Placement ι) (r : BlockRecord) : (p.register r).2.stats = p.stats := by
  rcases p.register_cases r with ⟨b, -, h⟩ | ⟨-, h⟩ <;> rw [h]

/-- What registering a record makes of the block table depends on nothing but the table. -/
theorem register_blocks_congr (hblocks : q.blocks = p.blocks) (hnumbers : q.numbers = p.numbers)
    (r : BlockRecord) : (q.register r).2.blocks = (p.register r).2.blocks := by
  unfold register
  rw [hnumbers]
  cases p.numbers[r.code]? with
  | none => exact congrArg (·.push r) hblocks
  | some b => exact hblocks

/-- Choosing the container of a plan counts nothing. -/
theorem containerFor_opened {plan : WritePlan} {data : ByteArray} {id : Nat}
    (hready : plan.Ready p data) (h : p.containerFor plan = .ok (id, q)) :
    ∃ store, p.store.Opened id store ∧ q = { p with store := store } := by
  cases hready with
  | existing id_lt lays _ =>
    obtain ⟨rfl, rfl⟩ := Prod.mk.inj (Except.ok.inj h)
    exact ⟨p.store, .inl ⟨rfl, id_lt⟩, rfl⟩
  | fresh =>
    rcases containerFor_cases h with ⟨hplan, -⟩ | ⟨store, -, hcreate, rfl⟩
    · cases hplan
    · exact ⟨store, .inr hcreate, rfl⟩

variable [Catalog ι]

/-- Of the counts, entering windows changes the number of windows only. -/
theorem keptByWindows_countsAlike : KeptByWindows (CountsAlike (ι := ι)) where
  refl := .refl
  trans := .trans
  addWindow p l window := by
    unfold addWindow
    cases p.index with
    | none => exact .refl p
    | some index =>
      dsimp only
      split <;> exact ⟨_, rfl⟩

theorem predict_counts (p : Placement ι) (l : Location) (length : Nat) :
    p.CountsAlike (p.predict l length) :=
  keptByWindows_countsAlike.predict p l length

theorem enterDueWindows_counts (p : Placement ι) (container size : Nat) (overlapped : Bool) :
    p.CountsAlike (p.enterDueWindows container size overlapped) :=
  keptByWindows_countsAlike.enterDueWindows (fun p _ => .refl p) p container size overlapped

/-- A look-up counts its call. -/
theorem lookup_stats (p : Placement ι) (data : ByteArray) :
    (p.lookup data).2.stats = { p.stats with placed := p.stats.placed + 1 } := by
  obtain ⟨index, h⟩ := p.lookup_eq_index data
  rw [h]

/-! ## The outcomes of a call -/

/-- Windows are used only in modes that overlap. -/
theorem overlaps_of_lookup {data : ByteArray} {l : Location}
    (h : (p.lookup data).1 = .ok (some (.window l))) : p.settings.dedup.overlaps = true := by
  unfold lookup at h
  dsimp only at h
  split at h
  · unfold findHit at h
    split at h
    · cases h
    · dsimp only at h
      split at h
      · cases h
      · cases h
      · unfold findWindowHit at h
        split at h
        · assumption
        · cases h
  · cases h

/-- What a call that places some bytes does if it returns a number. -/
inductive Outcome (p : Placement ι) (data : ByteArray) (q : Placement ι) : Prop
  | reused (store : q.store = p.store) (blocks : q.blocks = p.blocks) (counts : Counted p q 1 0 0)
  | promoted (l : Location) (overlaps : p.settings.dedup.overlaps = true)
      (stored : p.store.holds l data = true) (store : q.store = p.store)
      (blocks : q.blocks = (p.register ⟨l, data.size⟩).2.blocks)
      (counts : Counted p q 0 0 data.size)
  | written (id newSize : Nat) (fit : Fit) (store : ContainerStore)
      (opened : p.store.Opened id store) (lays : fit.Lays (store.data id) data)
      (appended : store.Appended q.store id fit.base newSize data)
      (behind : p.settings.dedup.overlaps = false → store.size id = fit.base)
      (blocks : q.blocks = (p.register ⟨Location.ofNat id fit.base, data.size⟩).2.blocks)
      (counts : Counted p q 0 fit.added (fit.shared data.size))

theorem useHit_outcome {data : ByteArray} {hit : Hit} {hash : UInt32} (halike : Alike p q)
    (hstats : q.stats = { p.stats with placed := p.stats.placed + 1 }) (hstores : hit.Stores p data)
    (hwindow : ∀ l, hit = .window l → p.settings.dedup.overlaps = true) :
    Outcome p data (q.useHit hash hit data.size).2 := by
  rw [useHit_eq]
  have hpredict := predict_alike (q.takeHit hash hit data.size).2 (q.hitLocation hit) data.size
  have hcounts := predict_counts (q.takeHit hash hit data.size).2 (q.hitLocation hit) data.size
  cases hit with
  | block b =>
    refine .reused (hpredict.store.trans halike.store) (hpredict.blocks.trans halike.blocks)
      (Counted.later ?_ hcounts)
    constructor <;> simp [takeHit, hstats]
  | window l =>
    have hreleased := halike.trans (q.releaseWindow_alike hash l data.size)
    have henrolled : ((q.releaseWindow hash l data.size).enrol ⟨l, data.size⟩ hash true).2.stats =
        (q.releaseWindow hash l data.size).stats := register_stats _ _
    unfold takeHit at hpredict hcounts ⊢
    dsimp only at hpredict hcounts ⊢
    rw [promote_eq] at hpredict hcounts ⊢
    refine .promoted l (hwindow l rfl) hstores ?_ ?_ (Counted.later ?_ hcounts)
    · rw [hpredict.store, enrol_store, hreleased.store]
    · exact hpredict.blocks.trans (register_blocks_congr hreleased.blocks hreleased.numbers _)
    · constructor <;> rw [henrolled] <;> simp [releaseWindow, hstats]

theorem carryOut_outcome {data : ByteArray} {hash : UInt32} {indexed : Bool} {b : BlockNum}
    (halike : Alike p q) (hstats : q.stats = { p.stats with placed := p.stats.placed + 1 })
    (hp : p.Consistent) (h : (q.carryOut (q.writePlan data) hash data indexed).1 = .ok b) :
    Outcome p data (q.carryOut (q.writePlan data) hash data indexed).2 := by
  have hq := halike.consistent hp
  have hready := writePlan_ready hq.store data
  rcases q.carryOut_cases (q.writePlan data) hash data indexed with
    ⟨e, -, hout⟩ | ⟨id, r, e, -, -, hout⟩ | ⟨id, r, newSize, store, hc, ha, hout⟩ <;> rw [hout] at h ⊢
  · cases h
  · cases h
  · obtain ⟨-, hlays, -⟩ := containerFor_lays hq hready hc
    have hbehind (hoverlaps : p.settings.dedup.overlaps = false) :
        r.store.size id = (q.writePlan data).fit.base :=
      containerFor_append (halike.settings ▸ hoverlaps) hc
    obtain ⟨opened, hopened, rfl⟩ := containerFor_opened hready hc
    dsimp only at hlays hbehind ha
    generalize (q.writePlan data).fit = fit at *
    let w : Placement ι := { q with store := opened }
    have hdue := enterDueWindows_alike (w.enrolWritten store id fit hash data.size indexed).2 id newSize
      (decide (0 < fit.shared data.size))
    have hcounts := enterDueWindows_counts (w.enrolWritten store id fit hash data.size indexed).2 id newSize
      (decide (0 < fit.shared data.size))
    have hstore : ((w.enrolWritten store id fit hash data.size indexed).2.enterDueWindows id newSize
        (decide (0 < fit.shared data.size))).store = store :=
      hdue.store.trans (enrol_store (w.written store fit data.size) _ hash indexed)
    have henrolled : (w.enrolWritten store id fit hash data.size indexed).2.stats =
        (w.written store fit data.size).stats := register_stats _ _
    refine .written id newSize fit opened (halike.store ▸ hopened) hlays ?_ hbehind ?_
      (Counted.later ?_ hcounts)
    · rw [hstore]
      exact ContainerStore.append_ok ha
    · have hsame := register_blocks_congr (q := w.written store fit data.size) halike.blocks halike.numbers
      exact hdue.blocks.trans (hsame _)
    · constructor <;> rw [henrolled] <;> simp [w, written, hstats]

/-- **A call that returns a number** reuses a block, or makes a window a block, or writes one. -/
theorem place_outcome (hp : p.Consistent) {data : ByteArray} {b : BlockNum}
    (h : (p.place data).1 = .ok b) : Outcome p data (p.place data).2 := by
  have halike := p.lookup_alike data
  have hstats := p.lookup_stats data
  rcases p.place_cases data with ⟨e, q, hq, hout⟩ | ⟨hit, q, hq, hout⟩ | ⟨q, hq, hout⟩ <;>
    rw [hq] at halike hstats <;> rw [hout] at h ⊢
  · cases h
  · have hstores : hit.Stores p data := lookup_stores (by rw [hq])
    refine useHit_outcome halike hstats hstores ?_
    rintro l rfl
    exact overlaps_of_lookup (by rw [hq])
  · exact carryOut_outcome halike hstats hp h

theorem placeRepeat_outcome (hp : p.Consistent) {data : ByteArray} {earlier b : BlockNum}
    (h : (p.placeRepeat data earlier).1 = .ok b) : Outcome p data (p.placeRepeat data earlier).2 := by
  rcases p.placeRepeat_cases data earlier with ⟨r, -, -, hout⟩ | hout <;> rw [hout] at h ⊢
  · exact .reused rfl rfl ⟨rfl, rfl, rfl, rfl⟩
  · exact place_outcome hp h

theorem step_outcome (hp : p.Consistent) {e : Event ι} {data : ByteArray} {b : BlockNum}
    (hdata : e.data? = some data) (h : (p.step e).1 = some (.ok b)) :
    Outcome p data (p.step e).2 := by
  cases e with
  | place data' =>
    obtain rfl := Option.some.inj hdata
    exact place_outcome hp (Option.some.inj h)
  | placeRepeat data' earlier =>
    obtain rfl := Option.some.inj hdata
    exact placeRepeat_outcome hp (Option.some.inj h)
  | addBlockSize size => cases hdata
  | tamper index => cases hdata
  | obstructed data' earlier =>
    obtain rfl := Option.some.inj hdata
    rcases p.step_obstructed data' earlier with ⟨-, heq⟩ | ⟨b', -, heq⟩ | heq <;> rw [heq] at h ⊢
    · exact place_outcome hp (Option.some.inj h)
    · exact placeRepeat_outcome hp (Option.some.inj h)
    · cases h

/-! ## What an outcome adds -/

omit [Catalog ι] in
theorem mem_register_blocks {r' : BlockRecord} {r : BlockRecord}
    (h : r' ∈ (p.register r).2.blocks) : r' ∈ p.blocks ∨ r' = r := by
  rcases p.register_cases r with ⟨b, -, hr⟩ | ⟨-, hr⟩ <;> rw [hr] at h
  · exact .inl h
  · exact Array.mem_push.mp h

omit [Catalog ι] in
theorem size_register_blocks (p : Placement ι) (r : BlockRecord) :
    p.blocks.size ≤ (p.register r).2.blocks.size ∧
      (p.register r).2.blocks.size ≤ p.blocks.size + 1 := by
  rcases p.register_cases r with ⟨b, -, hr⟩ | ⟨-, hr⟩ <;> rw [hr]
  · exact ⟨Nat.le_refl _, Nat.le_succ _⟩
  · rw [Array.size_push]
    exact ⟨Nat.le_succ _, Nat.le_refl _⟩

omit [Catalog ι] in
theorem size_register_blocks_of_not_mem (hp : p.Consistent) {r : BlockRecord} (h : r ∉ p.blocks) :
    (p.register r).2.blocks.size = p.blocks.size + 1 := by
  have hnew : ∀ b, p.record? b ≠ some r := fun b hb => h (Array.mem_of_getElem? hb)
  rw [(register_of_new hp hnew).2, Array.size_push]

/-- What a part of a run comes to: so many calls, of which those for the blocks listed reused none. -/
structure Account (p q : Placement ι) (calls : Nat) (fresh : List ByteArray) : Prop where
  placed : q.stats.placed = p.stats.placed + calls
  reused : q.stats.reused + fresh.length = p.stats.reused + calls
  bytes : q.stats.writtenBytes + q.stats.overlappedBytes =
    p.stats.writtenBytes + p.stats.overlappedBytes + (fresh.map ByteArray.size).sum
  written : q.stats.writtenBytes + p.store.total = p.stats.writtenBytes + q.store.total
  blocks_le : q.blocks.size ≤ p.blocks.size + fresh.length
  /-- Every container was made for a record. -/
  containers : q.store.count + p.blocks.size ≤ p.store.count + q.blocks.size

omit [Catalog ι] in
theorem Account.trans {calls calls' : Nat} {fresh fresh' : List ByteArray}
    (h : Account p q calls fresh) (h' : Account q r calls' fresh') :
    Account p r (calls + calls') (fresh ++ fresh') := by
  obtain ⟨hplaced, hreused, hbytes, hwritten, hblocks, hcontainers⟩ := h
  obtain ⟨hplaced', hreused', hbytes', hwritten', hblocks', hcontainers'⟩ := h'
  have hlength : (fresh ++ fresh').length = fresh.length + fresh'.length := List.length_append
  have hsum : ((fresh ++ fresh').map ByteArray.size).sum =
      (fresh.map ByteArray.size).sum + (fresh'.map ByteArray.size).sum := by
    rw [List.map_append, List.sum_append]
  constructor <;> omega

omit [Catalog ι] in
/-- Nothing is accounted for where nothing happened. -/
theorem Account.of_eq (hstats : q.stats = p.stats) (hstore : q.store = p.store)
    (hblocks : q.blocks = p.blocks) : Account p q 0 [] := by
  constructor <;> simp [hstats, hstore, hblocks]

omit [Catalog ι] in
/-- A call that reused no block accounts for the bytes of its own. -/
theorem Account.single {data : ByteArray} {written overlapped : Nat}
    (hcounts : Counted p q 0 written overlapped) (hbytes : written + overlapped = data.size)
    (htotal : q.store.total = p.store.total + written)
    (hblocks : q.blocks.size ≤ p.blocks.size + 1)
    (hcontainers : q.store.count + p.blocks.size ≤ p.store.count + q.blocks.size) :
    Account p q 1 (if q.stats.reused = p.stats.reused then [data] else []) := by
  obtain ⟨hplaced, hreused, hwritten, hoverlapped⟩ := hcounts
  rw [if_pos (by omega)]
  refine ⟨hplaced, congrArg (· + 1) hreused, ?_, by omega, hblocks, hcontainers⟩
  rw [List.map_singleton, List.sum_singleton]
  omega

/-- No record reaches further than its container. -/
def Ended (p : Placement ι) : Prop :=
  ∀ r ∈ p.blocks, r.location.offset.toNat + r.length ≤ p.store.size r.location.container.toNat

namespace Outcome

variable {data : ByteArray}

omit [Catalog ι] in
/-- The words of the location at which a block was written. -/
theorem location_ofNat (hp : p.Consistent) (hcount : p.store.count < 2 ^ 32) {id base : Nat}
    {store : ContainerStore} (hopened : p.store.Opened id store) (hbase : base ≤ store.size id) :
    (Location.ofNat id base).container.toNat = id ∧ (Location.ofNat id base).offset.toNat = base := by
  have hid : id < 2 ^ 32 := by
    rcases hopened with ⟨-, hlt⟩ | hcreate
    · omega
    · rw [(ContainerStore.create_ok hcreate).1]
      exact hcount
  have hsize := hopened.size_eq id
  have hcapacity := hp.store.size_le id
  have hlt := hp.capacity_lt
  exact ⟨Location.container_ofNat hid, Location.offset_ofNat (by omega)⟩

omit [Catalog ι] in
/-- A container that was made for a block has no record yet. -/
theorem count_le (hp : p.Consistent) (hcount : p.store.count < 2 ^ 32) {id base length : Nat}
    {store : ContainerStore} (hopened : p.store.Opened id store) (hbase : base ≤ store.size id) :
    store.count + p.blocks.size ≤
      p.store.count + (p.register ⟨Location.ofNat id base, length⟩).2.blocks.size := by
  obtain ⟨hle, -⟩ := p.size_register_blocks ⟨Location.ofNat id base, length⟩
  obtain ⟨hcontainer, -⟩ := location_ofNat hp hcount hopened hbase
  rcases hopened with ⟨rfl, -⟩ | hcreate
  · omega
  · obtain ⟨rfl, hcreated, -⟩ := ContainerStore.create_ok hcreate
    have hnew : (⟨Location.ofNat p.store.count base, length⟩ : BlockRecord) ∉ p.blocks := by
      intro hmem
      have hlt := hp.located _ hmem
      dsimp only at hlt
      omega
    rw [size_register_blocks_of_not_mem hp hnew]
    omega

omit [Catalog ι] in
/-- **What a call adds** to the counts, the containers and the block table. -/
theorem account (h : Outcome p data q) (hp : p.Consistent) (hcount : p.store.count < 2 ^ 32) :
    Account p q 1 (if q.stats.reused = p.stats.reused then [data] else []) := by
  cases h with
  | reused store blocks counts =>
    obtain ⟨hplaced, hreused, hwritten, hoverlapped⟩ := counts
    rw [if_neg (by omega)]
    constructor <;> simp [store, blocks, hplaced, hreused, hwritten, hoverlapped]
  | promoted l overlaps stored store blocks counts =>
    obtain ⟨hle, hle'⟩ := p.size_register_blocks ⟨l, data.size⟩
    rw [← blocks] at hle hle'
    exact .single counts (Nat.zero_add _) (congrArg _ store) hle' (by rw [store]; omega)
  | written id newSize fit store opened lays appended behind blocks counts =>
    obtain ⟨-, hle'⟩ := p.size_register_blocks ⟨Location.ofNat id fit.base, data.size⟩
    rw [← blocks] at hle'
    have htotal := appended.total_eq opened.lt
    have hopened := opened.total_eq
    have hnewSize := appended.newSize
    have hold : fit.oldSize = store.size id := lays.oldSize
    have hnew : fit.newSize = max (store.size id) (fit.base + data.size) := lays.newSize
    have hbase := appended.base_le
    refine .single counts ?_ ?_ hle' ?_
    · unfold Fit.shared Fit.added
      omega
    · unfold Fit.added
      omega
    · rw [appended.count, blocks]
      exact count_le hp hcount opened hbase

omit [Catalog ι] in
theorem ended (h : Outcome p data q) (hp : p.Consistent) (hcount : p.store.count < 2 ^ 32)
    (hgrows : p.store.Grows q.store) (hended : p.Ended) : q.Ended := by
  have hkept : ∀ r ∈ p.blocks,
      r.location.offset.toNat + r.length ≤ q.store.size r.location.container.toNat :=
    fun r hr => (hended r hr).trans (hgrows.size_le _)
  intro r hr
  cases h with
  | reused store blocks counts => exact hkept r (blocks ▸ hr)
  | promoted l overlaps stored store blocks counts =>
    rw [blocks] at hr
    rcases mem_register_blocks hr with hr | rfl
    · exact hkept r hr
    · rw [store]
      exact ContainerStore.end_le_of_holds stored
  | written id newSize fit store opened lays appended behind blocks counts =>
    rw [blocks] at hr
    rcases mem_register_blocks hr with hr | rfl
    · exact hkept r hr
    · obtain ⟨hcontainer, hoffset⟩ := location_ofNat hp hcount opened appended.base_le
      dsimp only
      rw [hcontainer, hoffset, appended.size_eq opened.lt, appended.newSize]
      exact Nat.le_max_right _ _

omit [Catalog ι] in
/-- In a mode without overlaps a block that was not reused adds a record. -/
theorem adds_record (h : Outcome p data q) (hp : p.Consistent) (hcount : p.store.count < 2 ^ 32)
    (hended : p.Ended) (hoverlaps : p.settings.dedup.overlaps = false) (hdata : 0 < data.size)
    (hreused : q.stats.reused = p.stats.reused) : q.blocks.size = p.blocks.size + 1 := by
  cases h with
  | reused store blocks counts =>
    have := counts.reused
    omega
  | promoted l overlaps stored store blocks counts =>
    rw [hoverlaps] at overlaps
    cases overlaps
  | written id newSize fit store opened lays appended behind blocks counts =>
    rw [blocks]
    apply size_register_blocks_of_not_mem hp
    intro hmem
    obtain ⟨hcontainer, hoffset⟩ := location_ofNat hp hcount opened appended.base_le
    have hend := hended _ hmem
    have hbehind := behind hoverlaps
    have hsize := opened.size_eq id
    dsimp only at hend
    rw [hcontainer, hoffset] at hend
    omega

omit [Catalog ι] in
/-- A block that was reused adds none. -/
theorem blocks_of_reused (h : Outcome p data q) (hreused : q.stats.reused ≠ p.stats.reused) :
    q.blocks = p.blocks := by
  cases h with
  | reused store blocks counts => exact blocks
  | promoted l overlaps stored store blocks counts => exact absurd counts.reused hreused
  | written id newSize fit store opened lays appended behind blocks counts =>
    exact absurd counts.reused hreused

end Outcome

/-! ## Runs -/

/-- The blocks of a run whose calls reused none. -/
def uncounted (p : Placement ι) : List (Event ι) → List ByteArray
  | [] => []
  | e :: rest =>
    (if (p.step e).2.stats.reused = p.stats.reused then e.data?.toList else []) ++
      (p.step e).2.uncounted rest

/-- No block is empty, and every call returned a number. -/
structure ErrorFree (p : Placement ι) (events : List (Event ι)) : Prop where
  nonempty : ∀ e ∈ events, ∀ data, e.data? = some data → 0 < data.size
  answered : ∀ answer ∈ (p.run events).1, ∃ b, answer = .ok b

namespace ErrorFree

variable {e : Event ι} {rest : List (Event ι)}

theorem head (h : p.ErrorFree (e :: rest)) {data : ByteArray} (hdata : e.data? = some data) :
    0 < data.size ∧ ∃ b, (p.step e).1 = some (.ok b) := by
  refine ⟨h.nonempty e List.mem_cons_self data hdata, ?_⟩
  have hanswer : ∀ answer, (p.step e).1 = some answer → ∃ b, answer = .ok b := fun answer ha =>
    h.answered answer (List.mem_append_left _ (Option.mem_toList.mpr ha))
  cases e with
  | place data' =>
    obtain ⟨b, hb⟩ := hanswer _ rfl
    exact ⟨b, congrArg some hb⟩
  | placeRepeat data' earlier =>
    obtain ⟨b, hb⟩ := hanswer _ rfl
    exact ⟨b, congrArg some hb⟩
  | addBlockSize size => cases hdata
  | tamper index => cases hdata
  | obstructed data' earlier =>
    obtain ⟨b, hb⟩ := hanswer _ rfl
    exact ⟨b, congrArg some hb⟩

theorem tail (h : p.ErrorFree (e :: rest)) : (p.step e).2.ErrorFree rest where
  nonempty e' he' := h.nonempty e' (List.mem_cons_of_mem e he')
  answered answer ha := h.answered answer (List.mem_append_right _ ha)

end ErrorFree

/-- A consistent state that has no more containers than blocks. -/
structure Compact (p : Placement ι) : Prop where
  consistent : p.Consistent
  count_le : p.store.count ≤ p.blocks.size

/-- An event that places nothing leaves the blocks, the containers and the counts as they are. -/
theorem step_of_no_data {e : Event ι} (h : e.data? = none) :
    (p.step e).2.blocks = p.blocks ∧ (p.step e).2.store = p.store ∧ (p.step e).2.stats = p.stats := by
  cases e with
  | place data => cases h
  | placeRepeat data earlier => cases h
  | addBlockSize size => exact ⟨rfl, rfl, rfl⟩
  | tamper index => exact ⟨rfl, rfl, rfl⟩
  | obstructed data earlier => cases h

theorem step_account {e : Event ι} {rest : List (Event ι)} (hp : p.Compact)
    (h : p.ErrorFree (e :: rest)) (hfit : (p.step e).2.blocks.size < 2 ^ 32) :
    Account p (p.step e).2 e.data?.toList.length
        (if (p.step e).2.stats.reused = p.stats.reused then e.data?.toList else []) ∧
      (p.step e).2.Compact := by
  have hblocks := (p.step_extends e).size_le
  have hcount : p.store.count < 2 ^ 32 := by
    have := hp.count_le
    omega
  have haccount : Account p (p.step e).2 e.data?.toList.length
      (if (p.step e).2.stats.reused = p.stats.reused then e.data?.toList else []) := by
    cases hdata : e.data? with
    | some data =>
      obtain ⟨-, b, hb⟩ := h.head hdata
      exact (step_outcome hp.consistent hdata hb).account hp.consistent hcount
    | none =>
      obtain ⟨hsame, hstore, hstats⟩ := step_of_no_data (p := p) hdata
      rw [Option.toList_none, ite_self]
      exact .of_eq hstats hstore hsame
  have hcontainers := haccount.containers
  have hle : (p.step e).2.store.count ≤ (p.step e).2.blocks.size := by
    have := hp.count_le
    omega
  exact ⟨haccount, step_consistent hp.consistent e ⟨hfit.le, hle.trans hfit.le⟩, hle⟩

theorem length_filterMap_cons {α β : Type} (f : α → Option β) (a : α) (l : List α) :
    ((a :: l).filterMap f).length = (f a).toList.length + (l.filterMap f).length := by
  cases hf : f a with
  | none => rw [List.filterMap_cons_none hf, Option.toList_none, List.length_nil, Nat.zero_add]
  | some b =>
    rw [List.filterMap_cons_some hf, List.length_cons, Option.toList_some, List.length_singleton,
      Nat.add_comm]

/-- **The account of a run.** -/
theorem run_account {events : List (Event ι)} (hp : p.Compact) (h : p.ErrorFree events)
    (hfit : (p.run events).2.blocks.size < 2 ^ 32) :
    Account p (p.run events).2 (events.filterMap Event.data?).length (p.uncounted events) := by
  induction events generalizing p with
  | nil => exact .of_eq rfl rfl rfl
  | cons e rest ih =>
    obtain ⟨hstep, hcompact⟩ := step_account hp h ((run_extends _ rest).size_le.trans_lt hfit)
    rw [length_filterMap_cons]
    exact hstep.trans (ih hcompact h.tail hfit)

/-- If a call that reuses no block adds a record, every call adds as many records as it has such blocks. -/
theorem step_records {e : Event ι} {rest : List (Event ι)} (hp : p.Consistent)
    (h : p.ErrorFree (e :: rest))
    (hadds : ∀ data, e.data? = some data → (p.step e).2.stats.reused = p.stats.reused →
      (p.step e).2.blocks.size = p.blocks.size + 1) :
    (p.step e).2.blocks.size = p.blocks.size +
      (if (p.step e).2.stats.reused = p.stats.reused then e.data?.toList else []).length := by
  cases hdata : e.data? with
  | some data =>
    obtain ⟨-, b, hb⟩ := h.head hdata
    by_cases hreused : (p.step e).2.stats.reused = p.stats.reused
    · rw [if_pos hreused]
      exact hadds data hdata hreused
    · rw [if_neg hreused, (step_outcome hp hdata hb).blocks_of_reused hreused]
      rfl
  | none =>
    rw [Option.toList_none, ite_self, (step_of_no_data hdata).1]
    rfl

theorem step_ended {e : Event ι} {rest : List (Event ι)} (hp : p.Consistent)
    (hcount : p.store.count < 2 ^ 32) (h : p.ErrorFree (e :: rest)) (hended : p.Ended) :
    (p.step e).2.Ended := by
  cases hdata : e.data? with
  | some data =>
    obtain ⟨-, b, hb⟩ := h.head hdata
    exact (step_outcome hp hdata hb).ended hp hcount (p.step_extends e).store hended
  | none =>
    obtain ⟨hsame, hstore, -⟩ := step_of_no_data (p := p) hdata
    unfold Ended
    rw [hsame, hstore]
    exact hended

/-- In a mode without overlaps every block that was not reused has a record of its own. -/
theorem run_records {events : List (Event ι)} (hp : p.Compact) (hended : p.Ended)
    (hoverlaps : p.settings.dedup.overlaps = false) (h : p.ErrorFree events)
    (hfit : (p.run events).2.blocks.size < 2 ^ 32) :
    (p.run events).2.blocks.size = p.blocks.size + (p.uncounted events).length := by
  induction events generalizing p with
  | nil => rfl
  | cons e rest ih =>
    have hext := p.step_extends e
    have hfit' := (run_extends (p.step e).2 rest).size_le.trans_lt hfit
    have hcount : p.store.count < 2 ^ 32 := by
      have := hp.count_le
      have := hext.size_le
      omega
    have hstep := step_records hp.consistent h fun data hdata hreused => by
      obtain ⟨hpos, b, hb⟩ := h.head hdata
      exact (step_outcome hp.consistent hdata hb).adds_record hp.consistent hcount hended hoverlaps hpos
        hreused
    have hrest := ih (step_account hp h hfit').2 (step_ended hp.consistent hcount h hended)
      (by rw [hext.settings]; exact hoverlaps) h.tail hfit
    rw [hstep, Nat.add_assoc, ← List.length_append] at hrest
    exact hrest

end Placement

end DedupImage
