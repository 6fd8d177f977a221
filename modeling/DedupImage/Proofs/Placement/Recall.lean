import DedupImage.Proofs.Placement.Coverage

/-!
# Stored windows are found again

A placement that looks every block up and overlaps, over a catalog that it filled itself and that loses
nothing, keeps up with its containers: after every call, of each container all but a last part shorter
than the interval has been entered, and each stretch of an announced length that starts at a multiple of
the period in front of that is found if it is placed, without a byte being written
(`stored_windows_are_found`).

It is assumed that no two strings that the run hashes have one hash. Otherwise a window may stay out of
the index because another string is there already, or lose its entry to a block of the same hash. That the
strings hashed are as many as there are hashes at most, is also why no block number runs out.
-/

namespace DedupImage.Placement

variable {ι : Type} [Catalog ι] {V : FullView ι} {S : Set ByteArray} {p q : Placement ι}
  {data : ByteArray}

/-! ## The invariant -/

/-- What every call keeps: the state is in order, its catalog leads nowhere wrong, the windows are kept up
with, and the blocks are different strings. -/
structure Indexed (V : FullView ι) (S : Set ByteArray) (p : Placement ι) : Prop where
  overlaps : p.settings.dedup.overlaps = true
  injective : S.InjOn p.settings.hash
  capacity_le : p.store.capacity ≤ 2 ^ 31
  consistent : p.Consistent
  sound : Sound V.toLossyView p
  entered : p.Entered
  index : ∃ x, p.index = some x
  tracked : Tracked V S p
  distinct : ∃ stored, Distinct V S p stored

theorem Indexed.valid (h : Indexed V S p) : IndexValid V.toKeepingView p := h.sound.valid

/-- Counting changes nothing that matters here. -/
theorem Indexed.counted (h : Indexed V S p) (stats : PlacementStats) :
    Indexed V S { p with stats := stats } :=
  have halike := Alike.counted p stats
  { h with
    consistent := halike.consistent h.consistent
    sound := h.sound.via halike.extends (.of_eq rfl)
    entered := h.entered.of_extends halike.extends ⟨rfl, rfl⟩
    tracked := h.tracked.later h.entered halike.extends ⟨rfl, rfl⟩ (fun _ => rfl)
      fun _ _ hw => hw.later halike.extends fun _ he => he.congr rfl
    distinct := by
      obtain ⟨stored, hstored⟩ := h.distinct
      exact ⟨stored, hstored.congr halike.extends rfl rfl⟩ }

theorem lookup_indexed (h : Indexed V S p)
    (hintact : IndexIntact V.toKeepingView (p.lookup data).2) : Indexed V S (p.lookup data).2 := by
  have halike := p.lookup_alike data
  have hext := halike.extends
  have hnotes := p.lookup_notes data
  have hgathers := p.lookup_gathers (V := V) data
  exact
    { overlaps := hext.settings ▸ h.overlaps
      injective := hext.settings ▸ h.injective
      capacity_le := halike.store ▸ h.capacity_le
      consistent := halike.consistent h.consistent
      sound := h.sound.via hext (lookup_via data)
      entered := h.entered.of_extends hext hnotes
      index := by
        obtain ⟨x, hx⟩ := h.index
        obtain ⟨y, hy, -⟩ := hgathers.asked.after hx
        exact ⟨y, hy⟩
      tracked := h.tracked.later h.entered hext hnotes (fun c => congrArg (·.size c) halike.store)
        fun w _ hw => hw.gathered hext hgathers h.valid hintact
      distinct := by
        obtain ⟨stored, hstored⟩ := h.distinct
        exact ⟨stored, hstored.later hext (congrArg Array.size halike.blocks) hgathers.asked h.valid
          hintact⟩ }

/-! ## Calls -/

/-- Using a hit keeps up: it writes nothing, and what was covered stays covered. -/
theorem useHit_tracked (h : Indexed V S p) {hit : Hit} (hhit : hit.Stores p data) (hdata : data ∈ S)
    (hfit : (p.useHit (p.settings.hash data) hit data.size).2.Addressable)
    (hintact : IndexIntact V.toKeepingView (p.useHit (p.settings.hash data) hit data.size).2) :
    Tracked V S (p.useHit (p.settings.hash data) hit data.size).2 := by
  have hstore := p.useHit_store (p.settings.hash data) hit data.size
  rw [useHit_eq] at hfit hintact hstore ⊢
  have hpredict := predict_alike (p.takeHit (p.settings.hash data) hit data.size).2
    (p.hitLocation hit) data.size
  have hgathers := predict_gathers (V := V) (p.takeHit (p.settings.hash data) hit data.size).2
    (p.hitLocation hit) data.size
  have hvalid := h.valid.asked (takeHit_asked p (p.settings.hash data) hit data.size)
  refine h.tracked.later h.entered ((p.takeHit_extends _ _ _).trans hpredict.extends)
    ((p.takeHit_notes _ _ _).trans (predict_notes _ _ _)) (fun c => congrArg (·.size c) hstore) ?_
  intro w hw hcovered
  have htaken := takeHit_covered h.injective h.consistent h.valid hhit hdata hw
    (hpredict.addressable_iff.mp hfit) (hintact.of_asked hvalid hgathers.asked) hcovered
  exact htaken.gathered hpredict.extends hgathers hvalid hintact

/-- Writing a block keeps up, for the windows that are due are entered. -/
theorem carryOut_tracked (h : Indexed V S p) {plan : WritePlan} (hready : plan.Ready p data)
    {hash : UInt32} {indexed : Bool} (hhashed : ∀ w ∈ p.carryOutHashed plan hash data indexed, w ∈ S)
    (hfit : (p.carryOut plan hash data indexed).2.Addressable)
    (hintact : IndexIntact V.toKeepingView (p.carryOut plan hash data indexed).2) :
    Tracked V S (p.carryOut plan hash data indexed).2 := by
  rcases carryOut_stages h.consistent hready hash indexed with
    ⟨e, q, hout, henlarged, hdata⟩ | ⟨id, base, newSize, overlapped, q, hlanded, hout, hstrings⟩ <;>
    rw [hout] at hfit hintact ⊢
  · exact h.tracked.later h.entered henlarged.grown henlarged.notes
      (fun c => congrArg (·.size) (congrFun hdata c))
      fun w _ hw => hw.later henlarged.grown fun _ he => he.congr henlarged.index
  · rw [hstrings] at hhashed
    dsimp only at hfit hintact ⊢
    have henrol := q.enrol_extends ⟨Location.ofNat id base, data.size⟩ hash indexed
    have hnotes := hlanded.notes.trans (q.enrol_notes ⟨Location.ofNat id base, data.size⟩ hash indexed)
    have hgathers := (Gathers.of_eq (V := V) hlanded.index).trans
      (q.enrol_gathers ⟨Location.ofNat id base, data.size⟩ hash indexed)
    have hstore := q.enrol_store ⟨Location.ofNat id base, data.size⟩ hash indexed
    have hconsistent (hfit : (q.enrol ⟨Location.ofNat id base, data.size⟩ hash indexed).2.Addressable) :
        (q.enrol ⟨Location.ofNat id base, data.size⟩ hash indexed).2.Consistent :=
      (enrol_resolves hlanded.consistent (hlanded.holds (hstore ▸ hfit.containers)) hfit.blocks).2
    -- from here on only what is known of the enrolled state matters
    generalize (q.enrol ⟨Location.ofNat id base, data.size⟩ hash indexed).2 = r at *
    have hr := (r.enterDueWindows_alike id newSize overlapped).addressable_iff.mp hfit
    have hext := hlanded.grown.trans henrol
    have hvalid := h.valid.asked hgathers.asked
    have hintact' := hintact.of_asked hvalid (r.enterDueWindows_asked id newSize overlapped)
    have henterable : Enterable V r id newSize :=
      { consistent := hconsistent hr
        entered := h.entered.of_extends hext hnotes
        index := by
          obtain ⟨x, hx⟩ := h.index
          obtain ⟨y, hy, -⟩ := hgathers.asked.after hx
          exact ⟨y, hy⟩
        valid := hvalid
        count_le := hr.containers
        container_lt := hstore ▸ hlanded.container_lt
        size := hstore ▸ hlanded.size }
    refine enterDueWindows_tracked henterable (hext.settings ▸ h.overlaps) ?_ ?_ hhashed hintact
    · exact h.tracked.covers.later h.entered hext hnotes fun w _ hw =>
        hw.gathered hext hgathers h.valid hintact'
    · intro b hb c hc
      rw [hnotes.blockSizes] at hb
      exact (h.tracked.caughtUp b hb c).same hext.settings hnotes (hstore ▸ hlanded.others c hc)

theorem place_tracked (h : Indexed V S p) (hhashed : ∀ w ∈ p.placeHashed data, w ∈ S)
    (hfit : (p.place data).2.Addressable) (hintact : IndexIntact V.toKeepingView (p.place data).2) :
    Tracked V S (p.place data).2 := by
  have halike := p.lookup_alike data
  have hlookup : Indexed V S (p.lookup data).2 :=
    lookup_indexed h (hintact.of_asked (h.valid.asked (p.lookup_asked data)) (p.place_asked_lookup data))
  have hdata := hhashed data List.mem_cons_self
  unfold placeHashed at hhashed
  rcases p.place_cases data with ⟨e, q, hq, hout⟩ | ⟨hit, q, hq, hout⟩ | ⟨q, hq, hout⟩ <;>
    rw [hq] at halike hlookup hhashed <;> rw [hout] at hfit hintact ⊢
  · exact hlookup.tracked
  · have hstores : hit.Stores p data := lookup_stores (by rw [hq])
    rw [← halike.settings] at hfit hintact ⊢
    exact useHit_tracked hlookup (halike.stores hstores) hdata hfit hintact
  · exact carryOut_tracked hlookup (writePlan_ready hlookup.consistent.store data)
      (fun w hw => hhashed w (List.mem_cons_of_mem data hw)) hfit hintact

theorem place_indexed (h : Indexed V S p) (hhashed : ∀ w ∈ p.placeHashed data, w ∈ S)
    (hcount : (p.place data).2.store.count ≤ 2 ^ 32)
    (hintact : IndexIntact V.toKeepingView (p.place data).2) : Indexed V S (p.place data).2 := by
  have hext := p.place_extends data
  have hasked := p.place_asked data
  have hdata := hhashed data List.mem_cons_self
  obtain ⟨x, hx⟩ := h.index
  obtain ⟨stored, hstored⟩ := h.distinct
  have hblocks := place_blocks_le hstored h.consistent h.sound (hintact.of_asked h.valid hasked) h.overlaps
    h.injective hdata
  have hfit : (p.place data).2.Addressable := ⟨hblocks, hcount⟩
  exact
    { overlaps := hext.settings ▸ h.overlaps
      injective := hext.settings ▸ h.injective
      capacity_le := hext.store.capacity ▸ h.capacity_le
      consistent := (place_resolves h.consistent data hfit).2
      sound := h.sound.via hext (place_valid h.consistent data hfit)
      entered := (placeWords_exact h.consistent h.entered h.capacity_le 1 data hfit).2
      index := by
        obtain ⟨y, hy, -⟩ := hasked.after hx
        exact ⟨y, hy⟩
      tracked := place_tracked h hhashed hfit hintact
      distinct := place_distinct hstored h.consistent h.sound h.overlaps hx hdata hfit hintact }

/-- A repeat that proves true is counted, and any other is placed. -/
theorem placeRepeat_proves (p : Placement ι) (data : ByteArray) (earlier : BlockNum) :
    (∃ stats, p.placeRepeat data earlier = (.ok earlier, { p with stats := stats })) ∨
      ((p.record? earlier).any (p.storesAs · data) = false ∧
        p.placeRepeat data earlier = p.place data) := by
  unfold placeRepeat
  cases p.record? earlier with
  | none => exact .inr ⟨rfl, rfl⟩
  | some r =>
    dsimp only
    split
    · exact .inl ⟨_, rfl⟩
    · exact .inr ⟨Bool.eq_false_iff.mpr ‹_›, rfl⟩

/-- A call only counts, for a repeat that proves true, or places its block and hashes what that takes, or
fails after its look-up. -/
theorem call_cases (p : Placement ι) {e : Event ι} (hcall : e.data? ≠ none) :
    (∃ b stats, p.step e = (some (.ok b), { p with stats := stats })) ∨
      (∃ data, p.step e = (some (p.place data).1, (p.place data).2) ∧
        e.hashed p = p.placeHashed data) ∨
      ∃ data f, p.step e = (some (.error f), (p.lookup data).2) := by
  cases e with
  | place data => exact .inr (.inl ⟨data, rfl, rfl⟩)
  | placeRepeat data earlier =>
    unfold step Event.hashed
    dsimp only
    rcases p.placeRepeat_proves data earlier with ⟨stats, h⟩ | ⟨hfalse, h⟩ <;> rw [h]
    · exact .inl ⟨earlier, stats, rfl⟩
    · exact .inr (.inl ⟨data, rfl, by rw [hfalse, if_neg Bool.false_ne_true]⟩)
  | addBlockSize size => exact absurd rfl hcall
  | tamper index => exact absurd rfl hcall
  | obstructed data earlier =>
    rcases p.step_obstructed data earlier with ⟨rfl, heq⟩ | ⟨b, rfl, heq⟩ | heq <;> rw [heq]
    · exact .inr (.inl ⟨data, rfl, rfl⟩)
    · unfold step Event.hashed
      dsimp only
      rcases p.placeRepeat_proves data b with ⟨stats, h⟩ | ⟨hfalse, h⟩ <;> rw [h]
      · exact .inl ⟨b, stats, rfl⟩
      · exact .inr (.inl ⟨data, rfl, by rw [Option.any_some, hfalse, if_neg Bool.false_ne_true]⟩)
    · exact .inr (.inr ⟨data, _, rfl⟩)

theorem step_indexed (h : Indexed V S p) {e : Event ι} (hcall : e.data? ≠ none)
    (hhashed : ∀ w ∈ e.hashed p, w ∈ S) (hcount : (p.step e).2.store.count ≤ 2 ^ 32)
    (hintact : IndexIntact V.toKeepingView (p.step e).2) : Indexed V S (p.step e).2 := by
  rcases p.call_cases hcall with ⟨b, stats, hstep⟩ | ⟨data, hstep, hstrings⟩ | ⟨data, f, hstep⟩ <;>
    rw [hstep] at hcount hintact ⊢
  · exact h.counted stats
  · exact place_indexed h (hstrings ▸ hhashed) hcount hintact
  · exact lookup_indexed h hintact

/-- A call that returns a number leaves no more containers than blocks, and no more blocks than words. -/
theorem step_count_le (h : Indexed V S p) {e : Event ι} (hcall : e.data? ≠ none)
    (hhashed : ∀ w ∈ e.hashed p, w ∈ S) (hintact : IndexIntact V.toKeepingView p)
    (hle : p.store.count ≤ p.blocks.size)
    (hanswer : ∀ answer, (p.step e).1 = some answer → ∃ b, answer = .ok b) :
    (p.step e).2.store.count ≤ (p.step e).2.blocks.size ∧ (p.step e).2.blocks.size ≤ 2 ^ 32 := by
  obtain ⟨stored, hstored⟩ := h.distinct
  rcases p.call_cases hcall with ⟨b, stats, hstep⟩ | ⟨data, hstep, hstrings⟩ | ⟨data, f, hstep⟩ <;>
    rw [hstep] at hanswer ⊢
  · exact ⟨hle, hstored.size ▸ length_le_of_injOn h.injective hstored.nodup hstored.hashed⟩
  · rw [hstrings] at hhashed
    have hdata := hhashed data List.mem_cons_self
    obtain ⟨b, hb⟩ := hanswer _ rfl
    exact ⟨place_count_le_blocks hstored h.consistent h.sound hintact h.overlaps h.injective hdata hle hb,
      place_blocks_le hstored h.consistent h.sound hintact h.overlaps h.injective hdata⟩
  · obtain ⟨b, hb⟩ := hanswer _ rfl
    cases hb

/-! ## Runs -/

omit [Catalog ι] in
/-- A call leaves the catalog in place. -/
theorem keeps_index {e : Event ι} (hcall : e.data? ≠ none) (index : Option ι) : e ≠ .tamper index := by
  rintro rfl
  exact hcall rfl

/-- If the catalog has lost nothing in the end, it had lost nothing after the first call. -/
theorem intact_of_run (hvalid : IndexValid V.toKeepingView p) {e : Event ι} {rest : List (Event ι)}
    (hcalls : ∀ call ∈ e :: rest, call.data? ≠ none)
    (hintact : IndexIntact V.toKeepingView ((p.step e).2.run rest).2) :
    IndexIntact V.toKeepingView (p.step e).2 :=
  hintact.of_asked (hvalid.asked (p.step_asked (keeps_index (hcalls e List.mem_cons_self))))
    (run_asked _ fun call hcall => keeps_index (hcalls call (List.mem_cons_of_mem e hcall)))

theorem run_indexed (h : Indexed V S p) {calls : List (Event ι)} (hcalls : ∀ e ∈ calls, e.data? ≠ none)
    (hhashed : ∀ w ∈ p.hashedStrings calls, w ∈ S) (hcount : (p.run calls).2.store.count ≤ 2 ^ 32)
    (hintact : IndexIntact V.toKeepingView (p.run calls).2) : Indexed V S (p.run calls).2 := by
  induction calls generalizing p with
  | nil => exact h
  | cons e rest ih =>
    have hcall := hcalls e List.mem_cons_self
    have hrest : ∀ e' ∈ rest, e'.data? ≠ none := fun e' he' => hcalls e' (List.mem_cons_of_mem e he')
    have hgrows := (run_extends (p.step e).2 rest).store
    refine ih (step_indexed h hcall ?_ (Nat.le_trans hgrows.count_le hcount)
      (intact_of_run h.valid hcalls hintact)) hrest ?_ hcount hintact
    · exact fun w hw => hhashed w (List.mem_append_left _ hw)
    · exact fun w hw => hhashed w (List.mem_append_right _ hw)

/-- If every call returns a number, words can name all containers. -/
theorem run_count_le (h : Indexed V S p) (hle : p.store.count ≤ p.blocks.size) {calls : List (Event ι)}
    (hcalls : ∀ e ∈ calls, e.data? ≠ none) (hhashed : ∀ w ∈ p.hashedStrings calls, w ∈ S)
    (hanswers : ∀ answer ∈ (p.run calls).1, ∃ b, answer = .ok b)
    (hintact : IndexIntact V.toKeepingView (p.run calls).2) : (p.run calls).2.store.count ≤ 2 ^ 32 := by
  induction calls generalizing p with
  | nil =>
    obtain ⟨stored, hstored⟩ := h.distinct
    exact hle.trans (hstored.size ▸ length_le_of_injOn h.injective hstored.nodup hstored.hashed)
  | cons e rest ih =>
    have hcall := hcalls e List.mem_cons_self
    have hrest : ∀ e' ∈ rest, e'.data? ≠ none := fun e' he' => hcalls e' (List.mem_cons_of_mem e he')
    have hintact' : IndexIntact V.toKeepingView (p.step e).2 := intact_of_run h.valid hcalls hintact
    have hfirst : IndexIntact V.toKeepingView p := hintact'.of_asked h.valid (p.step_asked (keeps_index hcall))
    have hhead : ∀ w ∈ e.hashed p, w ∈ S := fun w hw => hhashed w (List.mem_append_left _ hw)
    have hanswer : ∀ answer, (p.step e).1 = some answer → ∃ b, answer = .ok b := fun answer ha =>
      hanswers answer (List.mem_append_left _ (Option.mem_toList.mpr ha))
    obtain ⟨hcount, hblocks⟩ := step_count_le h hcall hhead hfirst hle hanswer
    exact ih (step_indexed h hcall hhead (hcount.trans hblocks) hintact') hcount hrest
      (fun w hw => hhashed w (List.mem_append_right _ hw))
      (fun answer ha => hanswers answer (List.mem_append_right _ ha)) hintact

/-! ## The first state -/

omit [Catalog ι] in
theorem mem_foldl_addBlockSize (p : Placement ι) (sizes : List Nat) (n : Nat) :
    n ∈ (sizes.foldl addBlockSize p).blockSizes ↔ n ∈ sizes ∨ n ∈ p.blockSizes := by
  induction sizes generalizing p with
  | nil => simp
  | cons first rest ih =>
    have hfirst : n ∈ (p.addBlockSize first).blockSizes ↔ first = n ∨ n ∈ p.blockSizes := by
      show n ∈ p.blockSizes.insert first ↔ _
      rw [Std.TreeSet.mem_insert, Nat.compare_eq_eq]
    rw [List.foldl_cons, ih, hfirst, List.mem_cons, ← or_assoc, or_comm (a := n ∈ rest),
      eq_comm (a := first)]

omit [Catalog ι] in
theorem foldl_addBlockSize (p : Placement ι) (sizes : List Nat) :
    (sizes.foldl addBlockSize p).settings = p.settings ∧ (sizes.foldl addBlockSize p).store = p.store := by
  induction sizes generalizing p with
  | nil => exact ⟨rfl, rfl⟩
  | cons n rest ih => exact ih (p.addBlockSize n)

/-- A block size that is announced before there are containers has nothing to keep up with. -/
theorem addBlockSize_indexed (h : Indexed V S p) (hempty : p.store.count = 0) {n : Nat}
    (hn : 1 ≤ n ∧ n < 2 ^ 32) : Indexed V S (p.addBlockSize n) := by
  have hext := p.step_extends (.addBlockSize n)
  have hsize (c : Nat) : p.store.size c = 0 := by
    show (p.store.data c).size = 0
    rw [ContainerStore.data_of_le (hempty ▸ Nat.zero_le c)]
    rfl
  have hblocks {b : Nat} (hb : b ∈ (p.addBlockSize n).blockSizes) : b = n ∨ b ∈ p.blockSizes := by
    rcases Std.TreeSet.mem_insert.mp hb with hb | hb
    · exact .inl (Std.compare_eq_iff_eq.mp hb).symm
    · exact .inr hb
  exact
    { h with
      consistent := h.consistent.congr rfl rfl rfl
      sound := h.sound.via hext (.of_eq rfl)
      entered :=
        { blockSizes := fun b hb => (hblocks hb).elim (fun heq => heq ▸ hn.2) (h.entered.blockSizes b)
          windowed := h.entered.windowed }
      tracked :=
        { covers := fun b hb c i hi => by
            rcases hblocks hb with rfl | hb
            · have hle : p.windowedSize c b ≤ p.store.size c := h.entered.windowed c b hn.2
              have hi : i * max p.settings.windowPeriod 1 + b ≤ p.windowedSize c b := hi
              rw [hsize] at hle
              omega
            · exact h.tracked.covers b hb c i hi
          caughtUp := fun b _ c => by
            show p.store.size c - _ < _
            rw [hsize]
            omega }
      distinct := by
        obtain ⟨stored, hstored⟩ := h.distinct
        exact ⟨stored, hstored.congr hext rfl rfl⟩ }

theorem announced_indexed (h : Indexed V S p) (hempty : p.store.count = 0) {sizes : List Nat}
    (hsizes : ∀ b ∈ sizes, 1 ≤ b ∧ b < 2 ^ 32) : Indexed V S (sizes.foldl addBlockSize p) := by
  induction sizes generalizing p with
  | nil => exact h
  | cons n rest ih =>
    exact ih (addBlockSize_indexed h hempty (hsizes n List.mem_cons_self)) hempty
      fun b hb => hsizes b (List.mem_cons_of_mem n hb)

theorem start_indexed {settings : PlacementSettings} {capacity reserve : Nat} {staging : Staging}
    {index : ι} (hoverlaps : settings.dedup.overlaps = true) (hinjective : S.InjOn settings.hash)
    (hcapacity : capacity ≤ 2 ^ 31) (hfresh : V.Fresh index) :
    Indexed V S (start settings (.empty capacity reserve staging) (some index)) where
  overlaps := hoverlaps
  injective := hinjective
  capacity_le := hcapacity
  consistent := start_consistent (by omega)
  sound := start_sound fun x hx => Option.some.inj hx ▸ hfresh
  entered := ⟨fun n hn => absurd hn Std.TreeSet.not_mem_emptyc, fun _ _ _ => Nat.zero_le _⟩
  index := ⟨index, rfl⟩
  tracked := ⟨fun b hb => absurd hb Std.TreeSet.not_mem_emptyc,
    fun b hb => absurd hb Std.TreeSet.not_mem_emptyc⟩
  distinct := ⟨[], rfl, List.nodup_nil, fun w hw => (nomatch hw), fun i w hw => (nomatch hw),
    fun i w hw => (nomatch hw)⟩

/-! ## Main result -/

/-- **Stored windows are found again.** Block sizes are announced, and then blocks are placed over a fresh
catalog which loses nothing, in a mode that overlaps, and no two strings hashed meanwhile have one hash.
Then of each container, for each block size, the part that was entered ends inside the container, and less
than the interval is missing; and what stands there at a multiple of the period is covered, and placing it
returns a number that stands for it, counts a reuse and writes nothing. Calls that fail may leave empty
containers; if there are any, words must be able to name all containers. -/
theorem stored_windows_are_found (V : FullView ι) (settings : PlacementSettings) (capacity reserve : Nat)
    (staging : Staging) (index : ι) (sizes : List Nat) (calls : List (Event ι))
    (hoverlaps : settings.dedup.overlaps = true) (hperiod : 1 ≤ settings.windowPeriod)
    (hcapacity : capacity ≤ 2 ^ 31) (hfresh : V.Fresh index)
    (hsizes : ∀ b ∈ sizes, 1 ≤ b ∧ b < 2 ^ 32) (hcalls : ∀ e ∈ calls, e.data? ≠ none) :
    let p := sizes.foldl addBlockSize (start settings (.empty capacity reserve staging) (some index))
    let q := (p.run calls).2
    IndexIntact V.toKeepingView q →
      Set.InjOn settings.hash {w | w ∈ p.hashedStrings calls} →
      ((∀ answer ∈ (p.run calls).1, ∃ n, answer = .ok n) ∨ q.store.count ≤ 2 ^ 32) →
      ∀ container, ∀ b ∈ sizes,
        let last := q.windowedSize container b
        last ≤ q.store.size container ∧
        q.store.size container < last + max 1 settings.windowInterval ∧
        ∀ offset, settings.windowPeriod ∣ offset → offset + b ≤ last →
          let w := slice (q.store.data container) offset b
          Covered V q w ∧ Reuses q (q.place w) ∧
            ∀ n, (q.place w).1 = .ok n → (q.place w).2.Resolves n w := by
  intro p q hintact hinjective hcontainers container b hb last
  obtain ⟨hsettings, hstore⟩ :=
    foldl_addBlockSize (start settings (.empty capacity reserve staging) (some index)) sizes
  have hstart : Indexed V {w | w ∈ p.hashedStrings calls} p :=
    announced_indexed (start_indexed hoverlaps hinjective hcapacity hfresh) rfl hsizes
  have hcount : q.store.count ≤ 2 ^ 32 := by
    rcases hcontainers with hanswers | hcount
    · refine run_count_le hstart ?_ hcalls (fun w hw => hw) hanswers hintact
      rw [hstore]
      exact Nat.zero_le _
    · exact hcount
  have hq : Indexed V {w | w ∈ p.hashedStrings calls} q :=
    run_indexed hstart hcalls (fun w hw => hw) hcount hintact
  have hsettings : q.settings = settings := (p.run_extends calls).settings.trans hsettings
  have hbq : b ∈ q.blockSizes := (p.run_extends calls).blockSizes b
    ((mem_foldl_addBlockSize _ sizes b).mpr (.inl hb))
  have hlast : last ≤ q.store.size container := hq.entered.windowed container b (hsizes b hb).2
  have hcaught := hq.tracked.caughtUp b hbq container
  unfold CaughtUp at hcaught
  rw [hsettings] at hcaught
  refine ⟨hlast, by omega, ?_⟩
  rintro offset ⟨i, rfl⟩ hend w
  have hmax : max q.settings.windowPeriod 1 = settings.windowPeriod := by
    rw [hsettings]
    omega
  have hwindow : q.windowAt container b i = w := by
    show slice _ (i * max q.settings.windowPeriod 1) b = slice _ _ b
    rw [hmax, Nat.mul_comm]
  obtain ⟨hmem, hcovered⟩ := hq.tracked.covers b hbq container i (by rw [hmax, Nat.mul_comm]; exact hend)
  rw [hwindow] at hmem hcovered
  have hreuses := place_of_covered hq.sound hintact hq.overlaps hcovered
  obtain ⟨stored, hstored⟩ := hq.distinct
  have hfit : (q.place w).2.Addressable :=
    ⟨place_blocks_le hstored hq.consistent hq.sound hintact hq.overlaps hq.injective hmem,
      hreuses.store ▸ hcount⟩
  exact ⟨hcovered, hreuses, (place_resolves hq.consistent w hfit).1⟩

/-- Settings under which short strings of small bytes have different hashes. Windows are entered after
three bytes or more. -/
def tellingSettings : PlacementSettings where
  dedup := .all
  leastOverlap := 0
  granularity := 1
  maxCandidates := 2
  windowPeriod := 1
  windowInterval := 3
  hash data := (data.data.toList.foldl (fun h (byte : UInt8) => 8 * h + byte.toNat + 1) 0).toUInt32

/-- A catalog in memory is intact if the tests say so. -/
theorem fullTables_intact
    {p : Placement (BlockIndex (TableSegment BlockNum) (TableSegment Location))}
    (h : p.index.all (fun x => x.real.isWhole && x.windows.isWhole) = true) :
    IndexIntact BlockIndex.fullTableView.toKeepingView p := fun x hx => by
  rw [hx, Option.all_some, Bool.and_eq_true] at h
  exact ⟨ShardedIndex.isWhole_iff.mp h.1, ShardedIndex.isWhole_iff.mp h.2⟩

/-- A placement that enters windows of two bytes. -/
def pairsPlacement : Placement (BlockIndex (TableSegment BlockNum) (TableSegment Location)) :=
  [2].foldl addBlockSize (start tellingSettings (.empty 16 1 .memory)
    (some (BlockIndex.emptyTables ⟨1, 4, 8⟩ ⟨1, 4, 8⟩)))

/-- Three blocks. The second one is a window of the first. -/
def pairsCalls : List (Event (BlockIndex (TableSegment BlockNum) (TableSegment Location))) :=
  [.place ⟨#[1, 2, 3, 4]⟩, .place ⟨#[2, 3]⟩, .place ⟨#[5]⟩]

set_option maxRecDepth 1000000 in
theorem pairs_told_apart :
    Set.InjOn tellingSettings.hash {w | w ∈ pairsPlacement.hashedStrings pairsCalls} := by
  have hstrings : pairsPlacement.hashedStrings pairsCalls =
      [⟨#[1, 2, 3, 4]⟩, ⟨#[1, 2]⟩, ⟨#[2, 3]⟩, ⟨#[3, 4]⟩, ⟨#[2, 3]⟩, ⟨#[5]⟩] := by cbv
  have hdistinct : ∀ w ∈ pairsPlacement.hashedStrings pairsCalls,
      ∀ w' ∈ pairsPlacement.hashedStrings pairsCalls,
        tellingSettings.hash w = tellingSettings.hash w' → w = w' := by
    rw [hstrings]
    decide
  exact fun w hw w' hw' => hdistinct w hw w' hw'

set_option maxRecDepth 1000000 in
/-- The block `1 2 3 4` is written and its windows of two bytes are entered. One of them, `2 3`, becomes a
block, and `5` is written behind, which is not entered yet. Both `2 3` and `3 4` are found from then on. -/
theorem windows_of_a_block_are_found :
    (pairsPlacement.run pairsCalls).2.windowedSize 0 2 = 4 ∧
      (pairsPlacement.run pairsCalls).2.store.size 0 = 5 ∧
      Reuses (pairsPlacement.run pairsCalls).2 ((pairsPlacement.run pairsCalls).2.place ⟨#[2, 3]⟩) ∧
      Reuses (pairsPlacement.run pairsCalls).2 ((pairsPlacement.run pairsCalls).2.place ⟨#[3, 4]⟩) := by
  have hstate :
      ((pairsPlacement.run pairsCalls).2.windowedSize 0 2, (pairsPlacement.run pairsCalls).2.store.size 0,
        (pairsPlacement.run pairsCalls).1,
        slice ((pairsPlacement.run pairsCalls).2.store.data 0) 1 2,
        slice ((pairsPlacement.run pairsCalls).2.store.data 0) 2 2) =
      (4, 5, [.ok ⟨0⟩, .ok ⟨1⟩, .ok ⟨2⟩], ⟨#[2, 3]⟩, ⟨#[3, 4]⟩) := by cbv
  simp only [Prod.mk.injEq] at hstate
  obtain ⟨hlast, hsize, hanswers, hpromoted, hentered⟩ := hstate
  have hnumbers : ∀ answer ∈ (pairsPlacement.run pairsCalls).1, ∃ n, answer = .ok n := by
    rw [hanswers]
    simp
  have hfound (offset : Nat)
      (hend : offset + 2 ≤ (pairsPlacement.run pairsCalls).2.windowedSize 0 2) :
      Reuses (pairsPlacement.run pairsCalls).2 ((pairsPlacement.run pairsCalls).2.place
        (slice ((pairsPlacement.run pairsCalls).2.store.data 0) offset 2)) :=
    ((stored_windows_are_found BlockIndex.fullTableView tellingSettings 16 1 .memory
      (BlockIndex.emptyTables ⟨1, 4, 8⟩ ⟨1, 4, 8⟩) [2] pairsCalls rfl (by decide) (by decide)
      (BlockIndex.emptyTables_fresh _ _) (by decide) (by simp [pairsCalls, Event.data?])
      (fullTables_intact (by cbv)) pairs_told_apart (.inl hnumbers) 0 2 (by decide)).2.2 offset
      (Nat.one_dvd offset) hend).2.1
  rw [hlast] at hfound
  refine ⟨hlast, hsize, ?_, ?_⟩
  · rw [← hpromoted]
    exact hfound 1 (by decide)
  · rw [← hentered]
    exact hfound 2 (by decide)

end DedupImage.Placement
