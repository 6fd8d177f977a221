import DedupImage.Proofs.Pattern.CheapestFit
import DedupImage.Proofs.Placement.Accounting
import DedupImage.Proofs.Placement.Run
import DedupImage.Proofs.Store.BestFit

/-!
# The plan is the best offer

A block that is not stored yet is tried in a few containers, and each of them may offer a place that
leaves enough room (`Placement.Offers`). Which containers these are is said by `Placement.Tried`: the
best fit and the newest others, as many as there may be. Of their offers the plan is the one that adds
the fewest bytes, in the lowest container among equals (`Placement.Best`), and it starts a new container
only if there is none.

Both hold in every state that a placement reaches, because its store is always ranked (`run_ranked`):
what a plan does to it is to make a container or to write to one that exists.
-/

namespace DedupImage

/-! ## The newest containers -/

namespace ContainerStore

variable {s : ContainerStore} {n k o : Nat}

theorem newest_pairwise (s : ContainerStore) (n : Nat) : (s.newest n).Pairwise (· > ·) :=
  (List.pairwise_reverse.mpr List.pairwise_lt_range).sublist (List.take_sublist _ _)

theorem newest_nodup (s : ContainerStore) (n : Nat) : (s.newest n).Nodup :=
  (s.newest_pairwise n).imp fun h => Nat.ne_of_gt h

theorem length_newest (s : ContainerStore) (n : Nat) : (s.newest n).length = min n s.count := by
  unfold newest
  rw [List.length_take, List.length_reverse, List.length_range]

/-- The containers that are not among the newest are older than those that are. -/
theorem lt_of_mem_newest (hk : k < s.count) (hnot : k ∉ s.newest n) (ho : o ∈ s.newest n) : k < o := by
  have hordered : (List.range s.count).reverse.Pairwise (· > ·) :=
    List.pairwise_reverse.mpr List.pairwise_lt_range
  have hall : k ∈ (List.range s.count).reverse := List.mem_reverse.mpr (List.mem_range.mpr hk)
  rw [← List.take_append_drop n (List.range s.count).reverse] at hall hordered
  have hold := (List.mem_append.mp hall).resolve_left hnot
  exact (List.pairwise_append.mp hordered).2.2 o ho k hold

/-- If not all containers are among the newest, the newest are as many as asked for. -/
theorem lt_count_of_not_mem_newest (hk : k < s.count) (hnot : k ∉ s.newest n) : n < s.count := by
  by_contra hfew
  refine hnot ?_
  unfold newest
  rw [List.take_of_length_le (by rw [List.length_reverse, List.length_range]; omega), List.mem_reverse,
    List.mem_range]
  exact hk

end ContainerStore

namespace Placement

variable {ι : Type} {p q : Placement ι}

/-! ## Containers that are tried -/

/-- The newest containers without the best fit. -/
def newestOthers (p : Placement ι) (length : Nat) : List Nat :=
  (p.store.newest (max p.settings.maxCandidates 1)).filter fun id =>
    !(p.store.bestFit length).toList.contains id

theorem mem_newestOthers {length id : Nat} : id ∈ p.newestOthers length ↔
    id ∈ p.store.newest (max p.settings.maxCandidates 1) ∧ p.store.bestFit length ≠ some id := by
  unfold newestOthers
  rw [List.mem_filter, Bool.not_eq_true', ← Bool.not_eq_true, List.contains_iff_mem,
    Option.mem_toList]

theorem newestOthers_pairwise (p : Placement ι) (length : Nat) :
    (p.newestOthers length).Pairwise (· > ·) :=
  (p.store.newest_pairwise _).sublist List.filter_sublist

theorem length_newestOthers_of_none {length : Nat} (h : p.store.bestFit length = none) :
    (p.newestOthers length).length = min (max p.settings.maxCandidates 1) p.store.count := by
  unfold newestOthers
  rw [h, ← p.store.length_newest]
  simp

/-- The best fit is left out, if it is among the newest. -/
theorem length_newestOthers_of_some {length id : Nat} (h : p.store.bestFit length = some id) :
    (p.newestOthers length).length =
      if id ∈ p.store.newest (max p.settings.maxCandidates 1) then
        min (max p.settings.maxCandidates 1) p.store.count - 1
      else
        min (max p.settings.maxCandidates 1) p.store.count := by
  have herase := (p.store.newest_nodup (max p.settings.maxCandidates 1)).erase_eq_filter id
  have hothers : p.newestOthers length =
      (p.store.newest (max p.settings.maxCandidates 1)).erase id := by
    unfold newestOthers
    rw [herase, h]
    refine List.filter_congr fun k _ => ?_
    rw [Bool.eq_iff_iff]
    simp
  rw [hothers, List.length_erase, p.store.length_newest]

/-- The best fit is followed by the newest others. -/
theorem candidates_eq (p : Placement ι) (length : Nat) :
    p.candidates length = (p.store.bestFit length).toList ++
      (p.newestOthers length).take
        (max p.settings.maxCandidates 1 - (p.store.bestFit length).toList.length) := by
  have hle : (p.store.bestFit length).toList.length ≤ max p.settings.maxCandidates 1 := by
    cases p.store.bestFit length with
    | none => exact Nat.zero_le _
    | some id => exact Nat.le_max_right _ 1
  show ((p.store.bestFit length).toList ++ p.newestOthers length).take _ = _
  rw [List.take_append, List.take_of_length_le hle]

/-- The containers that are tried: the best fit, if there is one, and behind it the newest of the others,
newest first. None is tried twice, and as many are tried as there are or may be. -/
structure Tried (p : Placement ι) (length : Nat) (others : List Nat) : Prop where
  eq : p.candidates length = (p.store.bestFit length).toList ++ others
  lt_count : ∀ id ∈ p.candidates length, id < p.store.count
  nodup : (p.candidates length).Nodup
  newestFirst : others.Pairwise (· > ·)
  newest : ∀ k < p.store.count, k ∉ p.candidates length → ∀ o ∈ others, k < o
  length_eq : (p.candidates length).length = min (max p.settings.maxCandidates 1) p.store.count

theorem length_candidates (hp : p.store.Valid) (length : Nat) :
    (p.candidates length).length = min (max p.settings.maxCandidates 1) p.store.count := by
  rw [candidates_eq, List.length_append, List.length_take]
  cases hfit : p.store.bestFit length with
  | none =>
    rw [length_newestOthers_of_none hfit]
    dsimp only [Option.toList_none, List.length_nil]
    omega
  | some id =>
    have hid := hp.bestFit_lt hfit
    rw [length_newestOthers_of_some hfit]
    dsimp only [Option.toList_some, List.length_singleton]
    split
    · omega
    · have := ContainerStore.lt_count_of_not_mem_newest hid ‹_›
      omega

theorem tried_candidates (hp : p.store.Valid) (length : Nat) : ∃ others, Tried p length others := by
  have hordered := p.newestOthers_pairwise length
  refine ⟨_, candidates_eq p length, fun id => candidates_lt hp, ?_,
    hordered.sublist (List.take_sublist _ _), ?_, length_candidates hp length⟩
  · rw [candidates_eq, List.nodup_append]
    refine ⟨?_, (hordered.sublist (List.take_sublist _ _)).imp fun h => Nat.ne_of_gt h, ?_⟩
    · cases p.store.bestFit length <;> simp
    · rintro a ha b hb rfl
      exact (mem_newestOthers.mp (List.mem_of_mem_take hb)).2 (Option.mem_toList.mp ha)
  · intro k hk hnot o ho
    rw [candidates_eq, List.mem_append, not_or] at hnot
    have ho' := (mem_newestOthers.mp (List.mem_of_mem_take ho)).1
    by_cases hk' : k ∈ p.store.newest (max p.settings.maxCandidates 1)
    · -- A newest container that is not tried comes behind those that are.
      have hall := mem_newestOthers.mpr ⟨hk', fun h => hnot.1 (Option.mem_toList.mpr h)⟩
      rw [← List.take_append_drop
        (max p.settings.maxCandidates 1 - (p.store.bestFit length).toList.length)
        (p.newestOthers length)] at hall hordered
      have hlate := (List.mem_append.mp hall).resolve_left hnot.2
      exact (List.pairwise_append.mp hordered).2.2 o ho k hlate
    · exact ContainerStore.lt_of_mem_newest hk hk' ho'

/-! ## Offers -/

/-- The place that a container gives a block: its cheapest fit, or the one behind its end in a mode that
does not search for overlaps. -/
def offer (p : Placement ι) (data : ByteArray) (id : Nat) : Option Fit :=
  if p.settings.dedup.overlaps then
    (Pattern.ofBytes data).fit? (p.store.data id)
      ⟨p.settings.leastOverlap, p.settings.granularity, p.store.capacity⟩
  else
    some (Fit.append (p.store.size id) data.size)

/-- A container that is tried offers a fit. One that shares bytes with it may fill it, one that shares
none has to leave the reserve. -/
structure Offers (p : Placement ι) (data : ByteArray) (id : Nat) (fit : Fit) : Prop where
  tried : id ∈ p.candidates data.size
  fits : p.offer data id = some fit
  room : if 0 < fit.shared data.size then fit.newSize ≤ p.store.capacity
    else fit.newSize + p.store.reserve ≤ p.store.capacity

/-- No other offer adds fewer bytes, or as many in a lower container. -/
structure Best (p : Placement ι) (data : ByteArray) (id : Nat) (fit : Fit) : Prop where
  offers : p.Offers data id fit
  least : ∀ other fit', p.Offers data other fit' →
    toLex (fit.added, id) ≤ toLex (fit'.added, other)

theorem offer_eq (p : Placement ι) (data : ByteArray) (id : Nat) :
    p.fitInto (if p.settings.dedup.overlaps then some (Pattern.ofBytes data) else none) data.size
      (p.store.data id) = p.offer data id := by
  unfold offer
  split
  · rfl
  · rfl

theorem acceptable_iff (hreserve : p.store.reserve ≤ p.store.capacity) {length : Nat} {fit : Fit} :
    p.acceptable length fit = true ↔
      if 0 < fit.shared length then fit.newSize ≤ p.store.capacity
      else fit.newSize + p.store.reserve ≤ p.store.capacity := by
  unfold acceptable
  split
  · exact decide_eq_true_iff
  · rw [decide_eq_true_iff]
    omega

theorem better_iff {a b : Nat × Fit} :
    better a b = true ↔ toLex (a.2.added, a.1) < toLex (b.2.added, b.1) := by
  unfold better
  rw [Prod.Lex.toLex_lt_toLex, Bool.or_eq_true, Bool.and_eq_true, decide_eq_true_iff,
    decide_eq_true_iff, beq_iff_eq]

/-- The best of the fits is not worse than any that is acceptable. -/
theorem bestOf_le {length : Nat} {fits : List (Nat × Option Fit)} {id : Nat} {fit : Fit}
    (hmem : (id, some fit) ∈ fits) (hacc : p.acceptable length fit = true) :
    ∃ best, p.bestOf length fits = some best ∧
      toLex (best.2.added, best.1) ≤ toLex (fit.added, id) := by
  induction fits with
  | nil => cases hmem
  | cons head rest ih =>
    match head with
    | (_, none) =>
      obtain hmem := (List.mem_cons.mp hmem).resolve_left nofun
      exact ih hmem
    | (k, some other) =>
      unfold bestOf
      dsimp only
      rcases List.mem_cons.mp hmem with heq | hmem
      · obtain ⟨rfl, hfit⟩ := Prod.mk.inj heq
        obtain rfl := Option.some.inj hfit
        rw [if_pos hacc]
        cases p.bestOf length rest with
        | none => exact ⟨_, rfl, le_refl _⟩
        | some o =>
          dsimp only
          split
          · exact ⟨o, rfl, le_of_lt (better_iff.mp ‹_›)⟩
          · exact ⟨_, rfl, le_refl _⟩
      · obtain ⟨best, hbest, hle⟩ := ih hmem
        rw [hbest]
        dsimp only
        split
        · split
          · exact ⟨best, rfl, hle⟩
          · refine ⟨_, rfl, le_trans (not_lt.mp ?_) hle⟩
            exact fun hlt => ‹¬ better _ _ = true› (better_iff.mpr hlt)
        · exact ⟨best, rfl, hle⟩

/-- The fits that are compared are the offers, as far as they are acceptable. -/
theorem mem_fits_iff {data : ByteArray} {id : Nat} {fit : Fit} :
    ((id, some fit) ∈ (p.candidates data.size).map fun id =>
      (id, p.fitInto (if p.settings.dedup.overlaps then some (Pattern.ofBytes data) else none)
        data.size (p.store.data id))) ↔
      id ∈ p.candidates data.size ∧ p.offer data id = some fit := by
  simp only [offer_eq, List.mem_map, Prod.mk.injEq]
  constructor
  · rintro ⟨k, hk, rfl, hfit⟩
    exact ⟨hk, hfit⟩
  · rintro ⟨hid, hfit⟩
    exact ⟨id, hid, rfl, hfit⟩

/-- A plan is the best offer, or a new container if there is no offer. -/
theorem writePlan_best (hreserve : p.store.reserve ≤ p.store.capacity) (data : ByteArray) :
    (∃ id fit, p.writePlan data = ⟨some id, fit⟩ ∧ p.Best data id fit) ∨
      (p.writePlan data = ⟨none, Fit.append 0 data.size⟩ ∧ ∀ id fit, ¬ p.Offers data id fit) := by
  unfold writePlan
  dsimp only
  split
  · rename_i id fit hbest
    obtain ⟨hmem, hacc⟩ := bestOf_eq_some hbest
    obtain ⟨htried, hfit⟩ := mem_fits_iff.mp hmem
    refine .inl ⟨id, fit, rfl, ⟨htried, hfit, (acceptable_iff hreserve).mp hacc⟩, ?_⟩
    intro other fit' ho
    obtain ⟨best, heq, hle⟩ :=
      bestOf_le (mem_fits_iff.mpr ⟨ho.tried, ho.fits⟩) ((acceptable_iff hreserve).mpr ho.room)
    obtain rfl := Option.some.inj (hbest.symm.trans heq)
    exact hle
  · rename_i hnone
    refine .inr ⟨rfl, fun id fit ho => ?_⟩
    obtain ⟨best, heq, -⟩ :=
      bestOf_le (mem_fits_iff.mpr ⟨ho.tried, ho.fits⟩) ((acceptable_iff hreserve).mpr ho.room)
    rw [hnone] at heq
    cases heq

/-- There is one best offer. -/
theorem Best.unique {data : ByteArray} {id id' : Nat} {fit fit' : Fit} (h : p.Best data id fit)
    (h' : p.Best data id' fit') : id = id' ∧ fit = fit' := by
  have heq := le_antisymm (h.least id' fit' h'.offers) (h'.least id fit h.offers)
  obtain ⟨-, rfl⟩ := Prod.mk.inj (toLex.injective heq)
  exact ⟨rfl, Option.some.inj (h.offers.fits.symm.trans h'.offers.fits)⟩

/-! ## What an offer shares -/

theorem offer_lays {data : ByteArray} {id : Nat} {fit : Fit} (h : p.offer data id = some fit) :
    fit.Lays (p.store.data id) data :=
  fitInto_lays ((p.offer_eq data id).trans h)

/-- No fit adds more than the block. -/
theorem added_le_of_lays {text data : ByteArray} {fit : Fit} (h : fit.Lays text data) :
    fit.added ≤ data.size := by
  have hbase := h.base_le
  unfold Fit.added
  rw [h.oldSize, h.newSize]
  omega

/-- An offer that shares some bytes of the block and not all lies across the end of its container, over
as many bytes as overlaps may have. -/
theorem offer_overlap {data : ByteArray} {id : Nat} {fit : Fit} (h : p.offer data id = some fit)
    (hshared : 0 < fit.shared data.size) (hpart : fit.shared data.size < data.size) :
    fit.base + fit.shared data.size = p.store.size id ∧
      Pattern.Overlap data (p.store.data id) p.settings.leastOverlap p.settings.granularity
        (fit.shared data.size) := by
  have hadded : fit.shared data.size = data.size - fit.added := rfl
  unfold offer at h
  split at h
  · have hcheapest := ((Pattern.cheapest_fit_is_found data (p.store.data id) _ (by omega)).2 fit h).1
    have hbytes := hcheapest.added_eq
    have hbase := hcheapest.admissible.le_text
    have hsize : p.store.size id = (p.store.data id).size := rfl
    cases hcheapest.admissible with
    | inside hholds =>
      have hwithin := (holdsAt_iff.mp hholds).1
      omega
    | behind hend hroom => omega
    | @across length hend hoverlap hroom =>
      have hlength : length = fit.shared data.size := by
        have hle := hoverlap.le_pattern
        omega
      rw [← hlength]
      exact ⟨hend, hoverlap⟩
  · obtain rfl := Option.some.inj h
    have hnothing : (Fit.append (p.store.size id) data.size).added = data.size := by
      show max (p.store.size id) (p.store.size id + data.size) - p.store.size id = _
      omega
    omega

/-! ## Reached states -/

variable [Catalog ι]

/-- A plan that is carried out makes a container or writes to one that exists, or fails. -/
theorem carryOut_ranked (hp : p.store.Ranked) {plan : WritePlan} {data : ByteArray} {hash : UInt32}
    {indexed : Bool} (hready : plan.Ready p data) :
    (p.carryOut plan hash data indexed).2.store.Ranked := by
  have hcontainer {id : Nat} {r : Placement ι} (h : p.containerFor plan = .ok (id, r)) :
      r.store.Ranked ∧ id < r.store.count := by
    obtain ⟨store, hopened, rfl⟩ := containerFor_opened hready h
    refine ⟨?_, hopened.lt⟩
    rcases hopened with ⟨rfl, -⟩ | hcreate
    · exact hp
    · exact hp.create hcreate
  rcases p.carryOut_cases plan hash data indexed with
    ⟨e, -, h⟩ | ⟨id, r, e, hc, -, h⟩ | ⟨id, r, newSize, store, hc, ha, h⟩ <;> rw [h]
  · exact hp
  · exact (hcontainer hc).1
  · obtain ⟨hr, hid⟩ := hcontainer hc
    have hstore : (r.enrolWritten store id plan.fit hash data.size indexed).2.store = store :=
      enrol_store _ _ _ _
    rw [(enterDueWindows_alike _ _ _ _).store, hstore]
    exact hr.append hid ha

theorem place_ranked (hp : p.store.Ranked) (data : ByteArray) : (p.place data).2.store.Ranked := by
  have hstore := (p.lookup_alike data).store
  rcases p.place_cases data with ⟨e, q, hq, h⟩ | ⟨hit, q, hq, h⟩ | ⟨q, hq, h⟩ <;>
    rw [hq] at hstore <;> rw [h]
  · exact hstore ▸ hp
  · rw [useHit_store]
    exact hstore ▸ hp
  · have hp : q.store.Ranked := hstore ▸ hp
    exact carryOut_ranked hp (writePlan_ready hp.valid data)

theorem placeRepeat_ranked (hp : p.store.Ranked) (data : ByteArray) (earlier : BlockNum) :
    (p.placeRepeat data earlier).2.store.Ranked := by
  rcases p.placeRepeat_cases data earlier with ⟨r, -, -, h⟩ | h <;> rw [h]
  · exact hp
  · exact place_ranked hp data

theorem step_ranked (hp : p.store.Ranked) (event : Event ι) : (p.step event).2.store.Ranked := by
  cases event with
  | place data => exact place_ranked hp data
  | placeRepeat data earlier => exact placeRepeat_ranked hp data earlier
  | addBlockSize size => exact hp
  | tamper index => exact hp
  | obstructed data earlier =>
    rcases p.step_obstructed data earlier with ⟨-, h⟩ | ⟨b, -, h⟩ | h <;> rw [h]
    · exact place_ranked hp data
    · exact placeRepeat_ranked hp data b
    · rw [(p.lookup_alike data).store]
      exact hp

/-- The ranking matches the containers after any events. -/
theorem run_ranked (hp : p.store.Ranked) (events : List (Event ι)) :
    (p.run events).2.store.Ranked := by
  induction events generalizing p with
  | nil => exact hp
  | cons event events ih => exact ih (step_ranked hp event)

/-! ## Main result -/

/-- **The plan for a block is the best offer of the containers that are tried.** In every state that a
placement reaches, whatever its catalog did: the containers that are tried are the best fit and the newest
others, distinct and existing, as many as may be; the plan is to write to container `id` exactly if that
is the best offer, and to start a new container exactly if there is none. A plan that shares some bytes
of the block but not all overlaps the end of its container by an allowed length, and no plan adds more
bytes than the block has. -/
theorem plan_is_best_offer (settings : PlacementSettings) {capacity reserve : Nat} (staging : Staging)
    (index : Option ι) (events : List (Event ι)) (data : ByteArray) (hreserve : reserve ≤ capacity) :
    let p := ((start settings (.empty capacity reserve staging) index).run events).2
    let plan := p.writePlan data
    (p.settings = settings ∧ p.store.capacity = capacity ∧ p.store.reserve = reserve) ∧
      (∃ others, Tried p data.size others) ∧
      (∀ id fit, plan = ⟨some id, fit⟩ ↔ p.Best data id fit) ∧
      (plan = ⟨none, Fit.append 0 data.size⟩ ↔ ∀ id fit, ¬ p.Offers data id fit) ∧
      (plan.container = none ∨ ∃ id, plan.container = some id ∧
        (0 < plan.fit.shared data.size → plan.fit.shared data.size < data.size →
          plan.fit.base + plan.fit.shared data.size = p.store.size id ∧
            settings.granularity ∣ plan.fit.shared data.size ∧
            settings.leastOverlap ≤ plan.fit.shared data.size)) ∧
      plan.fit.added ≤ data.size := by
  intro p plan
  have hextends : Extends (start settings (.empty capacity reserve staging) index) p :=
    run_extends _ events
  have hcapacity : p.store.capacity = capacity := hextends.store.capacity
  have hreserved : p.store.reserve = reserve := hextends.store.reserve
  have hsettings : p.settings = settings := hextends.settings
  have hranked : p.store.Ranked :=
    run_ranked (ContainerStore.empty_ranked capacity reserve staging) events
  have hplan : (∃ id fit, plan = ⟨some id, fit⟩ ∧ p.Best data id fit) ∨
      (plan = ⟨none, Fit.append 0 data.size⟩ ∧ ∀ id fit, ¬ p.Offers data id fit) :=
    writePlan_best (by rw [hcapacity, hreserved]; exact hreserve) data
  refine ⟨⟨hsettings, hcapacity, hreserved⟩, tried_candidates hranked.valid data.size, ?_⟩
  rcases hplan with ⟨id, fit, heq, hbest⟩ | ⟨heq, hnone⟩ <;> rw [heq]
  · refine ⟨fun id' fit' => ⟨?_, ?_⟩, ⟨nofun, fun hnone => absurd hbest.offers (hnone id fit)⟩,
      .inr ⟨id, rfl, fun hshared hpart => ?_⟩, added_le_of_lays (offer_lays hbest.offers.fits)⟩
    · intro h
      obtain ⟨hid, rfl⟩ := WritePlan.mk.inj h
      obtain rfl := Option.some.inj hid
      exact hbest
    · intro h
      obtain ⟨rfl, rfl⟩ := hbest.unique h
      rfl
    · obtain ⟨hend, hoverlap⟩ := offer_overlap hbest.offers.fits hshared hpart
      rw [hsettings] at hoverlap
      exact ⟨hend, hoverlap.multiple, (Nat.max_le.mp hoverlap.least_le).1⟩
  · refine ⟨fun id fit => ⟨nofun, fun h => absurd h.offers (hnone id fit)⟩, ⟨fun _ => hnone, fun _ => rfl⟩,
      .inl rfl, ?_⟩
    show max 0 (0 + data.size) - 0 ≤ data.size
    omega

/-- Two containers of at most twelve bytes with a reserve of one. -/
def twoContainers : Placement (BlockIndex (TableSegment BlockNum) (TableSegment Location)) :=
  ((start (collidingSettings .all) (.empty 12 1 .memory) none).run
    [.place ⟨#[1, 2, 3, 4]⟩, .place ⟨#[9, 8, 9, 8, 9, 8, 9, 9]⟩]).2

set_option maxRecDepth 1000000 in
/-- The block `9 9 5` could be appended to the first container, but overlaps the second one by two bytes
and adds only one there. -/
theorem plan_is_best_of_two_offers :
    1 ≤ 12 ∧ twoContainers.Offers ⟨#[9, 9, 5]⟩ 0 ⟨4, 4, 7⟩ ∧
      twoContainers.writePlan ⟨#[9, 9, 5]⟩ = ⟨some 1, ⟨8, 6, 9⟩⟩ ∧
      twoContainers.Best ⟨#[9, 9, 5]⟩ 1 ⟨8, 6, 9⟩ := by
  have hplan : twoContainers.writePlan ⟨#[9, 9, 5]⟩ = ⟨some 1, ⟨8, 6, 9⟩⟩ := by cbv
  have hbest : twoContainers.writePlan ⟨#[9, 9, 5]⟩ = ⟨some 1, ⟨8, 6, 9⟩⟩ ↔
      twoContainers.Best ⟨#[9, 9, 5]⟩ 1 ⟨8, 6, 9⟩ :=
    (plan_is_best_offer (collidingSettings .all) .memory none
      [.place ⟨#[1, 2, 3, 4]⟩, .place ⟨#[9, 8, 9, 8, 9, 8, 9, 9]⟩] ⟨#[9, 9, 5]⟩
      (show 1 ≤ 12 by decide)).2.2.1 1 ⟨8, 6, 9⟩
  have htried : twoContainers.candidates 3 = [1, 0] := by cbv
  refine ⟨by decide, ⟨?_, ?_, ?_⟩, hplan, hbest.mp hplan⟩
  · exact htried ▸ List.mem_cons_of_mem 1 List.mem_cons_self
  · cbv
  · cbv

end Placement

end DedupImage
