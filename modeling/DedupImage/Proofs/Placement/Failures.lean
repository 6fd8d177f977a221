import DedupImage.Proofs.Index.Lookups
import DedupImage.Proofs.Placement.Accounting
import DedupImage.Proofs.Placement.Requests
import DedupImage.Proofs.Placement.Run

/-!
# Failures leave nothing behind

A call that places a block can fail in its look-up, when a container is made for it, and when the block
is written. By then it has counted the block as placed, it has looked into the catalog, and it may have
made a container. It has registered, entered and counted nothing else: `Placement.Unharmed` says so field
by field, and `failed_call_harmless` that it holds after every failure, in any state and with any entries
in the catalog.
-/

namespace DedupImage.Placement

open Catalog

variable {ι : Type}

/-- The state differs from an earlier one in the count of placed blocks, in what look-ups do to the
catalog, and in at most one new container, the last one, which is empty. -/
structure Unharmed (p q : Placement ι) (Alike : ι → ι → Prop) : Prop where
  settings : q.settings = p.settings
  blocks : q.blocks = p.blocks
  numbers : q.numbers = p.numbers
  windowed : q.windowed = p.windowed
  blockSizes : q.blockSizes = p.blockSizes
  stats : q.stats = { p.stats with placed := p.stats.placed + 1 }
  contents : q.store.contents = p.store.contents ∨
    q.store.contents = p.store.contents.push ByteArray.empty
  store : q.store = p.store ∨ p.store.create = .ok (p.store.count, q.store)
  index : Option.Rel Alike p.index q.index

theorem Unharmed.mono {p q : Placement ι} {R S : ι → ι → Prop} (h : Unharmed p q R)
    (hRS : ∀ x, p.index = some x → ∀ y, R x y → S x y) : Unharmed p q S := by
  refine { h with index := ?_ }
  have hindex := h.index
  generalize q.index = y at hindex ⊢
  cases hp : p.index with
  | none =>
    rw [hp] at hindex
    cases hindex
    exact .none
  | some x =>
    rw [hp] at hindex
    cases hindex with
    | some hxy => exact .some (hRS x hp _ hxy)

variable [Catalog ι]

/-! ## Look-ups -/

/-- A look-up asks the real index, and after that perhaps the window index. -/
theorem findHit_consults (p : Placement ι) (hash : UInt32) (data : ByteArray) :
    Option.Rel Consulted p.index (p.findHit hash data).2.index := by
  unfold findHit
  cases hp : p.index with
  | none =>
    rw [hp]
    exact .none
  | some x =>
    have hreal : Consulted x (findReal x hash).2 := .single ⟨hash, .inl rfl⟩
    dsimp only
    split
    · exact .some hreal
    · exact .some hreal
    · unfold findWindowHit
      split
      · have hwindow : Consulted x (findWindow (findReal x hash).2 hash).2 :=
          hreal.tail ⟨hash, .inr rfl⟩
        dsimp only
        split <;> exact .some hwindow
      · exact .some hreal

/-- A look-up, whatever it answers, counts the block and consults the catalog. -/
theorem lookup_unharmed (p : Placement ι) (data : ByteArray) :
    Unharmed p (p.lookup data).2 Consulted := by
  have hrefl : Option.Rel Consulted p.index p.index := by
    cases p.index with
    | none => exact .none
    | some x => exact .some .refl
  unfold lookup
  dsimp only
  split
  · have hindex := findHit_consults
      { p with stats := { p.stats with placed := p.stats.placed + 1 } } (p.settings.hash data) data
    obtain ⟨index, h⟩ := findHit_eq_index
      { p with stats := { p.stats with placed := p.stats.placed + 1 } } (p.settings.hash data) data
    rw [h] at hindex ⊢
    exact ⟨rfl, rfl, rfl, rfl, rfl, rfl, .inl rfl, .inl rfl, hindex⟩
  · exact ⟨rfl, rfl, rfl, rfl, rfl, rfl, .inl rfl, .inl rfl, hrefl⟩

/-! ## Writes -/

omit [Catalog ι] in
/-- The container of a plan is there already, or it is a new one at the end. -/
theorem containerFor_eq {p q : Placement ι} {plan : WritePlan} {id : Nat}
    (h : p.containerFor plan = .ok (id, q)) :
    ∃ store, q = { p with store := store } ∧
      (store = p.store ∨ p.store.create = .ok (p.store.count, store)) := by
  rcases containerFor_cases h with ⟨-, rfl⟩ | ⟨store, -, hcreate, rfl⟩
  · exact ⟨q.store, rfl, .inl rfl⟩
  · refine ⟨store, rfl, .inr ?_⟩
    rw [hcreate, (ContainerStore.create_ok hcreate).1]

/-- What a failed write may leave behind is an empty container. -/
theorem carryOut_failed {p : Placement ι} {plan : WritePlan} {hash : UInt32} {data : ByteArray}
    {indexed : Bool} {f : Failure} (h : (p.carryOut plan hash data indexed).1 = .error f) :
    ∃ store, (p.carryOut plan hash data indexed).2 = { p with store := store } ∧
      (store = p.store ∨ p.store.create = .ok (p.store.count, store)) := by
  rcases p.carryOut_cases plan hash data indexed with
    ⟨e, -, hout⟩ | ⟨id, q, e, hcontainer, -, hout⟩ | ⟨id, q, newSize, store, -, -, hout⟩ <;>
    rw [hout] at h ⊢
  · exact ⟨p.store, rfl, .inl rfl⟩
  · exact containerFor_eq hcontainer
  · cases h

omit [Catalog ι] in
/-- An unharmed state may still get the container of a write that failed. -/
theorem Unharmed.withStore {p q : Placement ι} {R : ι → ι → Prop} (h : Unharmed p q R)
    (hq : q.store = p.store) {store : ContainerStore}
    (hstore : store = q.store ∨ q.store.create = .ok (q.store.count, store)) :
    Unharmed p { q with store := store } R := by
  rw [hq] at hstore
  refine { h with store := hstore, contents := ?_ }
  rcases hstore with rfl | hcreate
  · exact .inl rfl
  · refine .inr ?_
    unfold ContainerStore.create at hcreate
    split at hcreate
    · cases hcreate
    · rw [← (Prod.mk.inj (Except.ok.inj hcreate)).2]

/-! ## Calls -/

theorem place_failed {p : Placement ι} {data : ByteArray} {f : Failure}
    (h : (p.place data).1 = .error f) : Unharmed p (p.place data).2 Consulted := by
  have hlookup := p.lookup_unharmed data
  have hstore := (p.lookup_alike data).store
  rcases p.place_cases data with ⟨e, q, hq, hout⟩ | ⟨hit, q, hq, hout⟩ | ⟨q, hq, hout⟩ <;>
    rw [hq] at hlookup hstore <;> rw [hout] at h ⊢
  · exact hlookup
  · cases h
  · obtain ⟨store, heq, hmade⟩ := carryOut_failed h
    rw [heq]
    exact hlookup.withStore hstore hmade

theorem placeRepeat_failed {p : Placement ι} {data : ByteArray} {earlier : BlockNum} {f : Failure}
    (h : (p.placeRepeat data earlier).1 = .error f) :
    Unharmed p (p.placeRepeat data earlier).2 Consulted := by
  rcases p.placeRepeat_cases data earlier with ⟨r, -, -, hout⟩ | hout <;> rw [hout] at h ⊢
  · cases h
  · exact place_failed h

theorem step_failed {p : Placement ι} {event : Event ι} {f : Failure}
    (h : (p.step event).1 = some (.error f)) : Unharmed p (p.step event).2 Consulted := by
  cases event with
  | place data => exact place_failed (Option.some.inj h)
  | placeRepeat data earlier => exact placeRepeat_failed (Option.some.inj h)
  | addBlockSize size => cases h
  | tamper index => cases h
  | obstructed data earlier =>
    rcases p.step_obstructed data earlier with ⟨-, heq⟩ | ⟨b, -, heq⟩ | heq <;> rw [heq] at h ⊢
    · exact place_failed (Option.some.inj h)
    · exact placeRepeat_failed (Option.some.inj h)
    · exact p.lookup_unharmed data

/-! ## Main result -/

/-- **A call that fails does no harm.** Whatever state placement is in, and whatever the catalog holds,
as long as its segments work: after a call that failed the block table, the numbers, the sizes at which
windows were entered and all counts but that of placed blocks are what they were, both indexes hold the
same entries in the same segments, and the containers are the same, with perhaps an empty one behind
them. -/
theorem failed_call_harmless {σ τ : Type} [Segment σ BlockNum] [Segment τ Location]
    (M : SegmentView σ BlockNum) (N : SegmentView τ Location) {p : Placement (BlockIndex σ τ)}
    (hindex : ∀ x, p.index = some x → x.AllValid M N) {event : Event (BlockIndex σ τ)} {f : Failure}
    (h : (p.step event).1 = some (.error f)) :
    Unharmed p (p.step event).2 (BlockIndex.Same M N) :=
  (step_failed h).mono fun x hx _ hxy => BlockIndex.same_of_consulted (hindex x hx) hxy

set_option maxRecDepth 1000000 in
/-- A catalog leads to a block that does not exist, so placing fails in the look-up. Without a catalog the
same call fails later, for three bytes do not fit into two, and the container made for them stays. -/
theorem failed_calls_of_both_kinds :
    let p := start (collidingSettings .all) (.empty 2 1 .memory) (some strayCatalog)
    let q := { p with index := none }
    let event : Event (BlockIndex (TableSegment BlockNum) (TableSegment Location)) :=
      .place ⟨#[1, 2, 3]⟩
    let Same := BlockIndex.Same (TableSegment.view BlockNum) (TableSegment.view Location)
    (p.step event).1 = some (.error (.corruption (.missingBlock 7 0))) ∧
      (q.step event).1 = some (.error (.capacityExceeded 0 3 2)) ∧
      Unharmed p (p.step event).2 Same ∧ Unharmed q (q.step event).2 Same ∧
      (q.step event).2.store.count = 1 := by
  intro p q event Same
  have hlookup : (p.step event).1 = some (.error (.corruption (.missingBlock 7 0))) := by cbv
  have hwrite : (q.step event).1 = some (.error (.capacityExceeded 0 3 2)) := by cbv
  have hcount : (q.step event).2.store.count = 1 := by cbv
  refine ⟨hlookup, hwrite, failed_call_harmless _ _ (fun x _ => ?_) hlookup,
    failed_call_harmless _ _ (fun x hx => ?_) hwrite, hcount⟩
  · exact ⟨fun _ _ _ _ => trivial, fun _ _ _ _ => trivial⟩
  · cases hx

end DedupImage.Placement
