import DedupImage.Proofs.Placement.Counterparts
import DedupImage.Proofs.Placement.Evidence
import Mathlib

/-!
# Runs of a placement

A placement lives through a list of events: blocks are placed, block sizes are announced, and its
catalog may be replaced by any other one between two calls. The last stands for everything that could
happen to an index: entries that nobody made, entries that were lost, a backend that fails. A call may also
be obstructed, so that no container can be made while it lasts; then it ends as it would have ended without
that, or fails after its look-up (`step_obstructed`).

Every event extends the state (`run_extends`), so what held of the table and the containers once, holds
from then on; and every event keeps the state consistent as long as words can name all blocks and
containers (`run_consistent`). Together they give `placed_block_stays`: placement never has to trust its
catalog.
-/

namespace DedupImage.Placement

/-- What happens to a placement. -/
inductive Event (ι : Type) where
  | place (data : ByteArray)
  /-- The block is expected to repeat an earlier one. -/
  | placeRepeat (data : ByteArray) (earlier : BlockNum)
  | addBlockSize (size : Nat)
  /-- The catalog is replaced. -/
  | tamper (index : Option ι)
  /-- A block is placed, as the repeat of an earlier one if one is given, and no container can be made
  meanwhile. -/
  | obstructed (data : ByteArray) (earlier : Option BlockNum)

/-- The block that an event places. -/
def Event.data? {ι : Type} : Event ι → Option ByteArray
  | place data => some data
  | placeRepeat data _ => some data
  | addBlockSize _ => none
  | tamper _ => none
  | obstructed data _ => some data

variable {ι : Type} [Catalog ι]

/-- The answer to an event, if it has one, and the state after it. -/
def step (p : Placement ι) : Event ι → Option (Except Failure BlockNum) × Placement ι
  | .place data => (some (p.place data).1, (p.place data).2)
  | .placeRepeat data earlier => (some (p.placeRepeat data earlier).1, (p.placeRepeat data earlier).2)
  | .addBlockSize size => (none, p.addBlockSize size)
  | .tamper index => (none, { p with index := index })
  | .obstructed data earlier =>
    let q := p.withStaging .missing
    let out :=
      match earlier with
      | none => q.place data
      | some b => q.placeRepeat data b
    (some out.1, out.2.withStaging p.store.staging)

/-- The answers to a list of events, and the state after them. -/
def run (p : Placement ι) : List (Event ι) → List (Except Failure BlockNum) × Placement ι
  | [] => ([], p)
  | e :: rest => ((p.step e).1.toList ++ ((p.step e).2.run rest).1, ((p.step e).2.run rest).2)

theorem run_append (p : Placement ι) (first rest : List (Event ι)) :
    p.run (first ++ rest) =
      ((p.run first).1 ++ ((p.run first).2.run rest).1, ((p.run first).2.run rest).2) := by
  induction first generalizing p with
  | nil => rfl
  | cons e first ih =>
    simp only [List.cons_append, run, ih, List.append_assoc]

/-- An obstructed call ends like one that is not, or fails for want of a container and leaves no trace but that
of its look-up. -/
theorem step_obstructed (p : Placement ι) (data : ByteArray) (earlier : Option BlockNum) :
    (earlier = none ∧ p.step (.obstructed data earlier) = p.step (.place data)) ∨
      (∃ b, earlier = some b ∧
        p.step (.obstructed data earlier) = p.step (.placeRepeat data b)) ∨
      p.step (.obstructed data earlier) = (some (.error (.storage .notFound)), (p.lookup data).2) := by
  have hlookup : (p.lookup data).2.store.staging = p.store.staging :=
    congrArg ContainerStore.staging (p.lookup_alike data).store
  cases earlier with
  | none =>
    unfold step
    dsimp only
    rcases p.place_withStaging data with h | h <;> rw [h]
    · exact .inl ⟨rfl, by rw [withStaging_withStaging (p.place_staging data)]⟩
    · exact .inr (.inr (by rw [withStaging_withStaging hlookup]))
  | some b =>
    unfold step
    dsimp only
    rcases p.placeRepeat_withStaging data b with h | h <;> rw [h]
    · exact .inr (.inl ⟨b, rfl, by rw [withStaging_withStaging (p.placeRepeat_staging data b)]⟩)
    · exact .inr (.inr (by rw [withStaging_withStaging hlookup]))

/-! ## What a run keeps -/

theorem step_extends (p : Placement ι) (e : Event ι) : p.Extends (p.step e).2 := by
  cases e with
  | place data => exact p.place_extends data
  | placeRepeat data earlier => exact p.placeRepeat_extends data earlier
  | addBlockSize size =>
    exact ⟨rfl, ⟨#[], Array.append_empty.symm⟩, .refl _, fun n hn =>
      Std.TreeSet.mem_insert.mpr (.inr hn)⟩
  | tamper index => exact ⟨rfl, ⟨#[], Array.append_empty.symm⟩, .refl _, fun _ hn => hn⟩
  | obstructed data earlier =>
    rcases p.step_obstructed data earlier with ⟨-, h⟩ | ⟨b, -, h⟩ | h <;> rw [h]
    · exact p.place_extends data
    · exact p.placeRepeat_extends data b
    · exact (p.lookup_alike data).extends

theorem run_extends (p : Placement ι) (events : List (Event ι)) : p.Extends (p.run events).2 := by
  induction events generalizing p with
  | nil => exact .refl p
  | cons e rest ih => exact (p.step_extends e).trans (ih _)

variable {p : Placement ι}

theorem step_consistent (hp : p.Consistent) (e : Event ι) (hfit : (p.step e).2.Addressable) :
    (p.step e).2.Consistent := by
  cases e with
  | place data => exact (place_resolves hp data hfit).2
  | placeRepeat data earlier => exact (placeRepeat_resolves hp data earlier hfit).2
  | addBlockSize size => exact hp.congr rfl rfl rfl
  | tamper index => exact hp.congr rfl rfl rfl
  | obstructed data earlier =>
    rcases p.step_obstructed data earlier with ⟨-, h⟩ | ⟨b, -, h⟩ | h <;> rw [h] at hfit ⊢
    · exact (place_resolves hp data hfit).2
    · exact (placeRepeat_resolves hp data b hfit).2
    · exact (p.lookup_alike data).consistent hp

/-- If the last state is addressable, so is every state before it. -/
theorem run_consistent (hp : p.Consistent) (events : List (Event ι))
    (hfit : (p.run events).2.Addressable) : (p.run events).2.Consistent := by
  induction events generalizing p with
  | nil => exact hp
  | cons e rest ih => exact ih (step_consistent hp e ((run_extends _ rest).addressable hfit)) hfit

theorem step_resolves (hp : p.Consistent) {e : Event ι} {data : ByteArray} {b : BlockNum}
    (hdata : e.data? = some data) (hfit : (p.step e).2.Addressable)
    (h : (p.step e).1 = some (.ok b)) : (p.step e).2.Resolves b data := by
  cases e with
  | place data' =>
    obtain rfl := Option.some.inj hdata
    exact (place_resolves hp data' hfit).1 b (Option.some.inj h)
  | placeRepeat data' earlier =>
    obtain rfl := Option.some.inj hdata
    exact (placeRepeat_resolves hp data' earlier hfit).1 b (Option.some.inj h)
  | addBlockSize size => cases hdata
  | tamper index => cases hdata
  | obstructed data' earlier =>
    obtain rfl := Option.some.inj hdata
    rcases p.step_obstructed data' earlier with ⟨-, heq⟩ | ⟨b', -, heq⟩ | heq <;> rw [heq] at hfit h ⊢
    · exact (place_resolves hp data' hfit).1 b (Option.some.inj h)
    · exact (placeRepeat_resolves hp data' b' hfit).1 b (Option.some.inj h)
    · cases h

/-! ## Main result -/

/-- The container of a record has the data as the bytes from the record's offset on. -/
def Spells (p : Placement ι) (record : BlockRecord) (data : ByteArray) : Prop :=
  record.location.container.toNat < p.store.count ∧
    record.location.offset.toNat + data.size ≤ p.store.size record.location.container.toNat ∧
    slice (p.store.data record.location.container.toNat) record.location.offset.toNat data.size = data

omit [Catalog ι] in
theorem spells_of_holds {record : BlockRecord} {data : ByteArray}
    (h : p.store.holds record.location data = true) : p.Spells record data :=
  have h := ContainerStore.holds_iff.mp h
  ⟨h.1, holdsAt_iff_slice.mp h.2⟩

/-- **A number that was returned stands for its block from then on.** However the catalog is tampered
with before and afterwards, and whatever hash it is asked with: if placing a block returns a number, the
block table has a record of the block's length under it, and the stretch of the container that the record
describes is the block; and after any further events, failing ones included, the record is the same and
so is the stretch. The table and the containers have at most grown at their ends meanwhile. -/
theorem placed_block_stays (settings : PlacementSettings) (capacity reserve : Nat) (staging : Staging)
    (index : Option ι) (before after : List (Event ι)) (event : Event ι) (data : ByteArray)
    (hcapacity : capacity ≤ 2 ^ 31) (hdata : event.data? = some data) :
    let p := ((start settings (.empty capacity reserve staging) index).run before).2
    let q := (p.step event).2
    let r := (q.run after).2
    p.Extends q ∧ q.Extends r ∧
      (r.Addressable → ∀ b, (p.step event).1 = some (.ok b) →
        ∃ record, q.record? b = some record ∧ r.record? b = some record ∧
          record.length = data.size ∧ q.Spells record data ∧ r.Spells record data) := by
  intro p q r
  have hlater : q.Extends r := q.run_extends after
  refine ⟨p.step_extends event, hlater, ?_⟩
  intro hfit b hb
  have hq : q.Addressable := hlater.addressable hfit
  have hstart : (start settings (.empty capacity reserve staging) index).Consistent :=
    start_consistent (by omega)
  have hp : p.Consistent := run_consistent hstart before ((p.step_extends event).addressable hq)
  obtain ⟨record, hrecord, hstored⟩ := step_resolves hp hdata hq hb
  obtain ⟨hlength, hholds⟩ := storesAs_iff.mp hstored
  exact ⟨record, hrecord, hlater.record? hrecord, hlength, spells_of_holds hholds,
    spells_of_holds (hlater.store.holds hholds)⟩

/-- Settings under which every block and every window has the same hash. -/
def collidingSettings (mode : Dedup) : PlacementSettings where
  dedup := mode
  leastOverlap := 0
  granularity := 1
  maxCandidates := 2
  windowPeriod := 1
  windowInterval := 1
  hash := fun _ => 0

/-- A catalog with an entry for a block that does not exist. -/
def strayCatalog : BlockIndex (TableSegment BlockNum) (TableSegment Location) :=
  Catalog.addReal
    ⟨.empty (.ok .empty) ⟨1, 2, 2⟩, .empty (.ok .empty) ⟨1, 2, 2⟩⟩ 0 ⟨7⟩

set_option maxRecDepth 1000000 in
/-- The block `1 2` is placed under the hash of another one, without a catalog. The catalog that appears
then leads to no block, so the next call fails; the number stands for its block all the same. -/
theorem placed_block_stays_when_tampered :
    let p := ((start (collidingSettings .all) (.empty 4 1 .memory) (some strayCatalog)).run
      [.tamper none, .place ⟨#[0, 1]⟩]).2
    let q := (p.step (.placeRepeat ⟨#[1, 2]⟩ ⟨0⟩)).2
    let r := (q.run [.tamper (some strayCatalog), .place ⟨#[3]⟩]).2
    ∃ record, q.record? ⟨1⟩ = some record ∧ r.record? ⟨1⟩ = some record ∧ record.length = 2 ∧
      q.Spells record ⟨#[1, 2]⟩ ∧ r.Spells record ⟨#[1, 2]⟩ := by
  refine (placed_block_stays (collidingSettings .all) 4 1 .memory (some strayCatalog)
    [.tamper none, .place ⟨#[0, 1]⟩] [.tamper (some strayCatalog), .place ⟨#[3]⟩]
    (.placeRepeat ⟨#[1, 2]⟩ ⟨0⟩) ⟨#[1, 2]⟩ (by decide) rfl).2.2 ⟨?_, ?_⟩ ⟨1⟩ ?_
  · cbv
  · cbv
  · cbv

end DedupImage.Placement
