import DedupImage.Batch.Placing
import DedupImage.Proofs.Batch.Delivery
import DedupImage.Proofs.Placement.Run

/-!
# A batch as a run of calls

Placing a batch is one call of placement after another: each block is placed, or placed as a repeat of
the block that its position is said to repeat (`nextEvent`). So a batch does to its placement what some
run of calls does (`Placement.Calls`), and what every run keeps, every batch keeps.
-/

namespace DedupImage

namespace Placement

variable {ι : Type} [Catalog ι] {p q r : Placement ι}

/-- One state is reached from another by placing blocks. -/
def Calls (p q : Placement ι) : Prop :=
  ∃ events : List (Event ι), (∀ e ∈ events, e.data?.isSome = true) ∧ q = (p.run events).2

theorem Calls.refl (p : Placement ι) : Calls p p :=
  ⟨[], fun _ he => absurd he List.not_mem_nil, rfl⟩

theorem Calls.trans (hpq : Calls p q) (hqr : Calls q r) : Calls p r := by
  obtain ⟨first, hfirst, rfl⟩ := hpq
  obtain ⟨rest, hrest, rfl⟩ := hqr
  refine ⟨first ++ rest, ?_, by rw [run_append]⟩
  intro e he
  rcases List.mem_append.mp he with he | he
  · exact hfirst e he
  · exact hrest e he

theorem Calls.step (p : Placement ι) {e : Event ι} (h : e.data?.isSome = true) :
    Calls p (p.step e).2 :=
  ⟨[e], fun _ he => List.mem_singleton.mp he ▸ h, rfl⟩

theorem Calls.extends (h : Calls p q) : p.Extends q := by
  obtain ⟨events, -, rfl⟩ := h
  exact p.run_extends events

theorem Calls.consistent (h : Calls p q) (hp : p.Consistent) (hfit : q.Addressable) :
    q.Consistent := by
  obtain ⟨events, -, rfl⟩ := h
  exact run_consistent hp events hfit

end Placement

/-! ## Items -/

/-- What an item delivers when it is opened for the `opening`th time: its blocks, and the failure that
ended them early. -/
def ScheduledItem.delivery (item : ScheduledItem) (opening : Nat) :
    Except StorageFailure (Array ByteArray × Option StorageFailure) :=
  match item.source.reader opening with
  | .error e => .error e
  | .ok reader => .ok (reader.blocks item.blockSize)

/-- The blocks that an item delivers are not empty, and not longer than its block size. -/
theorem ScheduledItem.mem_delivery {item : ScheduledItem} {opening : Nat} {blocks : Array ByteArray}
    {ending : Option StorageFailure} (h : item.delivery opening = .ok (blocks, ending))
    {data : ByteArray} (hdata : data ∈ blocks.toList) :
    0 < data.size ∧ data.size ≤ item.blockSize := by
  unfold delivery at h
  split at h
  · cases h
  · rename_i reader _
    have hblocks : (reader.blocks item.blockSize).1 = blocks := congrArg Prod.fst (Except.ok.inj h)
    rw [← hblocks] at hdata
    exact reader.mem_blocks (Array.mem_toList_iff.mp hdata)

namespace BatchState

open Placement

variable {ι : Type} [Catalog ι]

/-! ## The next call -/

omit [Catalog ι] in
/-- The call for the block at the next position. -/
def nextEvent (s : BatchState ι) (repeats : Repeats) (data : ByteArray) : Event ι :=
  match (repeats.earlier? s.placed.size).bind (s.placed[·]?) with
  | some earlier => .placeRepeat data earlier
  | none => .place data

omit [Catalog ι] in
@[simp] theorem nextEvent_data? (s : BatchState ι) (repeats : Repeats) (data : ByteArray) :
    (s.nextEvent repeats data).data? = some data := by
  unfold nextEvent
  split <;> rfl

/-- The next block is placed by the next call. -/
theorem placeNext_cases (s : BatchState ι) (repeats : Repeats) (data : ByteArray) :
    (∃ e p, s.placement.step (s.nextEvent repeats data) = (some (.error e), p) ∧
      s.placeNext repeats data = (.error e, { s with placement := p })) ∨
    (∃ b p, s.placement.step (s.nextEvent repeats data) = (some (.ok b), p) ∧
      s.placeNext repeats data = (.ok b, { s with placement := p, placed := s.placed.push b })) := by
  unfold placeNext nextEvent
  cases (repeats.earlier? s.placed.size).bind (s.placed[·]?) with
  | none =>
    rcases hanswer : s.placement.place data with ⟨e | b, p⟩
    · exact .inl ⟨e, p, by simp only [step, hanswer], by simp only⟩
    · exact .inr ⟨b, p, by simp only [step, hanswer], by simp only⟩
  | some earlier =>
    rcases hanswer : s.placement.placeRepeat data earlier with ⟨e | b, p⟩
    · exact .inl ⟨e, p, by simp only [step, hanswer], by simp only [hanswer]⟩
    · exact .inr ⟨b, p, by simp only [step, hanswer], by simp only [hanswer]⟩

/-! ## Placing to the end -/

/-- Placing an item, going by what it delivers. -/
theorem placeItem_eq (s : BatchState ι) (repeats : Repeats) (opening : Nat) (item : ScheduledItem) :
    s.placeItem repeats opening item =
      match item.delivery opening with
      | .error e => (.error (.storage e), s)
      | .ok (blocks, ending) =>
        match s.placeBlocks repeats #[] blocks.toList with
        | (.error e, s) => (.error e, s)
        | (.ok list, s) =>
          match ending with
          | some e => (.error (.storage e), s)
          | none => (.ok (), { s with lists := s.lists.setIfInBounds item.slot list }) := by
  unfold placeItem ScheduledItem.delivery
  cases item.source.reader opening <;> rfl

section ToTheEnd

variable {s t : BatchState ι} {repeats : Repeats} {opening : Nat}

theorem placeBlocks_cons_eq_ok {list numbers : Array BlockNum} {data : ByteArray}
    {rest : List ByteArray} (h : s.placeBlocks repeats list (data :: rest) = (.ok numbers, t)) :
    ∃ b s', s.placeNext repeats data = (.ok b, s') ∧
      s'.placeBlocks repeats (list.push b) rest = (.ok numbers, t) := by
  unfold placeBlocks at h
  rcases hnext : s.placeNext repeats data with ⟨e | b, s'⟩ <;> simp only [hnext] at h
  · cases (Prod.mk.inj h).1
  · exact ⟨b, s', rfl, h⟩

/-- An item that is placed to its end delivered its blocks without a failure, and got their numbers. -/
theorem placeItem_eq_ok {item : ScheduledItem} (h : s.placeItem repeats opening item = (.ok (), t)) :
    ∃ blocks list s', item.delivery opening = .ok (blocks, none) ∧
      s.placeBlocks repeats #[] blocks.toList = (.ok list, s') ∧
      t = { s' with lists := s'.lists.setIfInBounds item.slot list } := by
  rw [placeItem_eq] at h
  rcases hdelivery : item.delivery opening with e | ⟨blocks, ending⟩ <;> simp only [hdelivery] at h
  · cases (Prod.mk.inj h).1
  · rcases hblocks : s.placeBlocks repeats #[] blocks.toList with ⟨e | list, s'⟩ <;>
      simp only [hblocks] at h
    · cases (Prod.mk.inj h).1
    · cases ending with
      | some e => cases (Prod.mk.inj h).1
      | none => exact ⟨blocks, list, s', rfl, hblocks, (Prod.mk.inj h).2.symm⟩

theorem placeAll_cons_eq_ok {item : ScheduledItem} {rest : List ScheduledItem}
    (h : s.placeAll repeats opening (item :: rest) = (.ok (), t)) :
    ∃ s', s.placeItem repeats opening item = (.ok (), s') ∧
      s'.placeAll repeats opening rest = (.ok (), t) := by
  unfold placeAll at h
  rcases hitem : s.placeItem repeats opening item with ⟨e | ⟨⟩, s'⟩ <;> simp only [hitem] at h
  · cases (Prod.mk.inj h).1
  · exact ⟨s', rfl, h⟩

end ToTheEnd

/-! ## Batches -/

theorem placeNext_calls (s : BatchState ι) (repeats : Repeats) (data : ByteArray) :
    Calls s.placement (s.placeNext repeats data).2.placement := by
  have hstep := Calls.step s.placement (e := s.nextEvent repeats data) (by rw [nextEvent_data?]; rfl)
  rcases s.placeNext_cases repeats data with ⟨e, p, hp, h⟩ | ⟨b, p, hp, h⟩ <;>
    · rw [hp] at hstep
      rw [h]
      exact hstep

theorem placeBlocks_calls (s : BatchState ι) (repeats : Repeats) (list : Array BlockNum)
    (datas : List ByteArray) :
    Calls s.placement (s.placeBlocks repeats list datas).2.placement := by
  induction datas generalizing s list with
  | nil => exact .refl _
  | cons data rest ih =>
    have hnext := s.placeNext_calls repeats data
    unfold placeBlocks
    split
    · rename_i h
      rw [h] at hnext
      exact hnext
    · rename_i h
      rw [h] at hnext
      exact hnext.trans (ih _ _)

theorem placeItem_calls (s : BatchState ι) (repeats : Repeats) (opening : Nat)
    (item : ScheduledItem) :
    Calls s.placement (s.placeItem repeats opening item).2.placement := by
  unfold placeItem
  split
  · exact .refl _
  · rename_i reader _
    have hblocks := s.placeBlocks_calls repeats #[] (reader.blocks item.blockSize).1.toList
    simp only
    split
    · rename_i h
      rw [h] at hblocks
      exact hblocks
    · rename_i h
      rw [h] at hblocks
      split <;> exact hblocks

theorem placeAll_calls (s : BatchState ι) (repeats : Repeats) (opening : Nat)
    (items : List ScheduledItem) :
    Calls s.placement (s.placeAll repeats opening items).2.placement := by
  induction items generalizing s with
  | nil => exact .refl _
  | cons item rest ih =>
    have hitem := s.placeItem_calls repeats opening item
    unfold placeAll
    split
    · rename_i h
      rw [h] at hitem
      exact hitem
    · rename_i h
      rw [h] at hitem
      exact hitem.trans (ih _)

end BatchState

end DedupImage
