import DedupImage.Proofs.Image.RoundTrip

/-!
# The two halves of a flush

A flush prepares and places the batch (`ImageBuild.placed`), and then writes what was placed
(`ImageBuild.close`). Only the second half looks at the medium.
-/

namespace DedupImage

/-- A batch that was placed, to its end or until it broke off. -/
structure Placed where
  outcome : Except Failure Unit
  state : BatchState AnyIndex
  /-- The checkpoint as it is then. -/
  checkpoint : Option CheckpointPlace

namespace ImageBuild

/-- The items in the order in which they are placed. -/
def sorted (b : ImageBuild) : List ScheduledItem := ScheduledItem.sort b.items.reverse

/-- Prepare the batch and place it. -/
def placed (b : ImageBuild) : Except Failure Placed :=
  match b.prepare b.sorted with
  | .error e => .error e
  | .ok prepared =>
    let r := b.begin.placeAll prepared.repeats prepared.openings b.sorted
    .ok ⟨r.1, r.2, prepared.place⟩

theorem placed_eq {b : ImageBuild} {prepared : Checkpoint.Prepared}
    (h : b.prepare b.sorted = .ok prepared) :
    b.placed =
      .ok ⟨(b.begin.placeAll prepared.repeats prepared.openings b.sorted).1,
        (b.begin.placeAll prepared.repeats prepared.openings b.sorted).2, prepared.place⟩ := by
  unfold placed
  rw [h]

/-- Write what was placed. -/
def close (b : ImageBuild) : Except Failure Placed → Flushed
  | .error e => ⟨.error e, Array.replicate b.items.length #[], b.medium, b.checkpoint⟩
  | .ok p =>
    match p.outcome with
    | .error e => ⟨.error e, p.state.lists, b.medium, p.checkpoint⟩
    | .ok () =>
      let r := (b.script p.state.placement).run b.medium
      ⟨r.1.map (summary p.state.placement p.state.placed.size), p.state.lists, r.2, p.checkpoint⟩

theorem flush_eq_close (b : ImageBuild) : b.flush = b.close b.placed := by
  unfold flush placed sorted begin
  dsimp only
  cases b.prepare (ScheduledItem.sort b.items.reverse) with
  | error e => rfl
  | ok prepared =>
    unfold close
    dsimp only
    rcases BatchState.placeAll
      { placement := b.placement, lists := Array.replicate b.items.length #[] } prepared.repeats
      prepared.openings (ScheduledItem.sort b.items.reverse) with ⟨e | ⟨⟩, s⟩
    · rfl
    · dsimp only
      rcases (b.script s.placement).run b.medium with ⟨e | written, medium⟩ <;> rfl

/-- A flush that ends well has placed everything, and its summary is that of what was written. -/
theorem flush_ok_cases {b : ImageBuild} {total : ImageSummary} (h : b.flush.outcome = .ok total) :
    ∃ p written, b.placed = .ok p ∧ p.outcome = .ok () ∧
      ((b.script p.state.placement).run b.medium).1 = .ok written ∧
      total = summary p.state.placement p.state.placed.size written := by
  rw [flush_eq_close] at h
  cases hplaced : b.placed with
  | error e =>
    rw [hplaced] at h
    cases h
  | ok p =>
    rw [hplaced] at h
    obtain ⟨e | ⟨⟩, state, checkpoint⟩ := p
    · cases h
    · have h : ((b.script state.placement).run b.medium).1.map
          (summary state.placement state.placed.size) = .ok total := h
      cases hrun : ((b.script state.placement).run b.medium).1 with
      | error e =>
        rw [hrun] at h
        cases h
      | ok written =>
        rw [hrun] at h
        exact ⟨⟨.ok (), state, checkpoint⟩, written, rfl, rfl, hrun, (Except.ok.inj h).symm⟩

/-- What was placed is delivered, whatever becomes of the writes. -/
theorem lists_close (b : ImageBuild) (p : Placed) : (b.close (.ok p)).lists = p.state.lists := by
  rcases p with ⟨e | ⟨⟩, state, checkpoint⟩ <;> rfl

theorem checkpoint_close (b : ImageBuild) (p : Placed) :
    (b.close (.ok p)).checkpoint = p.checkpoint := by
  rcases p with ⟨e | ⟨⟩, state, checkpoint⟩ <;> rfl

end ImageBuild

end DedupImage
