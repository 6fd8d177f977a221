import DedupImage.Proofs.Placement.Run

/-!
# The order of announced block sizes makes no difference

The block sizes of a placement are announced one after another, and a set of them may have come about in
any order. Two placements with equal sets, however these came about (`Resized`), are counterparts with one
catalog. So they give the same answers to all calls and stay so (`Resized.step`).
-/

namespace DedupImage

namespace Placement

variable {ι : Type}

/-- The same placement with another set of block sizes. -/
def withSizes (p : Placement ι) (sizes : Std.TreeSet Nat) : Placement ι :=
  { p with blockSizes := sizes }

/-- Two placements that differ at most in how the set of their block sizes came about. -/
def Resized (p q : Placement ι) : Prop :=
  ∃ sizes : Std.TreeSet Nat, sizes.Equiv p.blockSizes ∧ q = p.withSizes sizes

/-- The same block sizes in another order. -/
theorem resized_addBlockSize (p : Placement ι) {sizes sizes' : List Nat}
    (h : ∀ n, n ∈ sizes ↔ n ∈ sizes') :
    Resized (sizes.foldl addBlockSize p) (sizes'.foldl addBlockSize p) := by
  have hfold (p : Placement ι) (sizes : List Nat) : sizes.foldl addBlockSize p =
      p.withSizes (sizes.foldl (fun set n => set.insert n) p.blockSizes) := by
    induction sizes generalizing p with
    | nil => rfl
    | cons n rest ih => exact ih (p.addBlockSize n)
  have hmem (set : Std.TreeSet Nat) (sizes : List Nat) (n : Nat) :
      n ∈ sizes.foldl (fun set n => set.insert n) set ↔ n ∈ sizes ∨ n ∈ set := by
    induction sizes generalizing set with
    | nil => simp
    | cons first rest ih =>
      rw [List.foldl_cons, ih, Std.TreeSet.mem_insert, List.mem_cons, Nat.compare_eq_eq, ← or_assoc,
        or_comm (a := n ∈ rest), eq_comm (a := first)]
  rw [hfold, hfold]
  refine ⟨sizes'.foldl (fun set n => set.insert n) p.blockSizes, ?_, rfl⟩
  apply Std.TreeSet.Equiv.of_forall_mem_iff
  intro n
  show _ ↔ n ∈ sizes.foldl (fun set n => set.insert n) p.blockSizes
  rw [hmem, hmem, h]

/-! ## Steps -/

variable [Catalog ι] {p q : Placement ι} {sizes : Std.TreeSet Nat}

theorem Resized.of_counterpart (h : Counterpart (.refl ι) sizes p q)
    (hstaging : q.store.staging = p.store.staging) : Resized p q := by
  have heq := h.eq_counterpart
  rw [hstaging] at heq
  obtain ⟨-, -, -, -, hsizes⟩ := h
  exact ⟨sizes, hsizes, heq⟩

omit [Catalog ι] in
theorem Resized.staging (h : Resized p q) : q.store.staging = p.store.staging := by
  obtain ⟨sizes, -, rfl⟩ := h
  rfl

omit [Catalog ι] in
theorem Resized.withStaging (h : Resized p q) (staging : Staging) :
    Resized (p.withStaging staging) (q.withStaging staging) := by
  obtain ⟨sizes, hsizes, rfl⟩ := h
  exact ⟨sizes, hsizes, rfl⟩

/-- Placements whose sets of block sizes are equal answer alike, and still have equal sets. -/
theorem Resized.place (h : Resized p q) (data : ByteArray) :
    (q.place data).1 = (p.place data).1 ∧ Resized (p.place data).2 (q.place data).2 := by
  obtain ⟨sizes, hsizes, rfl⟩ := h
  obtain ⟨hanswer, hnext⟩ := (Counterpart.refl hsizes p.store.staging).place rfl data
  exact ⟨hanswer.symm, .of_counterpart hnext (by rw [place_staging, place_staging]; rfl)⟩

theorem Resized.placeRepeat (h : Resized p q) (data : ByteArray) (earlier : BlockNum) :
    (q.placeRepeat data earlier).1 = (p.placeRepeat data earlier).1 ∧
      Resized (p.placeRepeat data earlier).2 (q.placeRepeat data earlier).2 := by
  obtain ⟨sizes, hsizes, rfl⟩ := h
  obtain ⟨hanswer, hnext⟩ := (Counterpart.refl hsizes p.store.staging).placeRepeat rfl data earlier
  exact ⟨hanswer.symm, .of_counterpart hnext (by rw [placeRepeat_staging, placeRepeat_staging]; rfl)⟩

/-- **Placements whose sets of block sizes are equal take every step together.** -/
theorem Resized.step (h : Resized p q) (e : Event ι) :
    (q.step e).1 = (p.step e).1 ∧ Resized (p.step e).2 (q.step e).2 := by
  cases e with
  | place data => exact ⟨congrArg some (h.place data).1, (h.place data).2⟩
  | placeRepeat data earlier =>
    exact ⟨congrArg some (h.placeRepeat data earlier).1, (h.placeRepeat data earlier).2⟩
  | addBlockSize size =>
    obtain ⟨sizes, hsizes, rfl⟩ := h
    exact ⟨rfl, sizes.insert size, hsizes.insert size, rfl⟩
  | tamper index =>
    obtain ⟨sizes, hsizes, rfl⟩ := h
    exact ⟨rfl, sizes, hsizes, rfl⟩
  | obstructed data earlier =>
    have hmissing : Resized (p.withStaging .missing) (q.withStaging .missing) := h.withStaging _
    unfold Placement.step
    dsimp only
    rw [h.staging]
    cases earlier with
    | none =>
      obtain ⟨hanswer, hnext⟩ := hmissing.place data
      exact ⟨congrArg some hanswer, hnext.withStaging _⟩
    | some b =>
      obtain ⟨hanswer, hnext⟩ := hmissing.placeRepeat data b
      exact ⟨congrArg some hanswer, hnext.withStaging _⟩

end Placement

end DedupImage
