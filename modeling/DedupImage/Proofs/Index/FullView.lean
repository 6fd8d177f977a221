import DedupImage.Proofs.Index.CatalogView

/-!
# Catalogs that lose nothing

A `KeepingView` can tell whether a block was lost. A `FullView` can tell whether anything was, windows
included: as long as nothing was, a window that was put in stays until it is deleted by name, and is
found. Looking up loses nothing.

`BlockIndex.fullView` sees a pair of indexes so. It is intact while neither index has given up a segment.
What that takes beyond `BlockIndex.view` is that deleting one value leaves all others
(`ShardedIndex.has_delete`).
-/

namespace DedupImage

/-- A view that can tell whether anything was lost so far, blocks or windows. -/
structure FullView (ι : Type) [Catalog ι] extends KeepingView ι where
  intact_findReal : ∀ {x : ι}, Valid x → Intact x → ∀ h, Intact (Catalog.findReal x h).2
  intact_findWindow : ∀ {x : ι}, Valid x → Intact x → ∀ h, Intact (Catalog.findWindow x h).2
  keepsWindow_apply : ∀ {x : ι}, Valid x → ∀ {r : CatalogRequest}, Intact (r.apply x) →
    ∀ {h : UInt32} {l : Location}, Holds x (.window h l) →
      r = .deleteWindow h l ∨ Holds (r.apply x) (.window h l)
  holds_addWindow : ∀ {x : ι}, Valid x → ∀ {h : UInt32} {l : Location},
    Intact (Catalog.addWindow x h l) → Holds (Catalog.addWindow x h l) (.window h l)
  mem_findWindow : ∀ {x : ι}, Valid x → ∀ {h : UInt32} {l : Location},
    Intact (Catalog.findWindow x h).2 → Holds x (.window h l) → l ∈ (Catalog.findWindow x h).1

/-- Every request but a deletion keeps all entries of a catalog that loses nothing. -/
theorem FullView.keepsAll_apply {ι : Type} [Catalog ι] (V : FullView ι) {x : ι} (hx : V.Valid x)
    {r : CatalogRequest} (hr : ∀ h l, r ≠ .deleteWindow h l) (hintact : V.Intact (r.apply x))
    {e : CatalogEntry} (he : V.Holds x e) : V.Holds (r.apply x) e := by
  cases e with
  | block h b => exact V.keeps_apply hx hintact he
  | window h l => exact (V.keepsWindow_apply hx hintact he).resolve_left (hr h l)

variable {σ V : Type} [Segment σ V] {M : SegmentView σ V}

/-! ## Deleting one value -/

section Delete

variable [DecidableEq V]

/-- A walk that takes out a value leaves all others. -/
theorem SegmentView.has_delete {segments : List σ} (h : M.AllValid segments) {k k' : UInt32} {u v : V}
    (hu : M.Has segments k' u) : (k' = k ∧ u = v) ∨ M.Has (Walk.delete k v segments).kept k' u := by
  induction segments with
  | nil => exact .inr hu
  | cons s rest ih =>
    obtain ⟨t, hget, ht, hlook⟩ := M.get_eq h.head k
    unfold Walk.delete
    rw [hget]
    dsimp only
    rw [has_cons] at hu
    split
    · rename_i hfound
      obtain ⟨t', hdelete, -, hlook'⟩ := M.delete_eq ht k
      rw [hdelete]
      dsimp only
      rw [has_cons, hlook', hlook, Function.update_apply]
      rcases hu with hu | hu
      · by_cases hk : k' = k
        · subst hk
          exact .inl ⟨rfl, Option.some.inj (hu.symm.trans hfound)⟩
        · rw [if_neg hk]
          exact .inr (.inl hu)
      · exact .inr (.inr hu)
    · show _ ∨ M.Has (t :: (Walk.delete k v rest).kept) k' u
      rw [has_cons, hlook]
      rcases hu with hu | hu
      · exact .inr (.inl hu)
      · exact (ih h.tail hu).imp_right .inr

variable {c : Chain σ} {x : ShardedIndex σ} {h h' k k' : UInt32} {u v : V}

theorem Chain.has_delete (hc : c.Lawful M) (hu : c.Has M k' u) :
    (k' = k ∧ u = v) ∨ (c.delete k v).2.Has M k' u :=
  SegmentView.has_delete hc.segments hu

theorem Chain.evictions_delete (hc : c.Lawful M) : (c.delete k v).2.evictions = c.evictions := by
  show c.evictions + (Walk.delete k v c.segments).lost = _
  rw [(SegmentView.delete_removes hc.segments k v).lost, Nat.add_zero]

/-- Deleting a value of a hash leaves all other values, and all values of other hashes. -/
theorem ShardedIndex.has_delete (hx : x.Lawful M) (hu : x.Has M h' u) :
    (h' = h ∧ u = v) ∨ (x.delete h v).2.Has M h' u := by
  obtain ⟨c, hget, -, hc, heq⟩ := delete_eq hx h v
  rw [heq, has_withChain hx]
  split
  · rename_i hshard
    refine (Chain.has_delete hc ((has_iff_of_shard hget hshard).mp hu)).imp_left ?_
    rintro ⟨hkey, rfl⟩
    exact ⟨hash_injective hx hshard hkey, rfl⟩
  · exact .inr hu

theorem ShardedIndex.whole_of_delete (hx : x.Lawful M) (hw : (x.delete h v).2.Whole) : x.Whole := by
  obtain ⟨c, hget, -, hc, heq⟩ := delete_eq hx h v
  rw [heq] at hw
  exact (whole_of_withChain hx hget (Nat.le_of_eq (Chain.evictions_delete hc).symm) rfl hw).1

end Delete

/-! ## Looking up -/

/-- A look-up gives up no segment. -/
theorem ShardedIndex.whole_find {x : ShardedIndex σ} {h : UInt32} (hx : x.Lawful M) (hw : x.Whole) :
    (x.find h).2.Whole := by
  obtain ⟨c, -, hmem, hc, heq⟩ := find_eq hx h
  rw [heq]
  refine ⟨evictions_eq_zero_iff.mpr fun d hd => ?_, fun d hd => ?_⟩ <;>
    rcases mem_withChain hd with hd | rfl
  · exact evictions_eq_zero_iff.mp hw.evictions d hd
  · rw [Chain.evictions_find hc]
    exact evictions_eq_zero_iff.mp hw.evictions c hmem
  · exact hw.fresh d hd
  · exact hw.fresh c hmem

/-! ## Pairs of indexes -/

namespace BlockIndex

variable {τ : Type} [Segment σ BlockNum] [Segment τ Location]

/-- A pair of indexes as a set of entries. It has lost nothing as long as both indexes are whole. -/
def fullView (M : SegmentView σ BlockNum) (N : SegmentView τ Location) : FullView (BlockIndex σ τ) where
  toLossyView := (view M N).toLossyView
  Intact x := x.real.Whole ∧ x.windows.Whole
  intact_of_apply := by
    rintro x ⟨hreal, hwindows⟩ r hr
    cases r with
    | findReal h => exact ⟨ShardedIndex.whole_of_find hreal hr.1, hr.2⟩
    | addReal h b => exact ⟨ShardedIndex.whole_of_add hreal hr.1, hr.2⟩
    | findWindow h => exact ⟨hr.1, ShardedIndex.whole_of_find hwindows hr.2⟩
    | addWindow h l => exact ⟨hr.1, ShardedIndex.whole_of_add hwindows hr.2⟩
    | deleteWindow h l => exact ⟨hr.1, ShardedIndex.whole_of_delete hwindows hr.2⟩
  keeps_apply hx _ hr _ _ hb := (view M N).keeps_apply hx hr.1 hb
  holds_addReal hx _ _ hr := (view M N).holds_addReal hx hr.1
  mem_findReal hx _ _ hr hb := (view M N).mem_findReal hx hr.1 hb
  intact_findReal hx hw h := ⟨ShardedIndex.whole_find hx.1 hw.1, hw.2⟩
  intact_findWindow hx hw h := ⟨hw.1, ShardedIndex.whole_find hx.2 hw.2⟩
  keepsWindow_apply := by
    rintro x ⟨-, hwindows⟩ r hr h l hl
    cases r with
    | findReal h' => exact .inr hl
    | addReal h' b => exact .inr hl
    | findWindow h' => exact .inr ((ShardedIndex.has_find hwindows).mpr hl)
    | addWindow h' l' => exact .inr ((ShardedIndex.has_add_of_whole hwindows hr.2).2 h l hl)
    | deleteWindow h' l' =>
      refine (ShardedIndex.has_delete hwindows hl).imp_left ?_
      rintro ⟨rfl, rfl⟩
      rfl
  holds_addWindow hx _ _ hw := (ShardedIndex.has_add_of_whole hx.2 hw.2).1
  mem_findWindow hx _ _ _ hl := (ShardedIndex.mem_find hx.2).mpr hl

/-- The full view of a catalog in memory. -/
def fullTableView : FullView (BlockIndex (TableSegment BlockNum) (TableSegment Location)) :=
  fullView (TableSegment.view BlockNum) (TableSegment.view Location)

end BlockIndex

end DedupImage
