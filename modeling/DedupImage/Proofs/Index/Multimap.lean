import DedupImage.Proofs.Index.View
import Mathlib.Logic.Function.Basic

/-!
# The index as a multi-map

Segments that do not fail and answer like finite maps (`SegmentView`) make a chain that is a multi-map
from keys, and a row of chains that is a multi-map from hashes. `Chain.Has` and `ShardedIndex.Has` say
which values are stored where, and the lemmas say what each operation does to them: looking up changes
nothing, storing puts in one value and may give up others if a segment is dropped, and deleting takes
out at most the value that was named. Until a segment is given up, nothing is lost but what is deleted.

With this `BlockIndex.view` sees the two indexes of a catalog as a set of entries.
-/

namespace DedupImage

/-! ## Segments -/

/-- Segments that never fail once they are valid, and answer like the finite map `look`. -/
structure SegmentView (σ : Type) (V : Type) [Segment σ V] where
  Valid : σ → Prop
  /-- The value of a key. -/
  look : σ → UInt32 → Option V
  get_eq : ∀ {s : σ}, Valid s → ∀ k, ∃ t, Segment.get s k = .ok (look s k, t) ∧ Valid t ∧ look t = look s
  has_eq : ∀ {s : σ}, Valid s → ∀ k,
    ∃ t, Segment.has s k = .ok ((look s k).isSome, t) ∧ Valid t ∧ look t = look s
  put_eq : ∀ {s : σ}, Valid s → ∀ k v,
    ∃ t, Segment.put s k v = .ok t ∧ Valid t ∧ look t = Function.update (look s) k (some v)
  delete_eq : ∀ {s : σ}, Valid s → ∀ k,
    ∃ t, Segment.delete s k = .ok t ∧ Valid t ∧ look t = Function.update (look s) k none

/-- A segment in memory is a finite map. -/
def TableSegment.view (V : Type) : SegmentView (TableSegment V) V where
  Valid _ := True
  look s k := s.map[k]?
  get_eq _ _ := ⟨_, rfl, trivial, rfl⟩
  has_eq {s} _ k := by
    refine ⟨s, ?_, trivial, rfl⟩
    show Except.ok (s.map.contains k, s) = _
    rw [Std.TreeMap.contains_eq_isSome_getElem?]
  put_eq {s} _ k v := by
    refine ⟨_, rfl, trivial, funext fun k' => ?_⟩
    rw [Std.TreeMap.getElem?_insert, Function.update_apply]
    exact if_congr (Std.compare_eq_iff_eq.trans eq_comm) rfl rfl
  delete_eq {s} _ k := by
    refine ⟨_, rfl, trivial, funext fun k' => ?_⟩
    rw [Std.TreeMap.getElem?_erase, Function.update_apply]
    exact if_congr (Std.compare_eq_iff_eq.trans eq_comm) rfl rfl

variable {σ V : Type} [Segment σ V] (M : SegmentView σ V)

/-! ## Walks -/

namespace SegmentView

/-- All segments are valid. -/
def AllValid (segments : List σ) : Prop := ∀ s ∈ segments, M.Valid s

/-- Some segment has the value for the key. -/
def Has (segments : List σ) (k : UInt32) (v : V) : Prop := ∃ s ∈ segments, M.look s k = some v

variable {M} {s t : σ} {segments kept : List σ} {k k' : UInt32} {v w : V}

theorem has_cons : M.Has (s :: segments) k v ↔ M.look s k = some v ∨ M.Has segments k v := by
  unfold Has
  simp only [List.mem_cons, exists_eq_or_imp]

theorem AllValid.tail (h : M.AllValid (s :: segments)) : M.AllValid segments :=
  fun t ht => h t (List.mem_cons_of_mem s ht)

theorem AllValid.head (h : M.AllValid (s :: segments)) : M.Valid s := h s List.mem_cons_self

theorem AllValid.cons (hs : M.Valid s) (h : M.AllValid segments) : M.AllValid (s :: segments) := by
  intro t ht
  rcases List.mem_cons.mp ht with rfl | ht
  · exact hs
  · exact h t ht

/-- A walk that finds values, changes none of them and gives up no segment. -/
structure Finds (segments : List σ) (k : UInt32) (w : Walk σ (List V)) : Prop where
  valid : M.AllValid w.kept
  lost : w.lost = 0
  mem_answer : ∀ v, v ∈ w.answer ↔ M.Has segments k v
  has_kept : ∀ k' v, M.Has w.kept k' v ↔ M.Has segments k' v

theorem find_finds (h : M.AllValid segments) (k : UInt32) :
    M.Finds segments k (Walk.find k segments) := by
  induction segments with
  | nil => exact ⟨h, rfl, fun v => by simp [Walk.find, Has], fun _ _ => Iff.rfl⟩
  | cons s rest ih =>
    obtain ⟨t, hget, ht, hlook⟩ := M.get_eq h.head k
    have ih := ih h.tail
    unfold Walk.find
    rw [hget]
    have hkept : ∀ k' v, M.Has (t :: (Walk.find k rest).kept) k' v ↔ M.Has (s :: rest) k' v := by
      intro k' v
      rw [has_cons, has_cons, hlook, ih.has_kept]
    cases hs : M.look s k with
    | none =>
      refine ⟨.cons ht ih.valid, ih.lost, ?_, hkept⟩
      intro v
      rw [has_cons, hs]
      exact (ih.mem_answer v).trans ⟨.inr, fun hv => hv.resolve_left nofun⟩
    | some u =>
      refine ⟨.cons ht ih.valid, ih.lost, ?_, hkept⟩
      intro v
      rw [has_cons, hs, List.mem_cons, ih.mem_answer, Option.some.injEq, eq_comm]

/-- A walk that stores a value in one segment, if its answer is yes, and gives up none. -/
structure Stores (segments : List σ) (k : UInt32) (v : V) (w : Walk σ Bool) : Prop where
  valid : M.AllValid w.kept
  lost : w.lost = 0
  has_kept : ∀ k' u, M.Has w.kept k' u ↔
    M.Has segments k' u ∨ (w.answer = true ∧ k' = k ∧ u = v)

theorem add_stores (h : M.AllValid segments) (room : Nat) (k : UInt32) (v : V) :
    M.Stores segments k v (Walk.add room k v segments) := by
  induction segments with
  | nil => exact ⟨h, rfl, fun k' u => by simp [Walk.add]⟩
  | cons s rest ih =>
    have ih := ih h.tail
    have hkeep {t : σ} (ht : M.Valid t) (hlook : M.look t = M.look s) :
        M.Stores (s :: rest) k v ((Walk.add room k v rest).keep t) := by
      refine ⟨.cons ht ih.valid, ih.lost, ?_⟩
      intro k' u
      show M.Has (t :: (Walk.add room k v rest).kept) k' u ↔ _
      rw [has_cons, has_cons, hlook, ih.has_kept, or_assoc]
      rfl
    unfold Walk.add
    split
    · exact hkeep h.head rfl
    · obtain ⟨t, hhas, ht, hlook⟩ := M.has_eq h.head k
      rw [hhas]
      cases hs : M.look s k with
      | some u => exact hkeep ht hlook
      | none =>
        obtain ⟨t', hput, ht', hlook'⟩ := M.put_eq ht k v
        dsimp only [Option.isSome]
        rw [hput]
        refine ⟨.cons ht' h.tail, rfl, ?_⟩
        intro k' u
        rw [has_cons, has_cons, hlook', hlook, Function.update_apply]
        by_cases hk : k' = k
        · subst hk
          rw [if_pos rfl, hs, Option.some.injEq]
          simp [eq_comm, or_comm]
        · simp [hk]

/-- A walk that takes a value out of at most one segment, and gives up none. -/
structure Removes (segments : List σ) (k : UInt32) (v : V) (w : Walk σ Bool) : Prop where
  valid : M.AllValid w.kept
  lost : w.lost = 0
  has_of_kept : ∀ k' u, M.Has w.kept k' u → M.Has segments k' u

theorem delete_removes [DecidableEq V] (h : M.AllValid segments) (k : UInt32) (v : V) :
    M.Removes segments k v (Walk.delete k v segments) := by
  induction segments with
  | nil => exact ⟨h, rfl, fun _ _ hu => hu⟩
  | cons s rest ih =>
    have ih := ih h.tail
    obtain ⟨t, hget, ht, hlook⟩ := M.get_eq h.head k
    unfold Walk.delete
    rw [hget]
    dsimp only
    split
    · obtain ⟨t', hdelete, ht', hlook'⟩ := M.delete_eq ht k
      rw [hdelete]
      refine ⟨.cons ht' h.tail, rfl, ?_⟩
      intro k' u hu
      rw [has_cons, hlook', hlook, Function.update_apply] at hu
      rw [has_cons]
      rcases hu with hu | hu
      · split at hu
        · cases hu
        · exact .inl hu
      · exact .inr hu
    · refine ⟨.cons ht ih.valid, ih.lost, ?_⟩
      intro k' u hu
      have hu : M.Has (t :: (Walk.delete k v rest).kept) k' u := hu
      rw [has_cons, hlook] at hu
      rw [has_cons]
      exact hu.imp_right (ih.has_of_kept k' u)

end SegmentView

/-! ## Chains -/

namespace Chain

/-- The segments are valid, and a new one would be valid and empty. -/
structure Lawful (c : Chain σ) : Prop where
  segments : M.AllValid c.segments
  fresh : ∀ s, c.fresh = .ok s → M.Valid s ∧ ∀ k, M.look s k = none

/-- Some segment has the value for the key. -/
def Has (c : Chain σ) (k : UInt32) (v : V) : Prop := M.Has c.segments k v

variable {M} {c : Chain σ} {k k' : UInt32} {u v : V}

theorem empty_lawful {fresh : Except StorageFailure σ}
    (h : ∀ s, fresh = .ok s → M.Valid s ∧ ∀ k, M.look s k = none) (most room : Nat) :
    (empty fresh most room).Lawful M :=
  ⟨fun _ hs => (nomatch hs), h⟩

theorem find_lawful (h : c.Lawful M) (k : UInt32) : (c.find k).2.Lawful M :=
  ⟨(SegmentView.find_finds h.segments k).valid, h.fresh⟩

theorem mem_find (h : c.Lawful M) : v ∈ (c.find k).1 ↔ c.Has M k v :=
  (SegmentView.find_finds h.segments k).mem_answer v

theorem has_find (h : c.Lawful M) : (c.find k).2.Has M k' v ↔ c.Has M k' v :=
  (SegmentView.find_finds h.segments k).has_kept k' v

theorem evictions_find (h : c.Lawful M) : (c.find k).2.evictions = c.evictions := by
  show c.evictions + (Walk.find k c.segments).lost = _
  rw [(SegmentView.find_finds h.segments k).lost, Nat.add_zero]

theorem delete_lawful [DecidableEq V] (h : c.Lawful M) (k : UInt32) (v : V) :
    (c.delete k v).2.Lawful M :=
  ⟨(SegmentView.delete_removes h.segments k v).valid, h.fresh⟩

theorem has_of_delete [DecidableEq V] (h : c.Lawful M) (hu : (c.delete k v).2.Has M k' u) :
    c.Has M k' u :=
  (SegmentView.delete_removes h.segments k v).has_of_kept k' u hu

/-- What a chain has after it dropped its oldest segment it had before. -/
theorem makeRoom_sublist (c : Chain σ) : c.makeRoom.segments.Sublist c.segments := by
  unfold makeRoom
  split
  · exact List.drop_sublist 1 c.segments
  · exact .refl _

theorem makeRoom_fresh (c : Chain σ) : c.makeRoom.fresh = c.fresh := by
  unfold makeRoom
  split <;> rfl

theorem le_evictions_makeRoom (c : Chain σ) : c.evictions ≤ c.makeRoom.evictions := by
  unfold makeRoom
  split
  · exact Nat.le_succ _
  · exact Nat.le_refl _

/-- Nothing is dropped unless it is counted. -/
theorem makeRoom_eq_self (h : c.makeRoom.evictions = c.evictions) : c.makeRoom = c := by
  unfold makeRoom at *
  split at h
  · exact absurd h (Nat.succ_ne_self _)
  · rw [if_neg ‹_›]

/-- What storing a value does to a chain: it has the value and some or all of what it had. All of it
stays unless an eviction is counted. -/
structure Added (c d : Chain σ) (k : UInt32) (v : V) : Prop where
  lawful : d.Lawful M
  fresh : d.fresh = c.fresh
  evictions_le : c.evictions ≤ d.evictions
  has : ∀ k' u, d.Has M k' u → c.Has M k' u ∨ (k' = k ∧ u = v)
  keeps : d.evictions = c.evictions → ∀ k' u, c.Has M k' u → d.Has M k' u
  stored : (∃ s, c.fresh = .ok s) → d.Has M k v

theorem extend_added (h : c.Lawful M) (k : UInt32) (v : V) :
    Added (M := M) c (c.extend k v) k v := by
  have hvalid : M.AllValid c.makeRoom.segments := fun s hs => h.segments s (c.makeRoom_sublist.subset hs)
  have hhas : ∀ k' u, c.makeRoom.Has M k' u → c.Has M k' u := by
    rintro k' u ⟨s, hs, hu⟩
    exact ⟨s, c.makeRoom_sublist.subset hs, hu⟩
  unfold extend
  dsimp only
  cases hfresh : c.makeRoom.fresh with
  | error e =>
    refine ⟨⟨hvalid, c.makeRoom_fresh ▸ h.fresh⟩, c.makeRoom_fresh, c.le_evictions_makeRoom,
      fun k' u hu => .inl (hhas k' u hu), ?_, ?_⟩
    · intro he k' u hu
      rw [makeRoom_eq_self he]
      exact hu
    · rintro ⟨s, hs⟩
      rw [← c.makeRoom_fresh, hfresh] at hs
      cases hs
  | ok s =>
    have hfresh : c.fresh = .ok s := c.makeRoom_fresh ▸ hfresh
    obtain ⟨hs, hempty⟩ := h.fresh s hfresh
    obtain ⟨t, hput, ht, hlook⟩ := M.put_eq hs k v
    dsimp only
    rw [hput]
    have hnew : ∀ k' u, M.look t k' = some u ↔ k' = k ∧ u = v := by
      intro k' u
      rw [hlook, Function.update_apply]
      by_cases hk : k' = k <;> simp [hk, hempty, eq_comm]
    have hsplit : ∀ k' u, M.Has (c.makeRoom.segments ++ [t]) k' u ↔
        c.makeRoom.Has M k' u ∨ (k' = k ∧ u = v) := by
      intro k' u
      rw [← hnew]
      unfold Has SegmentView.Has
      simp only [List.mem_append, List.mem_singleton, or_and_right, exists_or, exists_eq_left]
    refine ⟨⟨?_, fun s' hs' => h.fresh s' (hfresh.trans hs')⟩, hfresh.symm,
      c.le_evictions_makeRoom, ?_, ?_, ?_⟩
    · intro s' hs'
      rcases List.mem_append.mp hs' with hs' | hs'
      · exact hvalid s' hs'
      · rw [List.mem_singleton.mp hs']
        exact ht
    · intro k' u hu
      exact ((hsplit k' u).mp hu).imp_left (hhas k' u)
    · intro he k' u hu
      refine (hsplit k' u).mpr (.inl ?_)
      rw [makeRoom_eq_self he]
      exact hu
    · intro _
      exact (hsplit k v).mpr (.inr ⟨rfl, rfl⟩)

theorem add_added (h : c.Lawful M) (k : UInt32) (v : V) : Added (M := M) c (c.add k v) k v := by
  have hw := SegmentView.add_stores h.segments c.room k v
  have hlost : (c.after (Walk.add c.room k v c.segments)).evictions = c.evictions := by
    show c.evictions + (Walk.add c.room k v c.segments).lost = _
    rw [hw.lost, Nat.add_zero]
  have hafter : (c.after (Walk.add c.room k v c.segments)).Lawful M := ⟨hw.valid, h.fresh⟩
  unfold add
  dsimp only
  split
  · rename_i hanswer
    refine ⟨hafter, rfl, Nat.le_of_eq hlost.symm, ?_, ?_, ?_⟩
    · intro k' u hu
      exact ((hw.has_kept k' u).mp hu).imp_right And.right
    · intro _ k' u hu
      exact (hw.has_kept k' u).mpr (.inl hu)
    · intro _
      exact (hw.has_kept k v).mpr (.inr ⟨hanswer, rfl, rfl⟩)
  · rename_i hanswer
    have hsame : ∀ k' u, M.Has (Walk.add c.room k v c.segments).kept k' u ↔ c.Has M k' u := by
      intro k' u
      rw [hw.has_kept]
      exact ⟨fun hu => hu.resolve_right fun hu => hanswer hu.1, .inl⟩
    have he := extend_added hafter k v
    refine ⟨he.lawful, he.fresh, hlost ▸ he.evictions_le, ?_, ?_,
      he.stored⟩
    · intro k' u hu
      exact (he.has k' u hu).imp_left (hsame k' u).mp
    · intro hev k' u hu
      exact he.keeps (hev.trans hlost.symm) k' u ((hsame k' u).mpr hu)

end Chain

end DedupImage
