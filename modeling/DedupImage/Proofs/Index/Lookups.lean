import DedupImage.Proofs.Index.CatalogView
import DedupImage.Proofs.Index.Interchange

/-!
# Looking up changes nothing

A look-up returns the index it leaves behind, because a segment may have moved entries between storage
and a cache. What the index holds is the same: every segment is in its place and gives the same value for
every key (`BlockIndex.Same`). This asks nothing of an index but that its segments work; the values may be
anything, and the limits of the chains too.

`Catalog.Consulted` is "look-ups lead from one catalog to the other", and such catalogs hold the same
(`BlockIndex.same_of_consulted`).
-/

namespace DedupImage

/-! ## Segments -/

section

variable {σ V : Type} [Segment σ V] (M : SegmentView σ V)

/-- A segment that works and gives the same value for every key as another one. -/
structure SegmentView.Same (s t : σ) : Prop where
  valid : M.Valid t
  look : M.look t = M.look s

/-- Looking up gives up no segment, and leaves segments with the same values. -/
theorem Walk.find_same {segments : List σ} (h : M.AllValid segments) (k : UInt32) :
    List.Forall₂ M.Same segments (Walk.find k segments).kept := by
  induction segments with
  | nil => exact .nil
  | cons s rest ih =>
    obtain ⟨t, hget, ht, hlook⟩ := M.get_eq h.head k
    unfold Walk.find
    rw [hget]
    cases M.look s k with
    | none => exact .cons ⟨ht, hlook⟩ (ih h.tail)
    | some v => exact .cons ⟨ht, hlook⟩ (ih h.tail)

/-! ## Chains -/

/-- A chain with the same limits, the same history, and segments that hold the same. -/
structure Chain.Same (c d : Chain σ) : Prop where
  segments : List.Forall₂ M.Same c.segments d.segments
  fresh : d.fresh = c.fresh
  most : d.most = c.most
  room : d.room = c.room
  evictions : d.evictions = c.evictions

/-- All segments of all chains work. -/
def ShardedIndex.AllValid (x : ShardedIndex σ) : Prop :=
  ∀ c ∈ x.shards.toList, M.AllValid c.segments

/-- A row of chains that hold the same. -/
structure ShardedIndex.Same (x y : ShardedIndex σ) : Prop where
  keyBits : y.keyBits = x.keyBits
  chains : List.Forall₂ (Chain.Same M) x.shards.toList y.shards.toList

variable {M}

theorem SegmentView.Same.trans {s t u : σ} (h : M.Same s t) (h' : M.Same t u) : M.Same s u :=
  ⟨h'.valid, h'.look.trans h.look⟩

theorem forall₂_same_refl {segments : List σ} (h : M.AllValid segments) :
    List.Forall₂ M.Same segments segments :=
  List.forall₂_same.mpr fun s hs => ⟨h s hs, rfl⟩

/-- Lists are related through a third one if they are element by element. -/
theorem forall₂_trans {α : Type} {R : α → α → Prop} {as bs cs : List α}
    (hR : ∀ a b c, R a b → R b c → R a c) (h : List.Forall₂ R as bs) (h' : List.Forall₂ R bs cs) :
    List.Forall₂ R as cs := by
  induction h generalizing cs with
  | nil => exact h'
  | cons hab _ ih =>
    cases h' with
    | cons hbc hrest => exact .cons (hR _ _ _ hab hbc) (ih hrest)

namespace Chain

variable {c d e : Chain σ}

theorem Same.refl (h : M.AllValid c.segments) : Same M c c :=
  ⟨forall₂_same_refl h, rfl, rfl, rfl, rfl⟩

theorem Same.trans (h : Same M c d) (h' : Same M d e) : Same M c e :=
  ⟨forall₂_trans (fun _ _ _ => SegmentView.Same.trans) h.segments h'.segments, h'.fresh.trans h.fresh,
    h'.most.trans h.most, h'.room.trans h.room, h'.evictions.trans h.evictions⟩

theorem find_same (h : M.AllValid c.segments) (k : UInt32) : Same M c (c.find k).2 where
  segments := Walk.find_same M h k
  fresh := rfl
  most := rfl
  room := rfl
  evictions := by
    show c.evictions + (Walk.find k c.segments).lost = _
    rw [(SegmentView.find_finds h k).lost, Nat.add_zero]

end Chain

/-! ## Rows of chains -/

namespace ShardedIndex

variable {x y z : ShardedIndex σ}

theorem Same.refl (h : x.AllValid M) : Same M x x :=
  ⟨rfl, List.forall₂_same.mpr fun c hc => .refl (h c hc)⟩

theorem Same.trans (h : Same M x y) (h' : Same M y z) : Same M x z :=
  ⟨h'.keyBits.trans h.keyBits, forall₂_trans (fun _ _ _ => Chain.Same.trans) h.chains h'.chains⟩

/-- What holds the same as another index has segments that work. -/
theorem Same.allValid (h : Same M x y) : y.AllValid M := by
  refine forall_mem_of_forall₂ h.chains.flip (P := fun c => M.AllValid c.segments) (Q := fun _ => True)
    ?_ fun _ _ => trivial
  intro d c hcd _
  exact forall_mem_of_forall₂ hcd.segments.flip (Q := fun _ => True) (fun _ _ hs _ => hs.valid)
    fun _ _ => trivial

theorem find_same (h : x.AllValid M) (hash : UInt32) : Same M x (x.find hash).2 := by
  unfold find
  cases hget : x.shards[x.shardOf hash]? with
  | none => exact .refl h
  | some c =>
    refine ⟨rfl, ?_⟩
    have hc : Chain.Same M c (c.find (x.keyOf hash)).2 :=
      Chain.find_same (h c (Array.mem_toList_iff.mpr (Array.mem_of_getElem? hget))) _
    -- The old row with its own chain put in once more.
    have hself : x.shards.toList.set (x.shardOf hash) c = x.shards.toList := by
      rw [← Array.getElem?_toList] at hget
      obtain ⟨hlt, hget⟩ := List.getElem?_eq_some_iff.mp hget
      rw [← hget, List.set_getElem_self]
    have hset := forall₂_set (Same.refl h).chains hc (x.shardOf hash)
    rw [hself] at hset
    rw [Array.toList_setIfInBounds]
    exact hset

end ShardedIndex

end

/-! ## Catalogs -/

/-- Look-ups lead from the first catalog to the second. -/
def Catalog.Consulted {ι : Type} [Catalog ι] : ι → ι → Prop :=
  Relation.ReflTransGen fun x y =>
    ∃ h, y = (Catalog.findReal x h).2 ∨ y = (Catalog.findWindow x h).2

namespace BlockIndex

variable {σ τ : Type} [Segment σ BlockNum] [Segment τ Location] {M : SegmentView σ BlockNum}
  {N : SegmentView τ Location} {x y : BlockIndex σ τ}

/-- All segments of both indexes work. -/
def AllValid (M : SegmentView σ BlockNum) (N : SegmentView τ Location) (x : BlockIndex σ τ) : Prop :=
  x.real.AllValid M ∧ x.windows.AllValid N

/-- A catalog whose indexes hold the same. -/
structure Same (M : SegmentView σ BlockNum) (N : SegmentView τ Location) (x y : BlockIndex σ τ) :
    Prop where
  real : ShardedIndex.Same M x.real y.real
  windows : ShardedIndex.Same N x.windows y.windows

/-- **Look-ups leave both indexes with the entries they had.** -/
theorem same_of_consulted (hx : x.AllValid M N) (h : Catalog.Consulted x y) : Same M N x y := by
  induction h with
  | refl => exact ⟨.refl hx.1, .refl hx.2⟩
  | tail _ hstep ih =>
    obtain ⟨hash, rfl | rfl⟩ := hstep
    · exact ⟨ih.real.trans (ShardedIndex.find_same ih.real.allValid hash), ih.windows⟩
    · exact ⟨ih.real, ih.windows.trans (ShardedIndex.find_same ih.windows.allValid hash)⟩

end BlockIndex

end DedupImage
