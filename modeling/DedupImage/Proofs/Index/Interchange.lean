import DedupImage.Index.AnySegment
import DedupImage.Index.Catalog
import DedupImage.Proofs.Index.Buckets
import DedupImage.Proofs.Index.CatalogView

/-!
# Storage makes no difference to an index

Wherever the segments of an index are kept, they mean finite maps (`AnySegment.counted`). So next to an
index one may put another one of the same shape whose segments are finite maps, and the two go through
everything alike: a walk along segments gives the same answer and gives up as many
(`Walk.Alike`), hence so do chains (`Chain.Alike`), rows of chains (`ShardedIndex.Alike`) and pairs of
those (`BlockIndex.Alike`). With lossless codecs all calls have the same answers, in the same order, and
leave the same numbers of entries and of segments given up.
-/

namespace DedupImage

/-! ## Lists of things that are alike -/

section

variable {α β γ : Type} {R : α → β → Prop} {as : List α} {bs : List β}

theorem map_eq_of_forall₂ {f : α → γ} {g : β → γ} (h : List.Forall₂ R as bs)
    (hfg : ∀ a b, R a b → f a = g b) : as.map f = bs.map g := by
  induction h with
  | nil => rfl
  | cons hab _ ih => exact congrArg₂ List.cons (hfg _ _ hab) ih

/-- What holds of all things in one list may hold of all things that they are like. -/
theorem forall_mem_of_forall₂ {P : α → Prop} {Q : β → Prop} (h : List.Forall₂ R as bs)
    (hpq : ∀ a b, R a b → Q b → P a) (hbs : ∀ b ∈ bs, Q b) : ∀ a ∈ as, P a := by
  induction h with
  | nil => exact nofun
  | cons hab _ ih =>
    rw [List.forall_mem_cons] at hbs ⊢
    exact ⟨hpq _ _ hab hbs.1, ih hbs.2⟩

theorem forall₂_replicate {a : α} {b : β} (h : R a b) (n : Nat) :
    List.Forall₂ R (List.replicate n a) (List.replicate n b) := by
  induction n with
  | zero => exact .nil
  | succ n ih => exact .cons h ih

theorem forall₂_set {a : α} {b : β} (h : List.Forall₂ R as bs) (hab : R a b) (i : Nat) :
    List.Forall₂ R (as.set i a) (bs.set i b) := by
  induction h generalizing i with
  | nil => exact .nil
  | cons hfirst hrest ih =>
    cases i with
    | zero => exact .cons hab hrest
    | succ i => exact .cons hfirst (ih i)

end

/-! ## Segments of any kind -/

namespace AnySegment

variable {V : Type} [RecordValue V]

/-- A segment works and is in order. -/
def Sound : AnySegment V → Prop
  | table _ => True
  | buckets s => s.Sound
  | file s => s.Sound
  | faulty _ => False

/-- The value of a key. -/
def look : AnySegment V → UInt32 → Option V
  | table s, k => s.map[k]?
  | buckets s, k => s.look k
  | file s, k => s.lookup k
  | faulty s, k => s.table.map[k]?

/-- A segment of any kind that works means a finite map. -/
def counted (V : Type) [RecordValue V] [LawfulRecordValue V] : CountedView (AnySegment V) V where
  Valid := Sound
  look := look
  get_eq {s} hs k := by
    cases s with
    | table s => exact ⟨table s, rfl, trivial, rfl⟩
    | buckets s =>
      obtain ⟨t, hget, ht, hlook⟩ := (BucketSegment.counted V).get_eq hs k
      exact ⟨buckets t, congrArg (Except.map _) hget, ht, hlook⟩
    | file s => exact ⟨file s, rfl, hs, rfl⟩
    | faulty s => exact hs.elim
  has_eq {s} hs k := by
    cases s with
    | table s =>
      obtain ⟨t, hhas, ht, hlook⟩ := (TableSegment.counted V).has_eq (s := s) hs k
      exact ⟨table t, congrArg (Except.map fun r : Bool × TableSegment V => (r.1, table r.2)) hhas, ht,
        hlook⟩
    | buckets s =>
      obtain ⟨t, hhas, ht, hlook⟩ := (BucketSegment.counted V).has_eq hs k
      exact ⟨buckets t, congrArg (Except.map _) hhas, ht, hlook⟩
    | file s => exact ⟨file s, rfl, hs, rfl⟩
    | faulty s => exact hs.elim
  put_eq {s} hs k v := by
    cases s with
    | table s =>
      obtain ⟨t, hput, ht, hlook⟩ := (TableSegment.counted V).put_eq (s := s) hs k v
      exact ⟨table t, congrArg (Except.map _) hput, ht, hlook⟩
    | buckets s =>
      obtain ⟨t, hput, ht, hlook⟩ := (BucketSegment.counted V).put_eq hs k v
      exact ⟨buckets t, congrArg (Except.map _) hput, ht, hlook⟩
    | file s =>
      obtain ⟨t, hput, ht, hlook⟩ := (FileSegment.counted V).put_eq hs k v
      exact ⟨file t, congrArg (Except.map _) hput, ht, hlook⟩
    | faulty s => exact hs.elim
  delete_eq {s} hs k := by
    cases s with
    | table s =>
      obtain ⟨t, hdelete, ht, hlook⟩ := (TableSegment.counted V).delete_eq (s := s) hs k
      exact ⟨table t, congrArg (Except.map _) hdelete, ht, hlook⟩
    | buckets s =>
      obtain ⟨t, hdelete, ht, hlook⟩ := (BucketSegment.counted V).delete_eq hs k
      exact ⟨buckets t, congrArg (Except.map _) hdelete, ht, hlook⟩
    | file s =>
      obtain ⟨t, hdelete, ht, hlook⟩ := (FileSegment.counted V).delete_eq hs k
      exact ⟨file t, congrArg (Except.map _) hdelete, ht, hlook⟩
    | faulty s => exact hs.elim
  entries_eq {s} hs m hm := by
    cases s with
    | table s => exact (TableSegment.counted V).entries_eq (s := s) hs m hm
    | buckets s => exact (BucketSegment.counted V).entries_eq hs m hm
    | file s => exact (FileSegment.counted V).entries_eq hs m hm
    | faulty s => exact hs.elim

/-- **A new segment means the empty map**, wherever it is kept. -/
theorem fresh_models [LawfulRecordValue V] {codec : Codec} (h : codec.Lossless) (backend : Backend) :
    ∃ s : AnySegment V, fresh backend codec true = .ok s ∧ (counted V).Models s ∅ := by
  cases backend with
  | memory =>
    have hempty := TableSegment.models_empty V
    exact ⟨_, rfl, trivial, hempty.lookup⟩
  | compressed =>
    have hempty := BucketSegment.models_empty (V := V) h
    exact ⟨_, rfl, hempty.valid, hempty.lookup⟩
  | disk =>
    have hempty := FileSegment.models_empty (V := V)
    exact ⟨_, rfl, hempty.valid, hempty.lookup⟩

end AnySegment

/-! ## Walks -/

section

variable {σ V : Type} [Segment σ V]

namespace Walk

/-- Two walks, the second along finite maps, have the same answer, give up as many segments, and leave
segments that mean the maps. -/
structure Alike {α : Type} (M : CountedView σ V) (w : Walk σ α) (w' : Walk (FiniteMap V) α) :
    Prop where
  answer : w.answer = w'.answer
  kept : List.Forall₂ M.Models w.kept w'.kept
  lost : w.lost = w'.lost

variable {M : CountedView σ V} {segments : List σ} {maps : List (FiniteMap V)}

theorem Alike.keep {α : Type} {w : Walk σ α} {w' : Walk (FiniteMap V) α} {s : σ} {m : FiniteMap V}
    (hs : M.Models s m) (h : Alike M w w') : Alike M (w.keep s) (w'.keep m) :=
  ⟨h.answer, .cons hs h.kept, h.lost⟩

theorem find_alike (h : List.Forall₂ M.Models segments maps) (k : UInt32) :
    Alike M (find k segments) (find k maps) := by
  induction h with
  | nil => exact ⟨rfl, .nil, rfl⟩
  | @cons s m segments maps hs _ ih =>
    obtain ⟨t, hget, ht⟩ := hs.get k
    have hmap : Segment.get m k = .ok (m.lookup k, m) := rfl
    unfold find
    rw [hget, hmap]
    cases m.lookup k with
    | none => exact ih.keep ht
    | some v => exact ⟨congrArg (v :: ·) ih.answer, .cons ht ih.kept, ih.lost⟩

theorem has_alike (h : List.Forall₂ M.Models segments maps) (k : UInt32) :
    Alike M (has k segments) (has k maps) := by
  induction h with
  | nil => exact ⟨rfl, .nil, rfl⟩
  | @cons s m segments maps hs hrest ih =>
    obtain ⟨t, hhas, ht⟩ := hs.has k
    have hmap : Segment.has m k = .ok ((m.lookup k).isSome, m) := rfl
    unfold has
    rw [hhas, hmap]
    cases (m.lookup k).isSome with
    | true => exact ⟨rfl, .cons ht hrest, rfl⟩
    | false => exact ih.keep ht

theorem add_alike (h : List.Forall₂ M.Models segments maps) (room : Nat) (k : UInt32) (v : V) :
    Alike M (add room k v segments) (add room k v maps) := by
  induction h with
  | nil => exact ⟨rfl, .nil, rfl⟩
  | @cons s m segments maps hs hrest ih =>
    have hentries : Segment.entries m = Segment.entries s := hs.entries.symm
    unfold add
    rw [hentries]
    by_cases hfull : room ≤ Segment.entries s
    · rw [if_pos hfull, if_pos hfull]
      exact ih.keep hs
    · obtain ⟨t, hhas, ht⟩ := hs.has k
      have hmap : Segment.has m k = .ok ((m.lookup k).isSome, m) := rfl
      rw [if_neg hfull, if_neg hfull, hhas, hmap]
      cases (m.lookup k).isSome with
      | true => exact ih.keep ht
      | false =>
        obtain ⟨u, hput, hu⟩ := ht.put k v
        have hmapPut : Segment.put m k v = .ok (m.insert k v) := rfl
        dsimp only
        rw [hput, hmapPut]
        exact ⟨rfl, .cons hu hrest, rfl⟩

theorem delete_alike [DecidableEq V] (h : List.Forall₂ M.Models segments maps) (k : UInt32) (v : V) :
    Alike M (delete k v segments) (delete k v maps) := by
  induction h with
  | nil => exact ⟨rfl, .nil, rfl⟩
  | @cons s m segments maps hs hrest ih =>
    obtain ⟨t, hget, ht⟩ := hs.get k
    have hmap : Segment.get m k = .ok (m.lookup k, m) := rfl
    unfold delete
    rw [hget, hmap]
    dsimp only
    by_cases hfound : m.lookup k = some v
    · obtain ⟨u, hdelete, hu⟩ := ht.delete k
      have hmapDelete : Segment.delete m k = .ok (m.erase k) := rfl
      rw [if_pos hfound, if_pos hfound, hdelete, hmapDelete]
      exact ⟨rfl, .cons hu hrest, rfl⟩
    · rw [if_neg hfound, if_neg hfound]
      exact ih.keep ht

end Walk

/-! ## Chains -/

/-- A call of a chain or of a row of chains. -/
inductive IndexCall (V : Type) where
  | find (key : UInt32)
  | has (key : UInt32)
  | add (key : UInt32) (v : V)
  | delete (key : UInt32) (v : V)

/-- What is said to such a call. -/
inductive IndexAnswer (V : Type) where
  | values (found : List V)
  | present (found : Bool)
  | added
  | deleted (found : Bool)
  deriving DecidableEq

namespace Chain

/-- Two chains, the second one of finite maps, with the same limits and the same history. -/
structure Alike (M : CountedView σ V) (c : Chain σ) (c' : Chain (FiniteMap V)) : Prop where
  segments : List.Forall₂ M.Models c.segments c'.segments
  fresh : ∃ s, c.fresh = .ok s ∧ M.Models s ∅
  freshMap : c'.fresh = .ok ∅
  most : c.most = c'.most
  room : c.room = c'.room
  evictions : c.evictions = c'.evictions

variable {M : CountedView σ V} {c : Chain σ} {c' : Chain (FiniteMap V)}

theorem empty_alike {fresh : Except StorageFailure σ} (h : ∃ s, fresh = .ok s ∧ M.Models s ∅)
    (most room : Nat) : Alike M (empty fresh most room) (empty (.ok ∅) most room) :=
  ⟨.nil, h, rfl, rfl, rfl, rfl⟩

namespace Alike

theorem after (h : Alike M c c') {α : Type} {w : Walk σ α} {w' : Walk (FiniteMap V) α}
    (hw : Walk.Alike M w w') : Alike M (c.after w) (c'.after w') :=
  ⟨hw.kept, h.fresh, h.freshMap, h.most, h.room, congrArg₂ (· + ·) h.evictions hw.lost⟩

theorem find (h : Alike M c c') (k : UInt32) :
    (c.find k).1 = (c'.find k).1 ∧ Alike M (c.find k).2 (c'.find k).2 :=
  have hw := Walk.find_alike h.segments k
  ⟨hw.answer, h.after hw⟩

theorem has (h : Alike M c c') (k : UInt32) :
    (c.has k).1 = (c'.has k).1 ∧ Alike M (c.has k).2 (c'.has k).2 :=
  have hw := Walk.has_alike h.segments k
  ⟨hw.answer, h.after hw⟩

theorem delete [DecidableEq V] (h : Alike M c c') (k : UInt32) (v : V) :
    (c.delete k v).1 = (c'.delete k v).1 ∧ Alike M (c.delete k v).2 (c'.delete k v).2 :=
  have hw := Walk.delete_alike h.segments k v
  ⟨hw.answer, h.after hw⟩

/-- Both chains are as long as they may be, or neither is. -/
theorem makeRoom (h : Alike M c c') : Alike M c.makeRoom c'.makeRoom := by
  unfold Chain.makeRoom
  rw [h.most, h.segments.length_eq]
  split
  · refine ⟨?_, h.fresh, h.freshMap, rfl, h.room, congrArg (· + 1) h.evictions⟩
    exact List.forall₂_drop 1 h.segments
  · exact h

theorem extend (h : Alike M c c') (k : UInt32) (v : V) : Alike M (c.extend k v) (c'.extend k v) := by
  have hroom := h.makeRoom
  obtain ⟨s, hfresh, hs⟩ := hroom.fresh
  obtain ⟨t, hput, ht⟩ := hs.put k v
  have hmapPut : Segment.put (∅ : FiniteMap V) k v = .ok (Finmap.insert k v ∅) := rfl
  unfold Chain.extend
  simp only [hfresh, hroom.freshMap, hput, hmapPut]
  exact ⟨List.rel_append hroom.segments (.cons ht .nil), ⟨s, rfl, hs⟩, rfl, hroom.most, hroom.room,
    hroom.evictions⟩

theorem add (h : Alike M c c') (k : UInt32) (v : V) : Alike M (c.add k v) (c'.add k v) := by
  have hw := Walk.add_alike h.segments c.room k v
  unfold Chain.add
  rw [← h.room]
  dsimp only
  rw [← hw.answer]
  split
  · exact h.after hw
  · exact (h.after hw).extend k v

theorem entries (h : Alike M c c') : c.entries = c'.entries := by
  unfold Chain.entries
  rw [map_eq_of_forall₂ h.segments fun _ _ hs => hs.entries]
  rfl

end Alike

/-- The answer of a chain to a call, and the chain afterwards. -/
def perform [DecidableEq V] (c : Chain σ) : IndexCall V → IndexAnswer V × Chain σ
  | .find k => (.values (c.find k).1, (c.find k).2)
  | .has k => (.present (c.has k).1, (c.has k).2)
  | .add k v => (.added, c.add k v)
  | .delete k v => (.deleted (c.delete k v).1, (c.delete k v).2)

/-- The answer of a chain to a call, with the number of its entries and of segments given up
afterwards, and the chain. -/
def call [DecidableEq V] (c : Chain σ) (x : IndexCall V) : (IndexAnswer V × Nat × Nat) × Chain σ :=
  (((c.perform x).1, (c.perform x).2.entries, (c.perform x).2.evictions), (c.perform x).2)

theorem Alike.perform [DecidableEq V] (h : Alike M c c') (x : IndexCall V) :
    (c.perform x).1 = (c'.perform x).1 ∧ Alike M (c.perform x).2 (c'.perform x).2 := by
  cases x with
  | find k => exact ⟨congrArg _ (h.find k).1, (h.find k).2⟩
  | has k => exact ⟨congrArg _ (h.has k).1, (h.has k).2⟩
  | add k v => exact ⟨rfl, h.add k v⟩
  | delete k v => exact ⟨congrArg _ (h.delete k v).1, (h.delete k v).2⟩

theorem Alike.call [DecidableEq V] (h : Alike M c c') (x : IndexCall V) :
    (c.call x).1 = (c'.call x).1 ∧ Alike M (c.call x).2 (c'.call x).2 := by
  obtain ⟨hanswer, hnext⟩ := h.perform x
  refine ⟨?_, hnext⟩
  unfold Chain.call
  rw [hanswer, hnext.entries, hnext.evictions]

/-- **A chain answers all calls as a chain of finite maps does.** -/
theorem Alike.runCalls [DecidableEq V] (h : Alike M c c') (calls : List (IndexCall V)) :
    (DedupImage.runCalls Chain.call c calls).1 = (DedupImage.runCalls Chain.call c' calls).1 :=
  (runCalls_alike (fun _ _ x h => h.call x) h calls).1

end Chain

/-! ## Rows of chains -/

namespace ShardedIndex

/-- Two rows of chains, the second one over finite maps, with chains that are alike. -/
structure Alike (M : CountedView σ V) (x : ShardedIndex σ) (x' : ShardedIndex (FiniteMap V)) :
    Prop where
  keyBits : x.keyBits = x'.keyBits
  chains : List.Forall₂ (Chain.Alike M) x.shards.toList x'.shards.toList

variable {M : CountedView σ V} {x : ShardedIndex σ} {x' : ShardedIndex (FiniteMap V)}

theorem empty_alike {fresh : Except StorageFailure σ} (h : ∃ s, fresh = .ok s ∧ M.Models s ∅)
    (shape : IndexShape) : Alike M (empty fresh shape) (empty (.ok ∅) shape) := by
  refine ⟨rfl, ?_⟩
  unfold empty
  rw [Array.toList_replicate, Array.toList_replicate]
  exact forall₂_replicate (Chain.empty_alike h _ _) _

namespace Alike

/-- A hash leads to chains that are alike, or to none in both rows. -/
theorem chain (h : Alike M x x') (hash : UInt32) :
    (x.shards[x.shardOf hash]? = none ∧ x'.shards[x'.shardOf hash]? = none) ∨
      ∃ c c', x.shards[x.shardOf hash]? = some c ∧ x'.shards[x'.shardOf hash]? = some c' ∧
        Chain.Alike M c c' := by
  have hshard : x'.shardOf hash = x.shardOf hash := by
    unfold shardOf
    rw [h.keyBits]
  have hlength := h.chains.length_eq
  rw [hshard, ← Array.getElem?_toList, ← Array.getElem?_toList]
  by_cases hlt : x.shardOf hash < x.shards.toList.length
  · refine .inr ⟨_, _, List.getElem?_eq_getElem hlt, List.getElem?_eq_getElem (hlength ▸ hlt), ?_⟩
    exact h.chains.get hlt (hlength ▸ hlt)
  · exact .inl ⟨List.getElem?_eq_none (by omega), List.getElem?_eq_none (by omega)⟩

/-- Chains that are alike may take the places of chains. -/
theorem withChain (h : Alike M x x') (hash : UInt32) {c : Chain σ} {c' : Chain (FiniteMap V)}
    (hc : Chain.Alike M c c') : Alike M (x.withChain hash c) (x'.withChain hash c') := by
  have hshard : x'.shardOf hash = x.shardOf hash := by
    unfold shardOf
    rw [h.keyBits]
  refine ⟨h.keyBits, ?_⟩
  unfold ShardedIndex.withChain
  rw [hshard, Array.toList_setIfInBounds, Array.toList_setIfInBounds]
  exact forall₂_set h.chains hc _

theorem keyOf (h : Alike M x x') (hash : UInt32) : x'.keyOf hash = x.keyOf hash := by
  unfold ShardedIndex.keyOf
  rw [h.keyBits]

theorem find (h : Alike M x x') (hash : UInt32) :
    (x.find hash).1 = (x'.find hash).1 ∧ Alike M (x.find hash).2 (x'.find hash).2 := by
  unfold ShardedIndex.find
  rcases h.chain hash with ⟨hnone, hnone'⟩ | ⟨c, c', hsome, hsome', hc⟩
  · rw [hnone, hnone']
    exact ⟨rfl, h⟩
  · rw [hsome, hsome', h.keyOf]
    obtain ⟨hanswer, hnext⟩ := hc.find (x.keyOf hash)
    exact ⟨hanswer, h.withChain hash hnext⟩

theorem has (h : Alike M x x') (hash : UInt32) :
    (x.has hash).1 = (x'.has hash).1 ∧ Alike M (x.has hash).2 (x'.has hash).2 := by
  unfold ShardedIndex.has
  rcases h.chain hash with ⟨hnone, hnone'⟩ | ⟨c, c', hsome, hsome', hc⟩
  · rw [hnone, hnone']
    exact ⟨rfl, h⟩
  · rw [hsome, hsome', h.keyOf]
    obtain ⟨hanswer, hnext⟩ := hc.has (x.keyOf hash)
    exact ⟨hanswer, h.withChain hash hnext⟩

theorem add (h : Alike M x x') (hash : UInt32) (v : V) :
    Alike M (x.add hash v) (x'.add hash v) := by
  unfold ShardedIndex.add
  rcases h.chain hash with ⟨hnone, hnone'⟩ | ⟨c, c', hsome, hsome', hc⟩
  · rw [hnone, hnone']
    exact h
  · rw [hsome, hsome', h.keyOf]
    exact h.withChain hash (hc.add (x.keyOf hash) v)

theorem delete [DecidableEq V] (h : Alike M x x') (hash : UInt32) (v : V) :
    (x.delete hash v).1 = (x'.delete hash v).1 ∧
      Alike M (x.delete hash v).2 (x'.delete hash v).2 := by
  unfold ShardedIndex.delete
  rcases h.chain hash with ⟨hnone, hnone'⟩ | ⟨c, c', hsome, hsome', hc⟩
  · rw [hnone, hnone']
    exact ⟨rfl, h⟩
  · rw [hsome, hsome', h.keyOf]
    obtain ⟨hanswer, hnext⟩ := hc.delete (x.keyOf hash) v
    exact ⟨hanswer, h.withChain hash hnext⟩

theorem entries (h : Alike M x x') : x.entries = x'.entries := by
  unfold ShardedIndex.entries
  rw [map_eq_of_forall₂ h.chains fun _ _ hc => hc.entries]

theorem evictions (h : Alike M x x') : x.evictions = x'.evictions := by
  unfold ShardedIndex.evictions
  rw [map_eq_of_forall₂ h.chains fun _ _ hc => hc.evictions]

end Alike

/-- The answer of a row of chains to a call, and the row afterwards. -/
def perform [DecidableEq V] (x : ShardedIndex σ) : IndexCall V → IndexAnswer V × ShardedIndex σ
  | .find h => (.values (x.find h).1, (x.find h).2)
  | .has h => (.present (x.has h).1, (x.has h).2)
  | .add h v => (.added, x.add h v)
  | .delete h v => (.deleted (x.delete h v).1, (x.delete h v).2)

/-- The answer of a row of chains to a call, with the number of its entries and of segments given up
afterwards, and the row. -/
def call [DecidableEq V] (x : ShardedIndex σ) (c : IndexCall V) :
    (IndexAnswer V × Nat × Nat) × ShardedIndex σ :=
  (((x.perform c).1, (x.perform c).2.entries, (x.perform c).2.evictions), (x.perform c).2)

theorem Alike.perform [DecidableEq V] (h : Alike M x x') (c : IndexCall V) :
    (x.perform c).1 = (x'.perform c).1 ∧ Alike M (x.perform c).2 (x'.perform c).2 := by
  cases c with
  | find k => exact ⟨congrArg _ (h.find k).1, (h.find k).2⟩
  | has k => exact ⟨congrArg _ (h.has k).1, (h.has k).2⟩
  | add k v => exact ⟨rfl, h.add k v⟩
  | delete k v => exact ⟨congrArg _ (h.delete k v).1, (h.delete k v).2⟩

theorem Alike.call [DecidableEq V] (h : Alike M x x') (c : IndexCall V) :
    (x.call c).1 = (x'.call c).1 ∧ Alike M (x.call c).2 (x'.call c).2 := by
  obtain ⟨hanswer, hnext⟩ := h.perform c
  refine ⟨?_, hnext⟩
  unfold ShardedIndex.call
  rw [hanswer, hnext.entries, hnext.evictions]

/-- **A row of chains answers all calls as one over finite maps does.** -/
theorem Alike.runCalls [DecidableEq V] (h : Alike M x x') (calls : List (IndexCall V)) :
    (DedupImage.runCalls ShardedIndex.call x calls).1 =
      (DedupImage.runCalls ShardedIndex.call x' calls).1 :=
  (runCalls_alike (fun _ _ c h => h.call c) h calls).1

end ShardedIndex

end

/-! ## Pairs of indexes -/

namespace BlockIndex

/-- A call of one of the two indexes. -/
inductive Call where
  | real (c : IndexCall BlockNum)
  | windows (c : IndexCall Location)

/-- What is said to such a call. -/
inductive Answer where
  | real (a : IndexAnswer BlockNum)
  | windows (a : IndexAnswer Location)

variable {σ τ : Type} [Segment σ BlockNum] [Segment τ Location] {M : CountedView σ BlockNum}
  {N : CountedView τ Location}

/-- The answer of a pair of indexes to a call, and the pair afterwards. -/
def perform (x : BlockIndex σ τ) : Call → Answer × BlockIndex σ τ
  | .real c => (.real (x.real.perform c).1, { x with real := (x.real.perform c).2 })
  | .windows c => (.windows (x.windows.perform c).1, { x with windows := (x.windows.perform c).2 })

/-- The answer to a call, with the counts afterwards, and the pair. -/
def call (x : BlockIndex σ τ) (c : Call) : (Answer × CatalogStats) × BlockIndex σ τ :=
  (((x.perform c).1, Catalog.stats (x.perform c).2), (x.perform c).2)

/-- Two pairs of indexes, the second over finite maps, that are alike. -/
structure Alike (M : CountedView σ BlockNum) (N : CountedView τ Location) (x : BlockIndex σ τ)
    (x' : BlockIndex (FiniteMap BlockNum) (FiniteMap Location)) : Prop where
  real : x.real.Alike M x'.real
  windows : x.windows.Alike N x'.windows

variable {x : BlockIndex σ τ} {x' : BlockIndex (FiniteMap BlockNum) (FiniteMap Location)}

theorem Alike.stats (h : Alike M N x x') : Catalog.stats x = Catalog.stats x' := by
  show CatalogStats.mk x.real.entries x.windows.entries (x.real.evictions + x.windows.evictions) =
    CatalogStats.mk x'.real.entries x'.windows.entries (x'.real.evictions + x'.windows.evictions)
  rw [h.real.entries, h.windows.entries, h.real.evictions, h.windows.evictions]

theorem Alike.call (h : Alike M N x x') (c : Call) :
    (x.call c).1 = (x'.call c).1 ∧ Alike M N (x.call c).2 (x'.call c).2 := by
  have hperform : (x.perform c).1 = (x'.perform c).1 ∧
      Alike M N (x.perform c).2 (x'.perform c).2 := by
    cases c with
    | real c => exact ⟨congrArg _ (h.real.perform c).1, (h.real.perform c).2, h.windows⟩
    | windows c => exact ⟨congrArg _ (h.windows.perform c).1, h.real, (h.windows.perform c).2⟩
  obtain ⟨hanswer, hnext⟩ := hperform
  refine ⟨?_, hnext⟩
  unfold BlockIndex.call
  rw [hanswer, hnext.stats]

/-- **A pair of indexes answers all calls as one over finite maps does.** -/
theorem Alike.runCalls (h : Alike M N x x') (calls : List Call) :
    (DedupImage.runCalls BlockIndex.call x calls).1 =
      (DedupImage.runCalls BlockIndex.call x' calls).1 :=
  (runCalls_alike (fun _ _ c h => h.call c) h calls).1

end BlockIndex

/-! ## Catalogs -/

/-- Catalogs that may be used one for the other: requests have the same answers, and leave catalogs that
may be used one for the other. -/
structure CatalogSimulation (ι κ : Type) [Catalog ι] [Catalog κ] where
  Alike : ι → κ → Prop
  findReal : ∀ {x : ι} {y : κ}, Alike x y → ∀ h,
    (Catalog.findReal x h).1 = (Catalog.findReal y h).1 ∧
      Alike (Catalog.findReal x h).2 (Catalog.findReal y h).2
  addReal : ∀ {x : ι} {y : κ}, Alike x y → ∀ h b, Alike (Catalog.addReal x h b) (Catalog.addReal y h b)
  findWindow : ∀ {x : ι} {y : κ}, Alike x y → ∀ h,
    (Catalog.findWindow x h).1 = (Catalog.findWindow y h).1 ∧
      Alike (Catalog.findWindow x h).2 (Catalog.findWindow y h).2
  addWindow : ∀ {x : ι} {y : κ}, Alike x y → ∀ h l,
    Alike (Catalog.addWindow x h l) (Catalog.addWindow y h l)
  deleteWindow : ∀ {x : ι} {y : κ}, Alike x y → ∀ h l,
    Alike (Catalog.deleteWindow x h l) (Catalog.deleteWindow y h l)
  stats : ∀ {x : ι} {y : κ}, Alike x y → Catalog.stats x = Catalog.stats y

/-- A catalog of two indexes may be replaced by one over finite maps. -/
def BlockIndex.simulation {σ τ : Type} [Segment σ BlockNum] [Segment τ Location]
    (M : CountedView σ BlockNum) (N : CountedView τ Location) :
    CatalogSimulation (BlockIndex σ τ) (BlockIndex (FiniteMap BlockNum) (FiniteMap Location)) where
  Alike := Alike M N
  findReal hx h := ⟨(hx.real.find h).1, (hx.real.find h).2, hx.windows⟩
  addReal hx h b := ⟨hx.real.add h b, hx.windows⟩
  findWindow hx h := ⟨(hx.windows.find h).1, hx.real, (hx.windows.find h).2⟩
  addWindow hx h l := ⟨hx.real, hx.windows.add h l⟩
  deleteWindow hx h l := ⟨hx.real, (hx.windows.delete h l).2⟩
  stats hx := hx.stats

end DedupImage
