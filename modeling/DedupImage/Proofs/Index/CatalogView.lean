import DedupImage.Proofs.Index.Multimap
import Mathlib.Algebra.GroupWithZero.Nat

/-!
# The catalog of two indexes

The high bits of a hash choose a chain, and the low bits are the key in it; together they determine the
hash, so a row of chains is a multi-map from hashes (`ShardedIndex.Has`).

`BlockIndex.view` sees a pair of such multi-maps as a catalog that makes no entries up, and that keeps
every block until its real index gives up a segment. `BlockIndex.fresh_empty` says that it starts empty.
-/

namespace DedupImage

variable {σ V : Type} [Segment σ V]

namespace ShardedIndex

variable (M : SegmentView σ V)

/-- Every hash has a chain, every chain is in order, and no key loses bits. -/
structure Lawful (x : ShardedIndex σ) : Prop where
  chains : ∀ c ∈ x.shards, c.Lawful M
  keyBits_le : x.keyBits ≤ 32
  shardOf_lt : ∀ h, x.shardOf h < x.shards.size

/-- The chain of the hash has the value under the hash's key. -/
def Has (x : ShardedIndex σ) (h : UInt32) (v : V) : Prop :=
  ∃ c, x.shards[x.shardOf h]? = some c ∧ c.Has M (x.keyOf h) v

/-- No segment was given up so far, and new ones can be opened. -/
structure Whole (x : ShardedIndex σ) : Prop where
  evictions : x.evictions = 0
  fresh : ∀ c ∈ x.shards, ∃ s, c.fresh = .ok s

variable {M} {x : ShardedIndex σ} {h h' : UInt32} {u v : V}

omit [Segment σ V] in
theorem shardOf_eq (x : ShardedIndex σ) (h : UInt32) : x.shardOf h = h.toNat / 2 ^ x.keyBits :=
  Nat.shiftRight_eq_div_pow _ _

theorem toNat_keyOf (hx : x.Lawful M) (h : UInt32) : (x.keyOf h).toNat = h.toNat % 2 ^ x.keyBits := by
  have hpow : 2 ^ x.keyBits ≤ 2 ^ 32 := Nat.pow_le_pow_right (by omega) hx.keyBits_le
  unfold keyOf
  rw [Nat.one_shiftLeft]
  exact UInt32.toNat_ofNat_of_lt' (Nat.lt_of_lt_of_le (Nat.mod_lt _ (Nat.two_pow_pos _)) hpow)

/-- Chain and key determine the hash. -/
theorem hash_injective (hx : x.Lawful M) (hshard : x.shardOf h = x.shardOf h')
    (hkey : x.keyOf h = x.keyOf h') : h = h' := by
  have hkey : h.toNat % 2 ^ x.keyBits = h'.toNat % 2 ^ x.keyBits := by
    rw [← toNat_keyOf hx, ← toNat_keyOf hx, hkey]
  have hshard : h.toNat / 2 ^ x.keyBits = h'.toNat / 2 ^ x.keyBits := by
    rw [← shardOf_eq, ← shardOf_eq, hshard]
  refine UInt32.toNat_inj.mp ?_
  rw [← Nat.div_add_mod h.toNat (2 ^ x.keyBits), hshard, hkey, Nat.div_add_mod]

/-- The index has given up no segment if no chain has. -/
theorem evictions_eq_zero_iff : x.evictions = 0 ↔ ∀ c ∈ x.shards, c.evictions = 0 := by
  unfold evictions
  rw [← List.sum_eq_foldl_nat, List.sum_eq_zero_iff_forall_eq_nat]
  simp only [List.mem_map, Array.mem_toList_iff, forall_exists_index, and_imp,
    forall_apply_eq_imp_iff₂]

/-- The test whether nothing was given up. -/
def isWhole (x : ShardedIndex σ) : Bool :=
  x.evictions == 0 && x.shards.all fun c => c.fresh.toBool

omit [Segment σ V] in
theorem isWhole_iff : x.isWhole = true ↔ x.Whole := by
  have hfresh (c : Chain σ) : c.fresh.toBool = true ↔ ∃ s, c.fresh = .ok s := by
    cases c.fresh with
    | error e => exact ⟨nofun, nofun⟩
    | ok s => exact ⟨fun _ => ⟨s, rfl⟩, fun _ => rfl⟩
  unfold isWhole
  rw [Bool.and_eq_true, beq_iff_eq, Array.all_eq_true_iff_forall_mem]
  simp only [hfresh]
  exact ⟨fun h => ⟨h.1, h.2⟩, fun h => ⟨h.evictions, h.fresh⟩⟩

theorem chain_of_lawful (hx : x.Lawful M) (h : UInt32) :
    ∃ c, x.shards[x.shardOf h]? = some c ∧ c ∈ x.shards ∧ c.Lawful M := by
  have hlt := hx.shardOf_lt h
  refine ⟨x.shards[x.shardOf h], Array.getElem?_eq_getElem hlt, Array.getElem_mem hlt, ?_⟩
  exact hx.chains _ (Array.getElem_mem hlt)

/-! ## Replacing one chain -/

/-- The index with another chain for a hash. -/
def withChain (x : ShardedIndex σ) (h : UInt32) (c : Chain σ) : ShardedIndex σ :=
  { x with shards := x.shards.setIfInBounds (x.shardOf h) c }

variable {c d : Chain σ}

theorem mem_withChain (hd : d ∈ (x.withChain h c).shards) : d ∈ x.shards ∨ d = c :=
  Array.mem_or_eq_of_mem_setIfInBounds hd

theorem withChain_lawful (hx : x.Lawful M) (hc : c.Lawful M) (h : UInt32) :
    (x.withChain h c).Lawful M where
  chains d hd := by
    rcases mem_withChain hd with hd | rfl
    · exact hx.chains d hd
    · exact hc
  keyBits_le := hx.keyBits_le
  shardOf_lt g := by
    show x.shardOf g < (x.shards.setIfInBounds _ _).size
    rw [Array.size_setIfInBounds]
    exact hx.shardOf_lt g

/-- Hashes of the same chain find the new one, and all others what they found before. -/
theorem has_withChain (hx : x.Lawful M) (h' : UInt32) (u : V) : (x.withChain h c).Has M h' u ↔
    if x.shardOf h' = x.shardOf h then c.Has M (x.keyOf h') u else x.Has M h' u := by
  have hlt := hx.shardOf_lt h
  have hkey : (x.withChain h c).keyOf h' = x.keyOf h' := rfl
  have hshard : (x.withChain h c).shardOf h' = x.shardOf h' := rfl
  have hget : (x.withChain h c).shards[x.shardOf h']? =
      if x.shardOf h' = x.shardOf h then some c else x.shards[x.shardOf h']? := by
    show (x.shards.setIfInBounds (x.shardOf h) c)[x.shardOf h']? = _
    rw [Array.getElem?_setIfInBounds, if_pos hlt]
    exact if_congr eq_comm rfl rfl
  unfold Has
  rw [hkey, hshard, hget]
  split
  · simp only [Option.some.injEq, exists_eq_left']
  · rfl

/-! ## Operations -/

/-- A look-up in the chain of a hash replaces the chain by one with the same values. -/
theorem find_eq (hx : x.Lawful M) (h : UInt32) :
    ∃ c, x.shards[x.shardOf h]? = some c ∧ c ∈ x.shards ∧ c.Lawful M ∧
      x.find h = ((c.find (x.keyOf h)).1, x.withChain h (c.find (x.keyOf h)).2) := by
  obtain ⟨c, hget, hmem, hc⟩ := chain_of_lawful hx h
  refine ⟨c, hget, hmem, hc, ?_⟩
  unfold find
  rw [hget]
  rfl

theorem add_eq (hx : x.Lawful M) (h : UInt32) (v : V) :
    ∃ c, x.shards[x.shardOf h]? = some c ∧ c ∈ x.shards ∧ c.Lawful M ∧
      x.add h v = x.withChain h (c.add (x.keyOf h) v) := by
  obtain ⟨c, hget, hmem, hc⟩ := chain_of_lawful hx h
  refine ⟨c, hget, hmem, hc, ?_⟩
  unfold add
  rw [hget]
  rfl

theorem delete_eq [DecidableEq V] (hx : x.Lawful M) (h : UInt32) (v : V) :
    ∃ c, x.shards[x.shardOf h]? = some c ∧ c ∈ x.shards ∧ c.Lawful M ∧
      x.delete h v = ((c.delete (x.keyOf h) v).1, x.withChain h (c.delete (x.keyOf h) v).2) := by
  obtain ⟨c, hget, hmem, hc⟩ := chain_of_lawful hx h
  refine ⟨c, hget, hmem, hc, ?_⟩
  unfold delete
  rw [hget]
  rfl

/-- The chain of a hash decides what the index has under the hash, and under all hashes of the chain. -/
theorem has_iff_of_shard (hget : x.shards[x.shardOf h]? = some c) (hshard : x.shardOf h' = x.shardOf h) :
    x.Has M h' u ↔ c.Has M (x.keyOf h') u := by
  unfold Has
  rw [hshard, hget]
  simp only [Option.some.injEq, exists_eq_left']

theorem mem_find (hx : x.Lawful M) : v ∈ (x.find h).1 ↔ x.Has M h v := by
  obtain ⟨c, hget, -, hc, heq⟩ := find_eq hx h
  rw [heq, has_iff_of_shard hget rfl]
  exact Chain.mem_find hc

theorem find_lawful (hx : x.Lawful M) (h : UInt32) : (x.find h).2.Lawful M := by
  obtain ⟨c, -, -, hc, heq⟩ := find_eq hx h
  rw [heq]
  exact withChain_lawful hx (Chain.find_lawful hc _) h

theorem has_find (hx : x.Lawful M) : (x.find h).2.Has M h' u ↔ x.Has M h' u := by
  obtain ⟨c, hget, -, hc, heq⟩ := find_eq hx h
  rw [heq, has_withChain hx]
  split
  · rw [Chain.has_find hc, has_iff_of_shard hget ‹_›]
  · rfl

theorem add_lawful (hx : x.Lawful M) (h : UInt32) (v : V) : (x.add h v).Lawful M := by
  obtain ⟨c, -, -, hc, heq⟩ := add_eq hx h v
  rw [heq]
  exact withChain_lawful hx (Chain.add_added hc _ v).lawful h

/-- Storing puts in no other value. -/
theorem has_of_add (hx : x.Lawful M) (hu : (x.add h v).Has M h' u) :
    x.Has M h' u ∨ (h' = h ∧ u = v) := by
  obtain ⟨c, hget, -, hc, heq⟩ := add_eq hx h v
  rw [heq, has_withChain hx] at hu
  split at hu
  · rcases (Chain.add_added hc _ v).has _ _ hu with hu | ⟨hkey, hu⟩
    · exact .inl ((has_iff_of_shard hget ‹_›).mpr hu)
    · exact .inr ⟨hash_injective hx ‹_› hkey, hu⟩
  · exact .inl hu

theorem delete_lawful [DecidableEq V] (hx : x.Lawful M) (h : UInt32) (v : V) :
    (x.delete h v).2.Lawful M := by
  obtain ⟨c, -, -, hc, heq⟩ := delete_eq hx h v
  rw [heq]
  exact withChain_lawful hx (Chain.delete_lawful hc _ v) h

theorem has_of_delete [DecidableEq V] (hx : x.Lawful M) (hu : (x.delete h v).2.Has M h' u) :
    x.Has M h' u := by
  obtain ⟨c, hget, -, hc, heq⟩ := delete_eq hx h v
  rw [heq, has_withChain hx] at hu
  split at hu
  · exact (has_iff_of_shard hget ‹_›).mpr (Chain.has_of_delete hc hu)
  · exact hu

/-! ## As long as nothing is given up -/

/-- If the index with a new chain is whole and the chain came from one of the index, the index was
whole, and the chain counted nothing. -/
theorem whole_of_withChain (hx : x.Lawful M) (hget : x.shards[x.shardOf h]? = some c)
    (hle : c.evictions ≤ d.evictions) (hfresh : d.fresh = c.fresh) (hw : (x.withChain h d).Whole) :
    x.Whole ∧ d.evictions = c.evictions ∧ ∃ s, c.fresh = .ok s := by
  have hlt := hx.shardOf_lt h
  have hset : ∀ (i : Nat) (e : Chain σ), x.shards[i]? = some e →
      e = c ∨ e ∈ (x.withChain h d).shards := by
    intro i e he
    by_cases hi : x.shardOf h = i
    · subst hi
      exact .inl (Option.some.inj (he.symm.trans hget))
    · refine .inr (Array.mem_of_getElem? (i := i) ?_)
      show (x.shards.setIfInBounds _ d)[i]? = _
      rw [Array.getElem?_setIfInBounds_ne hi]
      exact he
  have hd : d ∈ (x.withChain h d).shards := by
    refine Array.mem_of_getElem? (i := x.shardOf h) ?_
    exact Array.getElem?_setIfInBounds_self_of_lt hlt
  have hdzero := evictions_eq_zero_iff.mp hw.evictions d hd
  have hdfresh := hw.fresh d hd
  rw [hfresh] at hdfresh
  refine ⟨⟨evictions_eq_zero_iff.mpr fun e he => ?_, fun e he => ?_⟩, by omega, hdfresh⟩ <;>
    obtain ⟨i, hi⟩ := Array.getElem?_of_mem he <;>
    rcases hset i e hi with rfl | hmem
  · omega
  · exact evictions_eq_zero_iff.mp hw.evictions e hmem
  · exact hdfresh
  · exact hw.fresh e hmem

theorem whole_of_find (hx : x.Lawful M) (hw : (x.find h).2.Whole) : x.Whole := by
  obtain ⟨c, hget, -, hc, heq⟩ := find_eq hx h
  rw [heq] at hw
  exact (whole_of_withChain hx hget (Nat.le_of_eq (Chain.evictions_find hc).symm) rfl hw).1

theorem whole_of_add (hx : x.Lawful M) (hw : (x.add h v).Whole) : x.Whole := by
  obtain ⟨c, hget, -, hc, heq⟩ := add_eq hx h v
  rw [heq] at hw
  have hadded := Chain.add_added hc (x.keyOf h) v
  exact (whole_of_withChain hx hget hadded.evictions_le hadded.fresh hw).1

/-- Storing keeps everything if no segment was given up, and stores the value. -/
theorem has_add_of_whole (hx : x.Lawful M) (hw : (x.add h v).Whole) :
    (x.add h v).Has M h v ∧ ∀ h' u, x.Has M h' u → (x.add h v).Has M h' u := by
  obtain ⟨c, hget, -, hc, heq⟩ := add_eq hx h v
  rw [heq] at hw ⊢
  have hadded := Chain.add_added hc (x.keyOf h) v
  obtain ⟨-, hevictions, hfresh⟩ :=
    whole_of_withChain hx hget hadded.evictions_le hadded.fresh hw
  refine ⟨?_, fun h' u hu => ?_⟩ <;> rw [has_withChain hx]
  · rw [if_pos rfl]
    exact hadded.stored hfresh
  · split
    · exact hadded.keeps hevictions _ _ ((has_iff_of_shard hget ‹_›).mp hu)
    · exact hu

/-! ## The empty index -/

theorem empty_lawful {fresh : Except StorageFailure σ}
    (h : ∀ s, fresh = .ok s → M.Valid s ∧ ∀ k, M.look s k = none) (shape : IndexShape) :
    (empty fresh shape).Lawful M := by
  obtain ⟨j, hj⟩ := Nat.isPowerOfTwo_nextPowerOfTwo (max shape.shards 1)
  refine ⟨?_, Nat.sub_le _ _, ?_⟩
  · intro c hc
    rw [Array.eq_of_mem_replicate hc]
    exact Chain.empty_lawful h _ _
  · intro g
    rw [shardOf_eq]
    show g.toNat / 2 ^ (32 - (max shape.shards 1).nextPowerOfTwo.log2) < (Array.replicate _ _).size
    rw [Array.size_replicate, hj, Nat.log2_two_pow, Nat.div_lt_iff_lt_mul (Nat.two_pow_pos _),
      ← Nat.pow_add]
    refine Nat.lt_of_lt_of_le g.toNat_lt ?_
    exact Nat.pow_le_pow_right (by omega) (by omega)

theorem not_has_empty {fresh : Except StorageFailure σ} {shape : IndexShape} :
    ¬ (empty fresh shape).Has M h v := by
  rintro ⟨c, hget, s, hs, -⟩
  rw [Array.eq_of_mem_replicate (Array.mem_of_getElem? hget)] at hs
  cases hs

end ShardedIndex

/-! ## The view of a catalog -/

namespace BlockIndex

variable {τ : Type} [Segment σ BlockNum] [Segment τ Location]

/-- A catalog of two indexes as a set of entries. It is intact as long as its real index is whole. -/
def view (M : SegmentView σ BlockNum) (N : SegmentView τ Location) : KeepingView (BlockIndex σ τ) where
  Valid x := x.real.Lawful M ∧ x.windows.Lawful N
  Holds x e :=
    match e with
    | .block h b => x.real.Has M h b
    | .window h l => x.windows.Has N h l
  Intact x := x.real.Whole
  valid_apply := by
    rintro x ⟨hreal, hwindows⟩ r
    cases r with
    | findReal h => exact ⟨ShardedIndex.find_lawful hreal h, hwindows⟩
    | addReal h b => exact ⟨ShardedIndex.add_lawful hreal h b, hwindows⟩
    | findWindow h => exact ⟨hreal, ShardedIndex.find_lawful hwindows h⟩
    | addWindow h l => exact ⟨hreal, ShardedIndex.add_lawful hwindows h l⟩
    | deleteWindow h l => exact ⟨hreal, ShardedIndex.delete_lawful hwindows h l⟩
  holds_apply := by
    rintro x ⟨hreal, hwindows⟩ r e he
    cases r with
    | findReal h =>
      cases e with
      | block h' b => exact .inr ((ShardedIndex.has_find hreal).mp he)
      | window h' l => exact .inr he
    | addReal h b =>
      cases e with
      | block h' b' =>
        rcases ShardedIndex.has_of_add hreal he with he | ⟨rfl, rfl⟩
        · exact .inr he
        · exact .inl rfl
      | window h' l => exact .inr he
    | findWindow h =>
      cases e with
      | block h' b => exact .inr he
      | window h' l => exact .inr ((ShardedIndex.has_find hwindows).mp he)
    | addWindow h l =>
      cases e with
      | block h' b => exact .inr he
      | window h' l' =>
        rcases ShardedIndex.has_of_add hwindows he with he | ⟨rfl, rfl⟩
        · exact .inr he
        · exact .inl rfl
    | deleteWindow h l =>
      cases e with
      | block h' b => exact .inr he
      | window h' l' => exact .inr (ShardedIndex.has_of_delete hwindows he)
  holds_findReal h _ _ hb := (ShardedIndex.mem_find h.1).mp hb
  holds_findWindow h _ _ hl := (ShardedIndex.mem_find h.2).mp hl
  intact_of_apply := by
    rintro x ⟨hreal, -⟩ r hr
    cases r with
    | findReal h => exact ShardedIndex.whole_of_find hreal hr
    | addReal h b => exact ShardedIndex.whole_of_add hreal hr
    | findWindow h => exact hr
    | addWindow h l => exact hr
    | deleteWindow h l => exact hr
  keeps_apply := by
    rintro x ⟨hreal, -⟩ r hr h b hb
    cases r with
    | findReal h' => exact (ShardedIndex.has_find hreal).mpr hb
    | addReal h' b' => exact (ShardedIndex.has_add_of_whole hreal hr).2 h b hb
    | findWindow h' => exact hb
    | addWindow h' l => exact hb
    | deleteWindow h' l => exact hb
  holds_addReal h _ _ hw := (ShardedIndex.has_add_of_whole h.1 hw).1
  mem_findReal h _ _ _ hb := (ShardedIndex.mem_find h.1).mpr hb

/-- A catalog starts in order and empty, if new segments do. -/
theorem fresh_empty {M : SegmentView σ BlockNum} {N : SegmentView τ Location}
    {real : Except StorageFailure σ} {window : Except StorageFailure τ}
    (hreal : ∀ s, real = .ok s → M.Valid s ∧ ∀ k, M.look s k = none)
    (hwindow : ∀ s, window = .ok s → N.Valid s ∧ ∀ k, N.look s k = none)
    (realShape windowShape : IndexShape) :
    (view M N).Fresh
      ⟨ShardedIndex.empty real realShape, ShardedIndex.empty window windowShape⟩ where
  valid := ⟨ShardedIndex.empty_lawful hreal realShape, ShardedIndex.empty_lawful hwindow windowShape⟩
  empty e he := by
    cases e with
    | block h b => exact ShardedIndex.not_has_empty he
    | window h l => exact ShardedIndex.not_has_empty he

/-- The view of a catalog in memory. -/
def tableView : KeepingView (BlockIndex (TableSegment BlockNum) (TableSegment Location)) :=
  view (TableSegment.view BlockNum) (TableSegment.view Location)

/-- The catalog in memory without entries. -/
def emptyTables (real windows : IndexShape) :
    BlockIndex (TableSegment BlockNum) (TableSegment Location) :=
  ⟨.empty (.ok .empty) real, .empty (.ok .empty) windows⟩

theorem emptyTables_fresh (real windows : IndexShape) :
    tableView.Fresh (emptyTables real windows) := by
  have hempty {V : Type} (s : TableSegment V)
      (hs : (.ok .empty : Except StorageFailure (TableSegment V)) = .ok s) :
      (TableSegment.view V).Valid s ∧ ∀ k, (TableSegment.view V).look s k = none := by
    obtain rfl := Except.ok.inj hs
    exact ⟨trivial, fun k => Std.TreeMap.getElem?_emptyc⟩
  exact fresh_empty hempty hempty real windows

end BlockIndex

end DedupImage
