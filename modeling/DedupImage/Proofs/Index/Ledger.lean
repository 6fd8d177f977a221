import DedupImage.Proofs.Index.Values
import Mathlib.Algebra.BigOperators.Fin

/-!
# An index forgets and never makes up

An index is a multi-map from hashes that may forget. To say what it may forget, every call is entered in
the books: a call that stores a value puts it in, and a call that deletes one takes it out if its answer
was yes (`added`, `removed`). What an index has under a hash is part of the difference, and all of it as
long as no segment was given up. `ShardedIndex.Faithful` says this, and what the counts of an index mean.

It is shown for rows of chains of finite maps, where one call is entered right
(`ShardedIndex.perform_books`) and so are all calls of a run (`ShardedIndex.runCalls_books`). Segments of
any kind that work answer like finite maps, which makes it the main theorem `index_only_forgets`.
-/

namespace DedupImage

/-! ## Books -/

section

variable {V : Type}

/-- The values that a call puts in. -/
def IndexCall.given : IndexCall V → UInt32 → Multiset V
  | .add h v => valueAt h v
  | _ => 0

/-- The values that a call takes out, by its answer. -/
def IndexCall.taken : IndexCall V → IndexAnswer V → UInt32 → Multiset V
  | .delete h v, .deleted true => valueAt h v
  | _, _ => 0

/-- The values that were added under a hash. -/
def added (calls : List (IndexCall V)) : UInt32 → Multiset V := (calls.map IndexCall.given).sum

/-- The values that were deleted under a hash, by calls that said so. -/
def removed (calls : List (IndexCall V)) (answers : List (IndexAnswer V)) : UInt32 → Multiset V :=
  (List.zipWith IndexCall.taken calls answers).sum

end

namespace ShardedIndex

/-- **What an index owes to those who use it**, where `given` was put in and `taken` was taken out:

* nothing is found that was not put in or that was taken out, and everything else is found until a
  segment is given up;
* until then, what can be deleted is what was put in and not taken out;
* a hash is said to have values if some are found;
* a value that is stored is found at once;
* the number of entries is the number of values of all hashes;
* no chain has more segments, and no segment more entries, than the shape says, but one of each is
  always allowed. -/
structure Faithful {σ V : Type} [Segment σ V] [DecidableEq V] (shape : IndexShape)
    (given taken : UInt32 → Multiset V) (x : ShardedIndex σ) : Prop where
  shards : x.shards.size = (max shape.shards 1).nextPowerOfTwo
  taken_le : ∀ h, taken h ≤ given h
  found_le : ∀ h, ((x.find h).1 : Multiset V) ≤ given h - taken h
  found_eq : x.evictions = 0 → ∀ h, ((x.find h).1 : Multiset V) = given h - taken h
  delete_iff : x.evictions = 0 → ∀ h v, (x.delete h v).1 = true ↔ v ∈ given h - taken h
  has_iff : ∀ h, (x.has h).1 = true ↔ (x.find h).1 ≠ []
  found_added : ∀ h v, v ∈ ((x.add h v).find h).1
  entries : x.entries = ∑ h : UInt32, (x.find h).1.length
  segments_le : ∀ c ∈ x.shards, c.segments.length ≤ max shape.maxSegments 1
  room_le : ∀ c ∈ x.shards, ∀ s ∈ c.segments, Segment.entries s ≤ max shape.segmentEntries 1

/-! ## Rows of chains of finite maps -/

section

variable {V : Type} {x : ShardedIndex (FiniteMap V)} {c d : Chain (FiniteMap V)} {h h' : UInt32}
  {shape : IndexShape}

/-- What a row of chains of finite maps has. -/
def stock (x : ShardedIndex (FiniteMap V)) : Stock V := ⟨fun h => (x.find h).1, x.evictions⟩

/-- Every hash has a chain, every chain is tidy, and its keys are keys of hashes. -/
structure Tidy (shape : IndexShape) (x : ShardedIndex (FiniteMap V)) : Prop where
  lawful : x.Lawful (FiniteMap.view V)
  size : x.shards.size = (max shape.shards 1).nextPowerOfTwo
  chains : ∀ c ∈ x.shards, c.Tidy shape
  reached : ∀ (i : Nat) (c : Chain (FiniteMap V)), x.shards[i]? = some c →
    ∀ k, values k c.segments ≠ [] → ∃ h, x.shardOf h = i ∧ x.keyOf h = k

theorem empty_tidy (shape : IndexShape) : (empty (.ok (∅ : FiniteMap V)) shape).Tidy shape where
  lawful := by
    refine empty_lawful (fun m hm => ?_) shape
    obtain rfl := Except.ok.inj hm
    exact ⟨trivial, fun k => (Finmap.lookup_empty k : Finmap.lookup k (∅ : FiniteMap V) = none)⟩
  size := Array.size_replicate
  chains c hc := by
    rw [Array.eq_of_mem_replicate hc]
    exact Chain.empty_tidy shape
  reached i c hc k hk := by
    rw [Array.eq_of_mem_replicate (Array.mem_of_getElem? hc)] at hk
    exact absurd rfl hk

theorem stock_empty (shape : IndexShape) : (empty (.ok (∅ : FiniteMap V)) shape).stock = .nothing := by
  have hlawful := (empty_tidy (V := V) shape).lawful
  have hvalues : ∀ h, ((empty (.ok (∅ : FiniteMap V)) shape).find h).1 = [] := fun h =>
    List.eq_nil_iff_forall_not_mem.mpr fun v hv => not_has_empty ((mem_find hlawful).mp hv)
  have hevictions : (empty (.ok (∅ : FiniteMap V)) shape).evictions = 0 :=
    evictions_eq_zero_iff.mpr fun c hc => by rw [Array.eq_of_mem_replicate hc]; rfl
  unfold stock
  rw [hevictions]
  exact congrArg (Stock.mk · 0) (funext fun h => congrArg _ (hvalues h))

/-- Values are found in the chain of the hash. -/
theorem find_fst (hget : x.shards[x.shardOf h]? = some c) :
    (x.find h).1 = values (x.keyOf h) c.segments := by
  unfold find
  rw [hget]
  dsimp only
  rw [Chain.find_eq]

/-- A chain that takes its own place changes nothing. -/
theorem withChain_self (hget : x.shards[x.shardOf h]? = some c) : x.withChain h c = x := by
  have hset : x.shards.setIfInBounds (x.shardOf h) c = x.shards := by
    refine Array.ext_getElem? fun i => ?_
    rw [Array.getElem?_setIfInBounds]
    split
    · rename_i heq
      rw [← heq, hget]
      split
      · rfl
      · rename_i hout
        rw [Array.getElem?_eq_none (Nat.le_of_not_lt hout)] at hget
        cases hget
    · rfl
  unfold withChain
  rw [hset]

/-- Looking up changes nothing. -/
theorem find_snd (hx : x.Lawful (FiniteMap.view V)) (h : UInt32) : (x.find h).2 = x := by
  obtain ⟨c, hget, -, -, heq⟩ := find_eq hx h
  rw [heq, Chain.find_eq]
  exact withChain_self hget

/-- A hash has values if some are found, and asking changes nothing. -/
theorem has_eq (hx : x.Lawful (FiniteMap.view V)) (h : UInt32) :
    x.has h = (!(x.find h).1.isEmpty, x) := by
  obtain ⟨c, hget, -, -⟩ := chain_of_lawful hx h
  rw [find_fst hget]
  unfold has
  rw [hget]
  dsimp only
  rw [Chain.has_eq]
  exact congrArg (Prod.mk _) (withChain_self hget)

/-! ### Another chain for a hash -/

/-- Hashes of the same chain find what is in the new one. -/
theorem find_withChain (hx : x.Lawful (FiniteMap.view V)) (h' : UInt32) :
    ((x.withChain h c).find h').1 =
      if x.shardOf h' = x.shardOf h then values (x.keyOf h') c.segments else (x.find h').1 := by
  obtain ⟨d, hget, -, -⟩ := chain_of_lawful hx h'
  have hlt := hx.shardOf_lt h
  have hnew : (x.withChain h c).shards[(x.withChain h c).shardOf h']? =
      if x.shardOf h' = x.shardOf h then some c else some d := by
    show (x.shards.setIfInBounds (x.shardOf h) c)[x.shardOf h']? = _
    rw [Array.getElem?_setIfInBounds, if_pos hlt, hget]
    exact if_congr eq_comm rfl rfl
  split
  · rename_i hshard
    rw [if_pos hshard] at hnew
    exact find_fst hnew
  · rename_i hshard
    rw [if_neg hshard] at hnew
    rw [find_fst hget]
    exact find_fst hnew

/-- A new chain adds to the count what it counted more than the old one. -/
theorem evictions_withChain (hget : x.shards[x.shardOf h]? = some c) :
    (x.withChain h d).evictions + c.evictions = x.evictions + d.evictions := by
  obtain ⟨hlt, hc⟩ := Array.getElem?_eq_some_iff.mp hget
  have hlt : x.shardOf h < (x.shards.toList.map Chain.evictions).length := by
    rw [List.length_map]
    exact hlt
  have hold : (x.shards.toList.map Chain.evictions)[x.shardOf h] = c.evictions := by
    rw [List.getElem_map, Array.getElem_toList, hc]
  have hsplit := List.sum_take_add_sum_drop (x.shards.toList.map Chain.evictions) (x.shardOf h)
  rw [List.drop_eq_getElem_cons hlt, List.sum_cons, hold] at hsplit
  have hset := List.sum_set (x.shards.toList.map Chain.evictions) (x.shardOf h) d.evictions
  rw [if_pos hlt] at hset
  unfold evictions withChain
  rw [← List.sum_eq_foldl_nat, ← List.sum_eq_foldl_nat, Array.toList_setIfInBounds, List.map_set]
  omega

/-- What a new chain puts into the books of its keys is put into those of their hashes. -/
theorem withChain_books (hx : x.Lawful (FiniteMap.view V)) (hget : x.shards[x.shardOf h]? = some c)
    {given taken given' taken' : UInt32 → Multiset V} (hbooks : c.stock.Books d.stock given taken)
    (hgiven : ∀ h', given' h' = if x.shardOf h' = x.shardOf h then given (x.keyOf h') else 0)
    (htaken : ∀ h', taken' h' = if x.shardOf h' = x.shardOf h then taken (x.keyOf h') else 0) :
    x.stock.Books (x.withChain h d).stock given' taken' := by
  have hevictions := evictions_withChain (d := d) hget
  have hold (h') (hshard : x.shardOf h' = x.shardOf h) :
      (x.find h').1 = values (x.keyOf h') c.segments := find_fst (hshard ▸ hget)
  refine ⟨?_, fun h' => ?_, fun heq h' => ?_⟩
  · have hle : c.evictions ≤ d.evictions := hbooks.forgotten_le
    show x.evictions ≤ (x.withChain h d).evictions
    omega
  · show (((x.withChain h d).find h').1 : Multiset V) + taken' h' ≤ (x.find h').1 + given' h'
    rw [find_withChain hx, hgiven, htaken]
    split
    · rw [hold h' ‹_›]
      exact hbooks.le (x.keyOf h')
    · exact le_rfl
  · have heq : d.evictions = c.evictions := by
      have heq : (x.withChain h d).evictions = x.evictions := heq
      omega
    show (((x.withChain h d).find h').1 : Multiset V) + taken' h' = (x.find h').1 + given' h'
    rw [find_withChain hx, hgiven, htaken]
    split
    · rw [hold h' ‹_›]
      exact hbooks.eq heq (x.keyOf h')
    · rfl

/-- One value under a hash is one value under its key. -/
theorem valueAt_hash (hx : x.Lawful (FiniteMap.view V)) (h : UInt32) (v : V) (h' : UInt32) :
    valueAt h v h' = if x.shardOf h' = x.shardOf h then valueAt (x.keyOf h) v (x.keyOf h') else 0 := by
  unfold valueAt
  by_cases heq : h' = h
  · rw [heq, if_pos rfl, if_pos rfl, if_pos rfl]
  · rw [if_neg heq]
    split
    · rename_i hshard
      rw [if_neg fun hkey => heq (hash_injective hx hshard hkey)]
    · rfl

/-- A chain that got no value but under the key of a hash may take the place of the hash's chain. -/
theorem Tidy.withChain (hx : x.Tidy shape) (hget : x.shards[x.shardOf h]? = some c)
    (hlawful : d.Lawful (FiniteMap.view V)) (hd : d.Tidy shape) {given taken : UInt32 → Multiset V}
    (hbooks : c.stock.Books d.stock given taken) (hgiven : ∀ k, k ≠ x.keyOf h → given k = 0) :
    (x.withChain h d).Tidy shape where
  lawful := withChain_lawful hx.lawful hlawful h
  size := by
    show (x.shards.setIfInBounds _ _).size = _
    rw [Array.size_setIfInBounds]
    exact hx.size
  chains e he := by
    rcases mem_withChain he with he | rfl
    · exact hx.chains e he
    · exact hd
  reached i e he k hk := by
    have he : (x.shards.setIfInBounds (x.shardOf h) d)[i]? = some e := he
    by_cases hi : x.shardOf h = i
    · rw [← hi, Array.getElem?_setIfInBounds_self_of_lt (hx.lawful.shardOf_lt h)] at he
      obtain rfl := Option.some.inj he
      by_cases hkey : k = x.keyOf h
      · exact ⟨h, hi, hkey.symm⟩
      · have hle : (values k d.segments : Multiset V) + taken k ≤ values k c.segments + given k :=
          hbooks.le k
        rw [hgiven k hkey, add_zero] at hle
        refine hx.reached i c (hi ▸ hget) k fun hnil => hk ?_
        rw [hnil] at hle
        exact Multiset.coe_eq_zero _ |>.mp (Multiset.le_zero.mp (le_trans (Multiset.le_add_right _ _) hle))
    · rw [Array.getElem?_setIfInBounds_ne hi] at he
      exact hx.reached i e he k hk

/-! ### Calls -/

/-- **Storing a value puts it into the books of its hash.** -/
theorem Tidy.add (hx : x.Tidy shape) (h : UInt32) (v : V) :
    x.stock.Books (x.add h v).stock (valueAt h v) 0 ∧ (x.add h v).Tidy shape := by
  obtain ⟨c, hget, hmem, hc, heq⟩ := add_eq hx.lawful h v
  have hbooks := Chain.add_books (hx.chains c hmem).fresh (x.keyOf h) v
  rw [heq]
  refine ⟨withChain_books hx.lawful hget hbooks (valueAt_hash hx.lawful h v) fun _ => (ite_self 0).symm, ?_⟩
  exact hx.withChain hget (Chain.add_added hc _ v).lawful ((hx.chains c hmem).add _ v) hbooks
    fun k hk => if_neg hk

/-- **Deleting a value takes it out of the books of its hash** if it is there, and says so. -/
theorem Tidy.delete [DecidableEq V] (hx : x.Tidy shape) (h : UInt32) (v : V) :
    x.stock.Books (x.delete h v).2.stock 0 (if (x.delete h v).1 then valueAt h v else 0) ∧
      (x.delete h v).2.Tidy shape ∧ ((x.delete h v).1 = true ↔ v ∈ (x.find h).1) := by
  obtain ⟨c, hget, hmem, hc, heq⟩ := delete_eq hx.lawful h v
  obtain ⟨hbooks, hanswer⟩ := c.delete_books (x.keyOf h) v
  rw [heq, find_fst hget]
  refine ⟨withChain_books hx.lawful hget hbooks (fun _ => (ite_self 0).symm) fun h' => ?_, ?_, hanswer⟩
  · have hvalue := valueAt_hash hx.lawful h v h'
    cases (c.delete (x.keyOf h) v).1 with
    | true => exact hvalue
    | false => exact (ite_self 0).symm
  · exact hx.withChain hget (Chain.delete_lawful hc _ v) ((hx.chains c hmem).delete _ v) hbooks
      fun _ _ => rfl

/-- **A call is entered right in the books.** -/
theorem perform_books [DecidableEq V] (hx : x.Tidy shape) (call : IndexCall V) :
    x.stock.Books (x.perform call).2.stock call.given (call.taken (x.perform call).1) ∧
      (x.perform call).2.Tidy shape := by
  cases call with
  | find h =>
    show x.stock.Books (x.find h).2.stock 0 0 ∧ (x.find h).2.Tidy shape
    rw [find_snd hx.lawful]
    exact ⟨.refl _, hx⟩
  | has h =>
    show x.stock.Books (x.has h).2.stock 0 0 ∧ (x.has h).2.Tidy shape
    rw [has_eq hx.lawful]
    exact ⟨.refl _, hx⟩
  | add h v => exact hx.add h v
  | delete h v =>
    obtain ⟨hbooks, htidy, -⟩ := hx.delete h v
    refine ⟨?_, htidy⟩
    show x.stock.Books (x.delete h v).2.stock 0 (IndexCall.taken (.delete h v) (.deleted (x.delete h v).1))
    cases hanswer : (x.delete h v).1 with
    | true => rwa [hanswer] at hbooks
    | false => rwa [hanswer] at hbooks

/-- **All calls of a run are entered right in the books.** -/
theorem runCalls_books [DecidableEq V] (hx : x.Tidy shape) (calls : List (IndexCall V)) :
    x.stock.Books (runCalls perform x calls).2.stock (added calls)
        (removed calls (runCalls perform x calls).1) ∧
      (runCalls perform x calls).2.Tidy shape := by
  induction calls generalizing x with
  | nil => exact ⟨.refl _, hx⟩
  | cons call rest ih =>
    obtain ⟨hfirst, hnext⟩ := perform_books hx call
    obtain ⟨hrest, hlast⟩ := ih hnext
    refine ⟨?_, hlast⟩
    show x.stock.Books _ (List.sum (call.given :: _)) (List.sum (call.taken (x.perform call).1 :: _))
    rw [List.sum_cons, List.sum_cons]
    exact hfirst.trans hrest

/-! ### Entries -/

/-- **The entries of a row are the values of all hashes**, as no value is under a key that no hash has. -/
theorem Tidy.entries_eq_sum (hx : x.Tidy shape) : x.entries = ∑ h : UInt32, (x.find h).1.length := by
  let chains := x.shards.toList
  -- a hash stands for a chain and a key
  let place (h : UInt32) : Fin chains.length × UInt32 :=
    (⟨x.shardOf h, hx.lawful.shardOf_lt h⟩, x.keyOf h)
  have hget (i : Fin chains.length) : x.shards[i.val]? = some chains[i.val] :=
    Array.getElem?_eq_getElem i.isLt
  have hinjective : Function.Injective place := by
    intro h h' heq
    obtain ⟨hshard, hkey⟩ := Prod.mk.inj heq
    exact hash_injective hx.lawful (Fin.mk.inj hshard) hkey
  have hfound (h : UInt32) :
      (x.find h).1.length = (values (place h).2 chains[(place h).1.val].segments).length :=
    congrArg List.length (find_fst (hget (place h).1))
  have hrest (p : Fin chains.length × UInt32) (hp : p ∉ Set.range place) :
      (values p.2 chains[p.1.val].segments).length = 0 := by
    by_contra hvalues
    obtain ⟨h, hshard, hkey⟩ := hx.reached p.1 _ (hget p.1) p.2 fun hnil =>
      hvalues (congrArg List.length hnil)
    exact hp ⟨h, Prod.ext (Fin.ext hshard) hkey⟩
  let places : Finset (Fin chains.length × UInt32) := Finset.univ ×ˢ Finset.univ
  have hplaces : Set.MapsTo place (Finset.univ : Finset UInt32) places := fun h _ =>
    Finset.mem_product.mpr ⟨Finset.mem_univ _, Finset.mem_univ _⟩
  calc x.entries
      = (chains.map Chain.entries).sum := List.sum_eq_foldl_nat.symm
    _ = ∑ i : Fin chains.length, chains[i.val].entries := (Fin.sum_univ_fun_getElem chains Chain.entries).symm
    _ = ∑ i : Fin chains.length, ∑ k : UInt32, (values k chains[i.val].segments).length :=
        Finset.sum_congr rfl fun i _ => Chain.entries_eq_sum chains[i.val]
    _ = ∑ p ∈ places, (values p.2 chains[p.1.val].segments).length := by
        rw [Finset.sum_product]
    _ = ∑ h : UInt32, (x.find h).1.length := by
        refine (Finset.sum_of_injOn place hinjective.injOn hplaces (fun p _ hp => hrest p ?_)
          fun h _ => hfound h).symm
        rwa [Finset.coe_univ, Set.image_univ] at hp

/-! ### The answers of a row -/

/-- **A row with balanced books is faithful to them.** -/
theorem Tidy.faithful [DecidableEq V] (hx : x.Tidy shape) {given taken : UInt32 → Multiset V}
    (hbooks : Stock.nothing.Books x.stock given taken) : x.Faithful shape given taken where
  shards := hx.size
  taken_le h := le_trans (Multiset.le_add_left _ _) (hbooks.le_given h)
  found_le h := le_tsub_of_add_le_right (hbooks.le_given h)
  found_eq heq h := eq_tsub_of_add_eq (hbooks.eq_given heq h)
  delete_iff heq h v := by
    rw [(hx.delete h v).2.2, ← eq_tsub_of_add_eq (hbooks.eq_given heq h)]
    exact Iff.rfl
  has_iff h := by
    rw [has_eq hx.lawful]
    simp
  found_added h v := by
    obtain ⟨c, hget, hmem, -, heq⟩ := add_eq hx.lawful h v
    rw [heq, find_withChain hx.lawful, if_pos rfl]
    exact Chain.mem_values_add (hx.chains c hmem).fresh _ v
  entries := hx.entries_eq_sum
  segments_le c hc := (hx.chains c hc).most ▸ (hx.chains c hc).length_le
  room_le c hc m hm := (hx.chains c hc).room ▸ (hx.chains c hc).card_le m hm

end

/-! ## Rows of any kind -/

section

variable {σ V : Type} [Segment σ V] [DecidableEq V] {M : CountedView σ V} {x : ShardedIndex σ}
  {x' : ShardedIndex (FiniteMap V)} {shape : IndexShape} {given taken : UInt32 → Multiset V}

/-- A row that is like a faithful one is as faithful. -/
theorem Alike.faithful (h : Alike M x x') (hx : x'.Faithful shape given taken) :
    x.Faithful shape given taken where
  shards := h.chains.length_eq.trans hx.shards
  taken_le := hx.taken_le
  found_le hash := by
    rw [(h.find hash).1]
    exact hx.found_le hash
  found_eq heq hash := by
    rw [(h.find hash).1]
    exact hx.found_eq (h.evictions ▸ heq) hash
  delete_iff heq hash v := by
    rw [(h.delete hash v).1]
    exact hx.delete_iff (h.evictions ▸ heq) hash v
  has_iff hash := by
    rw [(h.has hash).1, (h.find hash).1]
    exact hx.has_iff hash
  found_added hash v := by
    rw [((h.add hash v).find hash).1]
    exact hx.found_added hash v
  entries := by
    rw [h.entries, hx.entries]
    exact Finset.sum_congr rfl fun hash _ => by rw [(h.find hash).1]
  segments_le c hc := by
    have hchains : ∀ c ∈ x.shards.toList, c.segments.length ≤ max shape.maxSegments 1 :=
      forall_mem_of_forall₂ h.chains (fun _ _ hc hle => hc.segments.length_eq ▸ hle) fun c hc =>
        hx.segments_le c (Array.mem_toList_iff.mp hc)
    exact hchains c (Array.mem_toList_iff.mpr hc)
  room_le c hc := by
    have hchains : ∀ c ∈ x.shards.toList,
        ∀ s ∈ c.segments, Segment.entries s ≤ max shape.segmentEntries 1 :=
      forall_mem_of_forall₂ h.chains
        (fun _ _ hc hle => forall_mem_of_forall₂ hc.segments (fun _ _ hs hle => hs.entries ▸ hle) hle)
        fun c hc => hx.room_le c (Array.mem_toList_iff.mp hc)
    exact hchains c (Array.mem_toList_iff.mpr hc)

/-- **An index whose segments work is faithful to its calls.** -/
theorem runCalls_faithful {fresh : Except StorageFailure σ}
    (hfresh : ∃ s, fresh = .ok s ∧ M.Models s ∅) (shape : IndexShape) (calls : List (IndexCall V)) :
    (runCalls perform (empty fresh shape) calls).2.Faithful shape (added calls)
      (removed calls (runCalls perform (empty fresh shape) calls).1) := by
  obtain ⟨hanswers, halike⟩ :=
    runCalls_alike (fun _ _ c h => h.perform c) (empty_alike hfresh shape) calls
  obtain ⟨hbooks, htidy⟩ := runCalls_books (empty_tidy (V := V) shape) calls
  rw [hanswers]
  rw [stock_empty] at hbooks
  exact halike.faithful (htidy.faithful hbooks)

end

end ShardedIndex

/-- **An index forgets and never makes up.** -/
theorem index_only_forgets {V : Type} [RecordValue V] [LawfulRecordValue V] [DecidableEq V]
    {codec : Codec} (hcodec : codec.Lossless) (backend : Backend) (shape : IndexShape)
    (calls : List (IndexCall V)) :
    let start : ShardedIndex (AnySegment V) := .empty (AnySegment.fresh backend codec true) shape
    let run := runCalls ShardedIndex.perform start calls
    run.2.Faithful shape (added calls) (removed calls run.1) :=
  ShardedIndex.runCalls_faithful (AnySegment.fresh_models hcodec backend) shape calls

/-- The second value of a full index drops the first one, which then cannot be deleted. -/
theorem full_index_only_forgets :
    let start : ShardedIndex (AnySegment BlockNum) := .empty (.ok (.table .empty)) ⟨3, 1, 1⟩
    let calls := [.add 5 ⟨1⟩, .add 5 ⟨2⟩, .delete 5 ⟨1⟩, .add 0x80000005 ⟨3⟩, .delete 5 ⟨2⟩]
    let run := runCalls ShardedIndex.perform start calls
    run.1 = [.added, .added, .deleted false, .added, .deleted true] ∧ run.2.evictions = 1 ∧
      run.2.Faithful ⟨3, 1, 1⟩ (added calls) (removed calls run.1) := by
  have hcodec : Codec.Lossless ⟨.zstd, id, fun data _ => .ok data, fun data _ => .ok data⟩ :=
    fun src => ⟨src, rfl, fun _ _ => rfl⟩
  exact ⟨by decide +kernel, by decide +kernel, index_only_forgets hcodec .memory ⟨3, 1, 1⟩ _⟩

/-- A shape without segments and without room holds one segment of one entry all the same. -/
theorem one_segment_is_always_allowed :
    let shape : IndexShape := ⟨1, 0, 0⟩
    let start : ShardedIndex (AnySegment BlockNum) := .empty (.ok (.table .empty)) shape
    let run := runCalls ShardedIndex.perform start [.add 5 ⟨1⟩]
    run.2.entries = 1 ∧ (¬ ∀ c ∈ run.2.shards, c.segments.length ≤ shape.maxSegments) ∧
      ¬ ∀ c ∈ run.2.shards, ∀ s ∈ c.segments, Segment.entries s ≤ shape.segmentEntries := by
  exact ⟨by decide +kernel, by decide +kernel, by decide +kernel⟩

end DedupImage
