import DedupImage.Proofs.Image.Acceptance
import DedupImage.Proofs.Image.RoundTrip
import Mathlib.Data.List.Dedup
import Mathlib.Data.List.Infix

/-!
# The cache of a reader cannot be seen

A reader keeps containers that it has decompressed, and each of its calls may find some of them and load
others. Beside it stands a reader that keeps nothing (`plain`): it loads every container that it needs,
and says which ones it used. The two give the same answers, and what a call does to the cache is to use
these containers one after another (`After.plain`). So whatever was read before and whatever the cache
keeps, a call is answered as by an image that was just opened (`cache_is_invisible`).

Meanwhile the cache stays in order (`Kept`). Its count of bytes is right and within the limit, unless a
single container is over it; what it holds for a container is what loading gives; and the containers
stand in the order of their last use, which are the last ones of all that were ever used. That order is
`List.dedup` of the uses, which keeps the last of equal elements.
-/

namespace DedupImage

/-! ## The order of last use -/

section Recency

variable {α : Type} [DecidableEq α]

/-- What is used once more becomes the last. -/
theorem dedup_concat (uses : List α) (a : α) :
    (uses ++ [a]).dedup = (uses.dedup.filter fun b => b != a) ++ [a] := by
  induction uses with
  | nil => rfl
  | cons b rest ih =>
    rw [List.cons_append]
    by_cases hrest : b ∈ rest
    · rw [List.dedup_cons_of_mem (List.mem_append_left _ hrest), ih, List.dedup_cons_of_mem hrest]
    · rw [List.dedup_cons_of_notMem hrest]
      by_cases hb : b = a
      · rw [List.dedup_cons_of_mem (by simp [hb]), ih, List.filter_cons_of_neg (by simp [hb])]
      · rw [List.dedup_cons_of_notMem (by simp [hrest, hb]), ih,
          List.filter_cons_of_pos (by simpa using hb)]
        rfl

/-- The last ones stay the last ones, if what is used is put behind them. -/
theorem suffix_dedup_concat {kept uses : List α} (h : kept <:+ uses.dedup) (a : α) :
    (kept.filter fun b => b != a) ++ [a] <:+ (uses ++ [a]).dedup := by
  rw [dedup_concat]
  exact (List.suffix_append_self_iff).mpr (h.filter _)

end Recency

/-! ## Using a cache -/

namespace ContainerCache

variable {c : ContainerCache} {load : Nat → Except Failure ByteArray} {uses : List Nat} {id : Nat}
  {data : ByteArray}

/-- The numbers of the cached containers. -/
def ids (c : ContainerCache) : List Nat := c.entries.map Prod.fst

/-- The bytes of some entries. -/
def totalSize (entries : List (Nat × ByteArray)) : Nat := (entries.map fun e => e.2.size).sum

/-- Use a container: it becomes the most recently used one, and comes into the cache if it is not there. -/
def use (c : ContainerCache) (e : Nat × ByteArray) : ContainerCache :=
  match c.lookup e.1 with
  | some _ => c.touch e.1 e.2
  | none => c.insert e.1 e.2

/-- Use containers one after another. -/
def useAll (c : ContainerCache) (used : List (Nat × ByteArray)) : ContainerCache := used.foldl use c

/-- What is cached is what loading gives. -/
def Holds (load : Nat → Except Failure ByteArray) (c : ContainerCache) : Prop :=
  ∀ e ∈ c.entries, load e.1 = .ok e.2

theorem Holds.use (h : c.Holds load) {e : Nat × ByteArray} (he : load e.1 = .ok e.2) :
    (c.use e).Holds load := by
  intro e' he'
  unfold ContainerCache.use at he'
  have hcases : e' ∈ c.entries ∨ e' = e := by
    split at he'
    · exact mem_touch he'
    · exact mem_insert he'
  rcases hcases with hmem | rfl
  · exact h e' hmem
  · exact he

theorem Holds.useAll (h : c.Holds load) {used : List (Nat × ByteArray)}
    (hused : ∀ e ∈ used, load e.1 = .ok e.2) : (c.useAll used).Holds load := by
  induction used generalizing c with
  | nil => exact h
  | cons e rest ih =>
    exact ih (h.use (hused e List.mem_cons_self)) fun e' he' => hused e' (List.mem_cons_of_mem e he')

/-! ## A cache in order -/

/-- The bytes are counted right, they are within the limit or of a single container, every entry is what
loading gives, and the containers are the last ones that were used, in the order of their last use. -/
structure Orderly (load : Nat → Except Failure ByteArray) (uses : List Nat) (c : ContainerCache) :
    Prop where
  counted : c.bytes = totalSize c.entries
  bounded : c.bytes ≤ c.limit ∨ c.entries.length ≤ 1
  holds : c.Holds load
  recent : c.ids <:+ uses.dedup
  /-- The newest container stays. -/
  newest : uses ≠ [] → c.entries ≠ []

theorem Orderly.nodup (h : c.Orderly load uses) : c.ids.Nodup :=
  (List.nodup_dedup uses).sublist h.recent.sublist

theorem lookup_eq_none_iff : c.lookup id = none ↔ id ∉ c.ids := by
  unfold lookup ids
  rw [Option.map_eq_none_iff, List.find?_eq_none, List.mem_map]
  constructor
  · rintro hnone ⟨e, he, rfl⟩
    exact hnone e he (beq_self_eq_true _)
  · intro hnone e he hid
    exact hnone ⟨e, he, beq_iff_eq.mp hid⟩

/-- An entry that is put behind all others leaves the same entries. -/
theorem perm_moved {entries : List (Nat × ByteArray)} (hnodup : (entries.map Prod.fst).Nodup)
    (hmem : (id, data) ∈ entries) :
    ((entries.filter fun e => e.1 != id) ++ [(id, data)]).Perm entries := by
  induction entries with
  | nil => exact absurd hmem List.not_mem_nil
  | cons first rest ih =>
    obtain ⟨hfirst, hrest⟩ := List.nodup_cons.mp hnodup
    rcases List.mem_cons.mp hmem with rfl | hmem
    · have hothers : (rest.filter fun e => e.1 != id) = rest := by
        refine List.filter_eq_self.mpr fun e he => bne_iff_ne.mpr ?_
        rintro rfl
        exact hfirst (List.mem_map.mpr ⟨e, he, rfl⟩)
      rw [List.filter_cons_of_neg (by simp), hothers]
      exact List.perm_append_singleton _ _
    · have hne : first.1 ≠ id := by
        rintro rfl
        exact hfirst (List.mem_map.mpr ⟨_, hmem, rfl⟩)
      rw [List.filter_cons_of_pos (by simpa using hne)]
      exact (ih hrest hmem).cons first

theorem Orderly.touch (h : c.Orderly load uses) (hmem : (id, data) ∈ c.entries) :
    (c.touch id data).Orderly load (uses ++ [id]) := by
  have hperm : (c.touch id data).entries.Perm c.entries := perm_moved h.nodup hmem
  refine ⟨?_, ?_, ?_, ?_, ?_⟩
  · exact h.counted.trans (hperm.map _).sum_eq.symm
  · exact h.bounded.imp_right hperm.length_eq.le.trans
  · intro e he
    exact h.holds e (hperm.mem_iff.mp he)
  · have hids : (c.touch id data).ids = (c.ids.filter fun i => i != id) ++ [id] := by
      unfold ids ContainerCache.touch
      rw [List.map_append, List.filter_map]
      rfl
    rw [hids]
    exact suffix_dedup_concat h.recent id
  · exact fun _ => List.append_ne_nil_of_right_ne_nil _ (List.cons_ne_nil _ _)

/-- What is dropped is dropped from the front, and only while it has to be. -/
theorem dropOld_spec (limit : Nat) {bytes : Nat} {entries : List (Nat × ByteArray)}
    (h : bytes = totalSize entries) :
    (dropOld limit entries bytes).1 <:+ entries ∧
      (dropOld limit entries bytes).2 = totalSize (dropOld limit entries bytes).1 ∧
      ((dropOld limit entries bytes).2 ≤ limit ∨ (dropOld limit entries bytes).1.length ≤ 1) ∧
      (entries ≠ [] → (dropOld limit entries bytes).1 ≠ []) := by
  induction entries, bytes using dropOld.induct limit with
  | case1 first second rest bytes hover ih =>
    rw [dropOld, if_pos hover]
    have hrest : bytes - first.2.size = totalSize (second :: rest) := by
      rw [h, totalSize, List.map_cons, List.sum_cons, Nat.add_sub_cancel_left]
      rfl
    obtain ⟨hsuffix, hcounted, hbounded, hsome⟩ := ih hrest
    exact ⟨hsuffix.trans (List.suffix_cons _ _), hcounted, hbounded,
      fun _ => hsome (List.cons_ne_nil _ _)⟩
  | case2 first second rest bytes hover =>
    rw [dropOld, if_neg hover]
    exact ⟨List.suffix_rfl, h, .inl (Nat.not_lt.mp hover), id⟩
  | case3 entries bytes hshort =>
    have hlength : entries.length ≤ 1 := by
      rcases entries with _ | ⟨first, _ | ⟨second, rest⟩⟩
      · exact Nat.zero_le 1
      · exact Nat.le_refl 1
      · exact (hshort first second rest rfl).elim
    rw [dropOld]
    · exact ⟨List.suffix_rfl, h, .inr hlength, id⟩
    · exact hshort

/-- Keeping to the limit brings a cache in order. -/
theorem orderly_trim (hcounted : c.bytes = totalSize c.entries) (hholds : c.Holds load)
    (hrecent : c.ids <:+ uses.dedup) (hnewest : uses ≠ [] → c.entries ≠ []) :
    c.trim.Orderly load uses := by
  obtain ⟨hsuffix, hkept, hbounded, hsome⟩ := dropOld_spec c.limit hcounted
  refine ⟨hkept, hbounded, ?_, ?_, ?_⟩
  · exact fun e he => hholds e (hsuffix.mem he)
  · exact (hsuffix.map Prod.fst).trans hrecent
  · exact fun hused => hsome (hnewest hused)

theorem Orderly.insert (h : c.Orderly load uses) (hnew : id ∉ c.ids) (hload : load id = .ok data) :
    (c.insert id data).Orderly load (uses ++ [id]) := by
  apply orderly_trim
  · show c.bytes + data.size = _
    rw [h.counted, totalSize, totalSize, List.map_append, List.sum_append]
    rfl
  · intro e he
    rcases List.mem_append.mp he with he | he
    · exact h.holds e he
    · obtain rfl := List.mem_singleton.mp he
      exact hload
  · have hothers : (c.ids.filter fun i => i != id) = c.ids :=
      List.filter_eq_self.mpr fun i hi => bne_iff_ne.mpr fun heq => hnew (heq ▸ hi)
    have hlast := suffix_dedup_concat h.recent id
    rw [hothers] at hlast
    show (c.entries ++ [(id, data)]).map Prod.fst <:+ _
    rw [List.map_append]
    exact hlast
  · exact fun _ => List.append_ne_nil_of_right_ne_nil _ (List.cons_ne_nil _ _)

/-- A container that is used is found with the bytes that loading gives, or it comes in. -/
theorem Orderly.use (h : c.Orderly load uses) {e : Nat × ByteArray} (he : load e.1 = .ok e.2) :
    (c.use e).Orderly load (uses ++ [e.1]) := by
  unfold ContainerCache.use
  cases hlookup : c.lookup e.1 with
  | none => exact h.insert (lookup_eq_none_iff.mp hlookup) he
  | some cached =>
    have hmem := mem_of_lookup hlookup
    have hdata : cached = e.2 := Except.ok.inj ((h.holds _ hmem).symm.trans he)
    exact h.touch (hdata ▸ hmem)

theorem Orderly.useAll (h : c.Orderly load uses) {used : List (Nat × ByteArray)}
    (hused : ∀ e ∈ used, load e.1 = .ok e.2) :
    (c.useAll used).Orderly load (uses ++ used.map Prod.fst) := by
  induction used generalizing c uses with
  | nil =>
    rw [List.map_nil, List.append_nil]
    exact h
  | cons e rest ih =>
    have hall := ih (h.use (hused e List.mem_cons_self)) fun e' he' =>
      hused e' (List.mem_cons_of_mem e he')
    rwa [List.append_assoc, List.singleton_append] at hall

theorem Orderly.setLimit (h : c.Orderly load uses) (limit : Nat) :
    (c.setLimit limit).Orderly load uses :=
  orderly_trim h.counted h.holds h.recent h.newest

theorem limit_useAll (c : ContainerCache) (used : List (Nat × ByteArray)) :
    (c.useAll used).limit = c.limit := by
  induction used generalizing c with
  | nil => rfl
  | cons e rest ih =>
    refine (ih (c.use e)).trans ?_
    unfold ContainerCache.use
    split <;> rfl

end ContainerCache

/-! ## A reader that keeps nothing -/

namespace ImageReader

variable {r : ImageReader} {c : ContainerCache}

/-- The same reader with another cache. -/
def withCache (r : ImageReader) (c : ContainerCache) : ImageReader := { r with cache := c }

/-- Load a container: its bytes, and the containers that were used for them. -/
def plainContainer (r : ImageReader) (id : Nat) :
    Except Failure ByteArray × List (Nat × ByteArray) :=
  match r.loadContainer id with
  | .error e => (.error e, [])
  | .ok data => (.ok data, [(id, data)])

/-- Load a block. -/
def plainBlock (r : ImageReader) (b : BlockNum) (length : Nat) :
    Except Failure ByteArray × List (Nat × ByteArray) :=
  match r.location? b with
  | none => (.error (.corruption (.blockPastTable b.number.toNat r.table.size)), [])
  | some l =>
    match r.plainContainer l.container.toNat with
    | (.error e, used) => (.error e, used)
    | (.ok data, used) =>
      if l.offset.toNat + length ≤ data.size then
        (.ok (slice data l.offset.toNat length), used)
      else
        (.error (.corruption (.blockOutside b.number.toNat length l data.size)), used)

/-- Load the blocks of a list until one fails. -/
def plainBlocks (r : ImageReader) (size remaining : Nat) (out : ByteArray) :
    List BlockNum → Except Failure (ByteArray × Nat) × List (Nat × ByteArray)
  | [] => (.ok (out, remaining), [])
  | b :: rest =>
    let length := min remaining size
    if length = 0 then
      (.ok (out, remaining), [])
    else
      match r.plainBlock b length with
      | (.error e, used) => (.error e, used)
      | (.ok data, used) =>
        let later := plainBlocks r size (remaining - length) (out ++ data) rest
        (later.1, used ++ later.2)

/-- Load what a list of blocks stands for. -/
def plainList (r : ImageReader) (blocks : List BlockNum) (total size : Nat) :
    Except Failure ByteArray × List (Nat × ByteArray) :=
  match r.plainBlocks size total ByteArray.empty blocks with
  | (.error e, used) => (.error e, used)
  | (.ok (data, missing), used) =>
    if missing = 0 then (.ok data, used)
    else (.error (.corruption (.listShort blocks.length missing total)), used)

/-! ## Its answers -/

/-- What is in the cache is what loading gives. -/
abbrev CacheHolds (r : ImageReader) (c : ContainerCache) : Prop := c.Holds r.loadContainer

/-- A container is answered as if nothing were cached, and it is used. -/
theorem container_eq_plain (h : r.CacheHolds c) (id : Nat) :
    (r.withCache c).container id =
      ((r.plainContainer id).1, r.withCache (c.useAll (r.plainContainer id).2)) := by
  have hload : (r.withCache c).loadContainer id = r.loadContainer id := rfl
  have hcache : (r.withCache c).cache = c := rfl
  unfold container plainContainer
  rw [hload, hcache]
  cases hlookup : c.lookup id with
  | some cached =>
    rw [h _ (ContainerCache.mem_of_lookup hlookup)]
    simp only [ContainerCache.useAll, List.foldl_cons, List.foldl_nil, ContainerCache.use, hlookup]
    rfl
  | none =>
    cases r.loadContainer id with
    | error e => rfl
    | ok data =>
      simp only [ContainerCache.useAll, List.foldl_cons, List.foldl_nil, ContainerCache.use, hlookup]
      rfl

theorem readBlock_eq_plain (h : r.CacheHolds c) (b : BlockNum) (length : Nat) :
    (r.withCache c).readBlock b length =
      ((r.plainBlock b length).1, r.withCache (c.useAll (r.plainBlock b length).2)) := by
  have hlocation : (r.withCache c).location? b = r.location? b := rfl
  have htable : (r.withCache c).table = r.table := rfl
  unfold readBlock plainBlock
  rw [hlocation, htable]
  cases r.location? b with
  | none => rfl
  | some l =>
    simp only [container_eq_plain h]
    rcases r.plainContainer l.container.toNat with ⟨e | data, used⟩
    · rfl
    · dsimp only
      split <;> rfl

/-- The containers that are used are what loading gives. -/
theorem loads_plainContainer (id : Nat) :
    ∀ e ∈ (r.plainContainer id).2, r.loadContainer e.1 = .ok e.2 := by
  unfold plainContainer
  cases hload : r.loadContainer id with
  | error e => exact fun e he => absurd he List.not_mem_nil
  | ok data =>
    intro e he
    obtain rfl := List.mem_singleton.mp he
    exact hload

theorem loads_plainBlock (b : BlockNum) (length : Nat) :
    ∀ e ∈ (r.plainBlock b length).2, r.loadContainer e.1 = .ok e.2 := by
  unfold plainBlock
  cases r.location? b with
  | none => exact fun e he => absurd he List.not_mem_nil
  | some l =>
    have hloads := loads_plainContainer (r := r) l.container.toNat
    rcases hplain : r.plainContainer l.container.toNat with ⟨e | data, used⟩
    · rw [hplain] at hloads
      simp only [hplain]
      exact hloads
    · rw [hplain] at hloads
      simp only [hplain]
      split <;> exact hloads

theorem loads_plainBlocks (size remaining : Nat) (out : ByteArray) (blocks : List BlockNum) :
    ∀ e ∈ (r.plainBlocks size remaining out blocks).2, r.loadContainer e.1 = .ok e.2 := by
  induction blocks generalizing remaining out with
  | nil => exact fun e he => absurd he List.not_mem_nil
  | cons b rest ih =>
    unfold plainBlocks
    dsimp only
    split
    · exact fun e he => absurd he List.not_mem_nil
    · have hloads := loads_plainBlock (r := r) b (min remaining size)
      rcases hplain : r.plainBlock b (min remaining size) with ⟨e | data, used⟩
      · rw [hplain] at hloads
        exact hloads
      · rw [hplain] at hloads
        intro e he
        rcases List.mem_append.mp he with he | he
        · exact hloads e he
        · exact ih _ _ e he

theorem loads_plainList (blocks : List BlockNum) (total size : Nat) :
    ∀ e ∈ (r.plainList blocks total size).2, r.loadContainer e.1 = .ok e.2 := by
  have hloads := loads_plainBlocks (r := r) size total ByteArray.empty blocks
  unfold plainList
  rcases hplain : r.plainBlocks size total ByteArray.empty blocks with ⟨e | ⟨data, missing⟩, used⟩
  · rw [hplain] at hloads
    exact hloads
  · rw [hplain] at hloads
    dsimp only
    split <;> exact hloads

theorem readBlocks_eq_plain (h : r.CacheHolds c) (size remaining : Nat) (out : ByteArray)
    (blocks : List BlockNum) :
    (r.withCache c).readBlocks size remaining out blocks =
      ((r.plainBlocks size remaining out blocks).1,
        r.withCache (c.useAll (r.plainBlocks size remaining out blocks).2)) := by
  induction blocks generalizing c remaining out with
  | nil => rfl
  | cons b rest ih =>
    unfold readBlocks plainBlocks
    dsimp only
    split
    · rfl
    · have hloads := loads_plainBlock (r := r) b (min remaining size)
      rw [readBlock_eq_plain h]
      rcases hplain : r.plainBlock b (min remaining size) with ⟨e | data, used⟩
      · rfl
      · rw [hplain] at hloads
        dsimp only
        rw [ih (h.useAll hloads)]
        simp only [ContainerCache.useAll, List.foldl_append]

theorem readList_eq_plain (h : r.CacheHolds c) (blocks : List BlockNum) (total size : Nat) :
    (r.withCache c).readList blocks total size =
      ((r.plainList blocks total size).1, r.withCache (c.useAll (r.plainList blocks total size).2)) := by
  unfold readList plainList
  rw [readBlocks_eq_plain h]
  rcases r.plainBlocks size total ByteArray.empty blocks with ⟨e | ⟨data, missing⟩, used⟩
  · rfl
  · dsimp only
    split <;> rfl

/-! ## Calls -/

/-- The answer to a call; changing the limit has none. -/
def answer (r : ImageReader) : Call → Option (Except Failure ByteArray)
  | .container id => some (r.container id).1
  | .block b length => some (r.readBlock b length).1
  | .list blocks total size => some (r.readList blocks total size).1
  | .limit _ => none

/-- The containers that a call uses if nothing is cached, in order: those that are loaded for it until a
load fails or the answer is known. -/
def used (r : ImageReader) : Call → List (Nat × ByteArray)
  | .container id => (r.plainContainer id).2
  | .block b length => (r.plainBlock b length).2
  | .list blocks total size => (r.plainList blocks total size).2
  | .limit _ => []

/-- The cache after a call. -/
def cacheAfter (r : ImageReader) (c : ContainerCache) : Call → ContainerCache
  | .limit bytes => c.setLimit bytes
  | call => c.useAll (r.used call)

/-- The numbers of the containers that calls use, in order. -/
def uses (r : ImageReader) (calls : List Call) : List Nat :=
  calls.flatMap fun call => (r.used call).map Prod.fst

/-- The limit after calls: the last one that was set. -/
def limitAfter (limit : Nat) (calls : List Call) : Nat :=
  calls.foldl (fun limit call => match call with | .limit bytes => bytes | _ => limit) limit

theorem loads_used (call : Call) : ∀ e ∈ r.used call, r.loadContainer e.1 = .ok e.2 := by
  cases call with
  | container id => exact loads_plainContainer id
  | block b length => exact loads_plainBlock b length
  | list blocks total size => exact loads_plainList blocks total size
  | limit bytes => exact fun e he => absurd he List.not_mem_nil

/-- **A call is answered the same whatever is cached.** -/
theorem answer_withCache {c' : ContainerCache} (h : r.CacheHolds c) (h' : r.CacheHolds c')
    (call : Call) : (r.withCache c).answer call = (r.withCache c').answer call := by
  cases call with
  | container id => simp only [answer, container_eq_plain h, container_eq_plain h']
  | block b length => simp only [answer, readBlock_eq_plain h, readBlock_eq_plain h']
  | list blocks total size => simp only [answer, readList_eq_plain h, readList_eq_plain h']
  | limit bytes => rfl

/-- A call changes nothing but the cache, and that by the containers it uses. -/
theorem afterCall_withCache (h : r.CacheHolds c) (call : Call) :
    (r.withCache c).afterCall call = r.withCache (r.cacheAfter c call) := by
  cases call with
  | container id => simp only [afterCall, container_eq_plain h, cacheAfter, used]
  | block b length => simp only [afterCall, readBlock_eq_plain h, cacheAfter, used]
  | list blocks total size => simp only [afterCall, readList_eq_plain h, cacheAfter, used]
  | limit bytes => rfl

theorem orderly_cacheAfter {uses : List Nat} (h : c.Orderly r.loadContainer uses) (call : Call) :
    (r.cacheAfter c call).Orderly r.loadContainer (uses ++ (r.used call).map Prod.fst) := by
  cases call with
  | limit bytes =>
    rw [used, List.map_nil, List.append_nil]
    exact h.setLimit bytes
  | container id => exact h.useAll (loads_used (.container id))
  | block b length => exact h.useAll (loads_used (.block b length))
  | list blocks total size => exact h.useAll (loads_used (.list blocks total size))

theorem limit_cacheAfter (call : Call) :
    (r.cacheAfter c call).limit = limitAfter c.limit [call] := by
  cases call with
  | limit bytes => rfl
  | container id => exact c.limit_useAll _
  | block b length => exact c.limit_useAll _
  | list blocks total size => exact c.limit_useAll _

/-- After any calls a reader differs from what it was in its cache only, and the cache is in order. -/
theorem afterCalls_withCache {uses : List Nat} (h : c.Orderly r.loadContainer uses)
    (calls : List Call) :
    ∃ c', (r.withCache c).afterCalls calls = r.withCache c' ∧
      c'.Orderly r.loadContainer (uses ++ r.uses calls) ∧ c'.limit = limitAfter c.limit calls := by
  induction calls generalizing c uses with
  | nil =>
    refine ⟨c, rfl, ?_, rfl⟩
    rw [ImageReader.uses, List.flatMap_nil, List.append_nil]
    exact h
  | cons call rest ih =>
    obtain ⟨c', hcalls, horderly, hlimit⟩ := ih (orderly_cacheAfter h call)
    refine ⟨c', ?_, ?_, ?_⟩
    · rw [← hcalls, ← afterCall_withCache h.holds call]
      rfl
    · rwa [List.append_assoc] at horderly
    · rw [hlimit, limit_cacheAfter]
      rfl

/-! ## Main result -/

/-- What is known of the cache after calls of an image that was opened. -/
structure Kept (opened : ImageReader) (calls : List Call) (c : ContainerCache) : Prop where
  /-- The bytes are counted right. -/
  bytes : c.bytes = (c.entries.map fun e => e.2.size).sum
  bounded : c.bytes ≤ c.limit ∨ c.entries.length ≤ 1
  /-- The limit is the one that was set last. -/
  limit : c.limit = limitAfter opened.cache.limit calls
  /-- Every container is cached at most once. -/
  nodup : c.ids.Nodup
  /-- What is cached for a container is what loading it gives. -/
  holds : ∀ e ∈ c.entries, opened.loadContainer e.1 = .ok e.2
  /-- The cached containers are the last ones that were used, in the order of their last use. -/
  recent : c.ids <:+ (opened.uses calls).dedup
  /-- The container that was used last is cached. -/
  newest : opened.uses calls ≠ [] → c.entries ≠ []

/-- **The cache cannot be seen, and it stays in order.** Let any bytes be opened as an image, and make any
calls. The reader then differs from the opened one in its cache only; the cache is in order; every
further call is answered as by the opened image, failures included; and such a call uses, one after
another, the containers that are loaded for it from the opened image until one fails. So a container
that cannot be loaded leaves the reader as it is. -/
theorem cache_is_invisible (codecs : Scheme → Codec) (bytes : ByteArray) (opened : ImageReader)
    (hopen : openImage codecs bytes = .ok opened) (calls : List Call) :
    ∃ c, opened.afterCalls calls = opened.withCache c ∧ opened.Kept calls c ∧
      (∀ call, (opened.withCache c).answer call = opened.answer call ∧
        (opened.withCache c).afterCall call = opened.withCache (opened.cacheAfter c call)) ∧
      ∀ id e, opened.loadContainer id = .error e →
        (opened.withCache c).container id = (.error e, opened.withCache c) := by
  obtain ⟨-, -, -, -, -, -, -, -, hcache⟩ := openImage_eq_ok hopen
  have hfresh : opened.withCache {} = opened := by
    rw [← hcache]
    rfl
  have hempty : ContainerCache.Orderly opened.loadContainer [] {} :=
    ⟨rfl, .inr (Nat.zero_le 1), fun e he => absurd he List.not_mem_nil, List.nil_suffix,
      fun h => absurd rfl h⟩
  obtain ⟨c, hcalls, horderly, hlimit⟩ := afterCalls_withCache hempty calls
  rw [hfresh] at hcalls
  refine ⟨c, hcalls, ⟨horderly.counted, horderly.bounded, by rw [hcache]; exact hlimit,
    horderly.nodup, horderly.holds, horderly.recent, horderly.newest⟩, ?_, ?_⟩
  · intro call
    refine ⟨?_, afterCall_withCache horderly.holds call⟩
    have hanswer := answer_withCache horderly.holds hempty.holds call
    rwa [hfresh] at hanswer
  · intro id e hload
    rw [container_eq_plain horderly.holds, plainContainer, hload]
    rfl

/-- An image of three containers, of three, one and two bytes. -/
def cachedImage : ByteArray :=
  ((ImageScript.of ⟨2, 4, true, false, 0⟩ (storedCodec .zstd) [⟨#[1, 2, 3]⟩, ⟨#[4]⟩, ⟨#[5, 6]⟩]
    [⟨0, 1⟩, ⟨1, 0⟩]).run (.limited 1000)).2.bytes

/-- Calls with room for five bytes: the third container takes the place of the second, for the first was
loaded earlier, but used again by a block that is too long for it. There is no container 7. -/
def cachedCalls : List Call :=
  [.limit 5, .container 0, .container 1, .block ⟨0⟩ 3, .container 2, .container 7]

/-- In the end the first and the third container were used last, and the second one has no room. -/
theorem least_recently_used_goes :
    ∃ opened c, openImage storedCodec cachedImage = .ok opened ∧
      opened.afterCalls cachedCalls = opened.withCache c ∧ c.ids <:+ [1, 0, 2] ∧
      c.limit = 5 ∧ (c.bytes ≤ 5 ∨ c.entries.length ≤ 1) ∧ c.entries ≠ [] := by
  have huses : (openImage storedCodec cachedImage).toOption.map (fun r => r.uses cachedCalls) =
      some [0, 1, 0, 2] := by decide +kernel
  obtain ⟨r, hr, hrUses⟩ := Option.map_eq_some_iff.mp huses
  cases hopen : openImage storedCodec cachedImage with
  | error e =>
    rw [hopen] at hr
    cases hr
  | ok opened =>
    rw [hopen] at hr
    obtain rfl := Option.some.inj hr
    obtain ⟨c, hcalls, hkept, -, -⟩ :=
      cache_is_invisible storedCodec cachedImage opened hopen cachedCalls
    have hlimit : c.limit = 5 := hkept.limit
    have hrecent := hkept.recent
    rw [hrUses] at hrecent
    refine ⟨opened, c, rfl, hcalls, hrecent, hlimit, ?_, ?_⟩
    · rw [← hlimit]
      exact hkept.bounded
    · exact hkept.newest (by rw [hrUses]; exact List.cons_ne_nil _ _)

end ImageReader

end DedupImage
