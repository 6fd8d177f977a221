import DedupImage.Proofs.Store.Ranking
import Mathlib.Logic.Function.Basic
import Mathlib.Tactic.Tauto

/-!
# Everyone is ranked once

A ranking keeps the same facts twice: from a room to the containers, and from a container to its room.
`Rooms.Exact r rank` says that both are the function `rank`, and that no room is kept for nobody. Giving
one container a new rank changes that function at one place (`Rooms.Exact.set`): the container leaves
the rank it had, which is the one that the second table names, and a rank that is empty then goes.

Of an exact ranking, the answer of `smallest?` is determined (`Rooms.Exact.smallest?_eq_some_iff`).
-/

namespace DedupImage

/-- The least entry from a key on, below which there is no key that is not below the one asked for. -/
theorem getEntryGE?_least {β : Type} {t : Std.TreeMap Nat β} {k k' : Nat} {e : Nat × β} {b : β}
    (h : t.getEntryGE? k = some e) (hk : k ≤ k') (hb : t[k']? = some b) : e.1 ≤ k' := by
  rw [getEntryGE?_eq_find?] at h
  obtain ⟨_, before, after, hlist, hbefore⟩ := List.find?_eq_some_iff_append.mp h
  have hmem : (k', b) ∈ t.toList := Std.TreeMap.mem_toList_iff_getElem?_eq_some.mpr hb
  have hordered := Std.TreeMap.ordered_keys_toList (t := t)
  rw [hlist] at hmem hordered
  rcases List.mem_append.mp hmem with hmem | hmem
  · have := hbefore _ hmem
    simp only [Bool.not_eq_true', decide_eq_false_iff_not] at this
    exact absurd hk this
  · rcases List.mem_cons.mp hmem with rfl | hmem
    · exact Nat.le_refl _
    · have hlt := List.rel_of_pairwise_cons (List.pairwise_append.mp hordered).2.1 hmem
      exact Nat.le_of_lt (Nat.compare_eq_lt.mp hlt)

/-- There is no entry from a key on only if all keys are below it. -/
theorem lt_of_getEntryGE?_eq_none {β : Type} {t : Std.TreeMap Nat β} {k k' : Nat} {b : β}
    (h : t.getEntryGE? k = none) (hb : t[k']? = some b) : k' < k := by
  rw [getEntryGE?_eq_find?, List.find?_eq_none] at h
  have := h _ (Std.TreeMap.mem_toList_iff_getElem?_eq_some.mpr hb)
  simpa using this

namespace Rooms

variable {byRoom : Std.TreeMap Nat (Std.TreeSet Nat)} {r : Rooms} {rank : Nat → Option Nat}

/-! ## The two moves -/

/-- Every room of the map has a container. -/
def Occupied (byRoom : Std.TreeMap Nat (Std.TreeSet Nat)) : Prop :=
  ∀ (room : Nat) (ids : Std.TreeSet Nat), byRoom[room]? = some ids → ∃ id, id ∈ ids

theorem leads_iff {room id : Nat} : Leads byRoom room id ↔ id ∈ byRoom.getD room ∅ := by
  refine ⟨?_, leads_of_mem_getD⟩
  rintro ⟨ids, h, hid⟩
  rw [Std.TreeMap.getD_eq_getD_getElem?, h]
  exact hid

/-- The containers of a room after one left a rank. -/
theorem mem_getD_leave {old left room id : Nat} :
    id ∈ (leave byRoom old left).getD room ∅ ↔
      id ∈ byRoom.getD room ∅ ∧ ¬(room = old ∧ id = left) := by
  have herase : id ∈ (byRoom.getD old ∅).erase left ↔ id ∈ byRoom.getD old ∅ ∧ id ≠ left := by
    rw [Std.TreeSet.mem_erase, ne_eq, Std.compare_eq_iff_eq, and_comm, eq_comm]
  unfold leave
  dsimp only
  split
  · have hnone := Std.TreeSet.isEmpty_iff_forall_not_mem.mp ‹_› id
    rw [Std.TreeMap.getD_erase]
    split
    · obtain rfl : old = room := Std.compare_eq_iff_eq.mp ‹_›
      rw [herase] at hnone
      have hempty : id ∉ (∅ : Std.TreeSet Nat) := Std.TreeSet.not_mem_emptyc
      tauto
    · have hne : ¬ room = old := fun h => ‹¬ _› (Std.compare_eq_iff_eq.mpr h.symm)
      tauto
  · rw [Std.TreeMap.getD_insert]
    split
    · obtain rfl : old = room := Std.compare_eq_iff_eq.mp ‹_›
      rw [herase]
      tauto
    · have hne : ¬ room = old := fun h => ‹¬ _› (Std.compare_eq_iff_eq.mpr h.symm)
      tauto

/-- The containers of a room after one joined a rank. -/
theorem mem_getD_join {joined new room id : Nat} :
    id ∈ (join byRoom joined new).getD room ∅ ↔
      id ∈ byRoom.getD room ∅ ∨ (room = joined ∧ id = new) := by
  unfold join
  rw [Std.TreeMap.getD_insert]
  split
  · obtain rfl : joined = room := Std.compare_eq_iff_eq.mp ‹_›
    rw [Std.TreeSet.mem_insert, Std.compare_eq_iff_eq, eq_comm]
    tauto
  · have hne : ¬ room = joined := fun h => ‹¬ _› (Std.compare_eq_iff_eq.mpr h.symm)
    tauto

/-- A rank that the last container left is not kept. -/
theorem Occupied.leave (h : Occupied byRoom) (old left : Nat) :
    Occupied (leave byRoom old left) := by
  intro room ids hroom
  unfold Rooms.leave at hroom
  dsimp only at hroom
  split at hroom
  · rw [Std.TreeMap.getElem?_erase] at hroom
    split at hroom
    · cases hroom
    · exact h room ids hroom
  · rw [Std.TreeMap.getElem?_insert] at hroom
    split at hroom
    · obtain rfl := Option.some.inj hroom
      exact Std.TreeSet.isEmpty_eq_false_iff_exists_mem.mp (Bool.eq_false_iff.mpr ‹_›)
    · exact h room ids hroom

theorem Occupied.join (h : Occupied byRoom) (joined new : Nat) :
    Occupied (join byRoom joined new) := by
  intro room ids hroom
  unfold Rooms.join at hroom
  rw [Std.TreeMap.getElem?_insert] at hroom
  split at hroom
  · obtain rfl := Option.some.inj hroom
    exact ⟨new, Std.TreeSet.mem_insert.mpr (.inl (Std.compare_eq_iff_eq.mpr rfl))⟩
  · exact h room ids hroom

/-! ## A ranking and the function it stands for -/

/-- Both tables of the ranking are this function, and no room is kept for nobody. -/
structure Exact (r : Rooms) (rank : Nat → Option Nat) : Prop where
  rooms : ∀ id, r.rooms.getD id none = rank id
  ranks : ∀ room id, r.Ranks room id ↔ rank id = some room
  occupied : Occupied r.byRoom

theorem empty_exact : Exact .empty fun _ => none where
  rooms _ := rfl
  ranks room id := by
    rw [iff_false_right (by simp)]
    exact not_ranks_empty
  occupied _ _ h := by cases h

/-- The second table is made longer by containers without a rank. -/
theorem getD_append_replicate (rooms : Array (Option Nat)) (n k : Nat) :
    (rooms ++ Array.replicate n none).getD k none = rooms.getD k none := by
  rw [Array.getD_eq_getD_getElem?, Array.getD_eq_getD_getElem?, Array.getElem?_append]
  split
  · rfl
  · rename_i hk
    rw [Array.getElem?_eq_none (Nat.not_lt.mp hk), Array.getElem?_replicate]
    split <;> rfl

/-- The second table after one of its entries changed. -/
theorem getD_set_rooms (r : Rooms) (id : Nat) (room : Option Nat) (k : Nat) :
    (r.set id room).rooms.getD k none = if k = id then room else r.rooms.getD k none := by
  have hsize : id < (r.rooms ++ Array.replicate (id + 1 - r.rooms.size) none).size := by
    rw [Array.size_append, Array.size_replicate]
    omega
  show ((r.rooms ++ Array.replicate (id + 1 - r.rooms.size) none).setIfInBounds id room).getD k none = _
  rw [Array.getD_eq_getD_getElem?]
  split
  · subst k
    rw [Array.getElem?_setIfInBounds_self_of_lt hsize]
    rfl
  · rw [Array.getElem?_setIfInBounds_ne (Ne.symm ‹_›), ← Array.getD_eq_getD_getElem?,
      getD_append_replicate]

theorem size_set_rooms (r : Rooms) (id : Nat) (room : Option Nat) :
    (r.set id room).rooms.size = max r.rooms.size (id + 1) := by
  show ((r.rooms ++ Array.replicate (id + 1 - r.rooms.size) none).setIfInBounds id room).size = _
  rw [Array.size_setIfInBounds, Array.size_append, Array.size_replicate]
  omega

/-- The map once a container left the rank it had, if it had one. -/
def without (byRoom : Std.TreeMap Nat (Std.TreeSet Nat)) (id : Nat) :
    Option Nat → Std.TreeMap Nat (Std.TreeSet Nat)
  | none => byRoom
  | some old => leave byRoom old id

/-- A container leaves its old rank, the one that the second table names, before it joins a new one. -/
theorem byRoom_set (h : r.Exact rank) (id : Nat) (room : Option Nat) :
    (r.set id room).byRoom =
      match room with
      | none => without r.byRoom id (rank id)
      | some room => join (without r.byRoom id (rank id)) room id := by
  unfold set without
  dsimp only
  rw [getD_append_replicate, h.rooms]
  rfl

/-- A container that left is in no rank, and everyone else is where they were. -/
theorem Exact.leads_without (h : r.Exact rank) {id room k : Nat} :
    Leads (without r.byRoom id (rank id)) room k ↔ k ≠ id ∧ rank k = some room := by
  have hk : Leads r.byRoom room k ↔ rank k = some room := h.ranks room k
  unfold without
  cases hrank : rank id with
  | none =>
    dsimp only
    rw [hk]
    refine ⟨fun hroom => ⟨?_, hroom⟩, And.right⟩
    rintro rfl
    rw [hrank] at hroom
    cases hroom
  | some old =>
    dsimp only
    rw [leads_iff, mem_getD_leave, ← leads_iff, hk]
    constructor
    · rintro ⟨hroom, hne⟩
      refine ⟨?_, hroom⟩
      rintro rfl
      exact hne ⟨Option.some.inj (hroom.symm.trans hrank), rfl⟩
    · exact fun ⟨hne, hroom⟩ => ⟨hroom, fun hold => hne hold.2⟩

theorem Exact.occupied_without (h : r.Exact rank) (id : Nat) :
    Occupied (without r.byRoom id (rank id)) := by
  unfold without
  cases rank id with
  | none => exact h.occupied
  | some old => exact h.occupied.leave old id

/-- Giving one container a new rank changes the function at that container. -/
theorem Exact.set (h : r.Exact rank) (id : Nat) (room : Option Nat) :
    (r.set id room).Exact (Function.update rank id room) where
  rooms k := by rw [getD_set_rooms, Function.update_apply, h.rooms]
  ranks joined k := by
    rw [Function.update_apply]
    unfold Ranks
    rw [byRoom_set h]
    cases room with
    | none =>
      dsimp only
      rw [h.leads_without]
      split <;> simp [*]
    | some room =>
      dsimp only
      rw [leads_iff, mem_getD_join, ← leads_iff, h.leads_without]
      split
      · subst k
        simp [eq_comm]
      · simp [*]
  occupied := by
    rw [byRoom_set h]
    cases room with
    | none => exact h.occupied_without id
    | some room => exact (h.occupied_without id).join room id

/-! ## The least room -/

/-- There is no best fit only if all ranked containers have less room. -/
theorem Exact.lt_of_smallest?_eq_none (h : r.Exact rank) {asked id room : Nat}
    (hnone : r.smallest? asked = none) (hrank : rank id = some room) : room < asked := by
  obtain ⟨ids, hids, _⟩ := (h.ranks room id).mpr hrank
  unfold smallest? at hnone
  split at hnone
  · exact lt_of_getEntryGE?_eq_none ‹_› hids
  · have hentry := getElem?_of_getEntryGE? ‹_›
    obtain ⟨k, hk⟩ := h.occupied _ _ hentry.2
    rw [Std.TreeSet.min?_eq_none_iff, Std.TreeSet.isEmpty_iff_forall_not_mem] at hnone
    exact absurd hk (hnone k)

/-- A container has the least room of at least this much, and the lowest number among equals. -/
def Tightest (rank : Nat → Option Nat) (asked id : Nat) : Prop :=
  ∃ room, rank id = some room ∧ asked ≤ room ∧
    ∀ k other, rank k = some other → asked ≤ other → room < other ∨ room = other ∧ id ≤ k

theorem Tightest.unique {asked id id' : Nat} (h : Tightest rank asked id)
    (h' : Tightest rank asked id') : id = id' := by
  obtain ⟨room, hrank, hasked, hmin⟩ := h
  obtain ⟨room', hrank', hasked', hmin'⟩ := h'
  have h₁ := hmin id' room' hrank' hasked'
  have h₂ := hmin' id room hrank hasked
  omega

theorem Exact.tightest_of_smallest? (h : r.Exact rank) {asked id : Nat}
    (hid : r.smallest? asked = some id) : Tightest rank asked id := by
  unfold smallest? at hid
  split at hid
  · cases hid
  · rename_i room ids hentry
    obtain ⟨hasked, hids⟩ := getElem?_of_getEntryGE? hentry
    obtain ⟨hmem, hmin⟩ := Std.TreeSet.min?_eq_some_iff_mem_and_forall.mp hid
    refine ⟨room, (h.ranks room id).mp ⟨ids, hids, hmem⟩, hasked, fun k other hk hother => ?_⟩
    obtain ⟨ids', hids', hk⟩ := (h.ranks other k).mpr hk
    rcases Nat.lt_or_eq_of_le (getEntryGE?_least hentry hother hids') with hlt | heq
    · exact .inl hlt
    · dsimp only at heq
      subst heq
      obtain rfl := Option.some.inj (hids.symm.trans hids')
      exact .inr ⟨rfl, Nat.isLE_compare.mp (hmin k hk)⟩

/-- The best fit of an exact ranking is the tightest container. -/
theorem Exact.smallest?_eq_some_iff (h : r.Exact rank) {asked id : Nat} :
    r.smallest? asked = some id ↔ Tightest rank asked id := by
  refine ⟨h.tightest_of_smallest?, fun htight => ?_⟩
  cases hfound : r.smallest? asked with
  | none =>
    obtain ⟨room, hrank, hasked, _⟩ := htight
    have := h.lt_of_smallest?_eq_none hfound hrank
    omega
  | some found => rw [(h.tightest_of_smallest? hfound).unique htight]

end Rooms

end DedupImage
