import DedupImage.Proofs.Store.Containers
import DedupImage.Proofs.Store.ExactRanking

/-!
# The ranking matches the containers

A ranking is exact for a store, `ContainerStore.Ranked`, if it ranks every container that has at least
the reserve as room under the room it has now, and nothing else. Making a container and writing to an
existing one keep that (`Ranked.create`, `Ranked.append`), so it holds after any calls, whichever of
them failed (`performAll_ranked`).

What follows for a caller is `ranking_matches_containers`: the best fit is the container with the least
room that leaves the reserve, and a write answers and changes exactly what its place and size allow.
-/

namespace DedupImage

namespace ContainerStore

variable {s t : ContainerStore}

/-! ## Room -/

/-- The bytes that fit behind a container. -/
def room (s : ContainerStore) (id : Nat) : Nat := s.capacity - s.size id

/-- The rank that a container should have; one that does not exist has none. -/
def rankOf (s : ContainerStore) (id : Nat) : Option Nat :=
  if id < s.count then s.rank (s.size id) else none

theorem rankOf_eq_some_iff {id room : Nat} :
    s.rankOf id = some room ↔ id < s.count ∧ s.reserve ≤ room ∧ room = s.room id := by
  unfold rankOf rank ContainerStore.room
  dsimp only
  split
  · split
    · refine ⟨fun h => ?_, fun h => congrArg some h.2.2.symm⟩
      obtain rfl := Option.some.inj h
      exact ⟨‹_›, ‹_›, rfl⟩
    · simp only [reduceCtorEq, false_iff]
      rintro ⟨_, hreserve, rfl⟩
      exact absurd hreserve ‹_›
  · simp only [reduceCtorEq, false_iff]
    exact fun h => absurd h.1 ‹_›

/-- The ranking has every container with room for the reserve, once, under the room it has now. -/
structure Ranked (s : ContainerStore) : Prop where
  size_le : ∀ id, s.size id ≤ s.capacity
  rooms_size : s.ranking.rooms.size = s.count
  exact : s.ranking.Exact s.rankOf

theorem empty_ranked (capacity reserve : Nat) (staging : Staging) :
    (empty capacity reserve staging).Ranked where
  size_le := (empty_valid capacity reserve staging).size_le
  rooms_size := rfl
  exact := by
    have hnone : (empty capacity reserve staging).rankOf = fun _ => none := by
      funext id
      exact if_neg (Nat.not_lt_zero id)
    rw [hnone]
    exact Rooms.empty_exact

theorem Ranked.valid (h : s.Ranked) : s.Valid where
  size_le := h.size_le
  ranked_lt room id hr := (rankOf_eq_some_iff.mp ((h.exact.ranks room id).mp hr)).1

/-! ## Calls keep the ranking -/

/-- A container that was made is ranked as empty. -/
theorem Ranked.create (h : s.Ranked) {id : Nat} (hc : s.create = .ok (id, t)) : t.Ranked := by
  obtain ⟨rfl, hcount, hdata, hgrows, hvalid⟩ := create_ok hc
  have hranking : t.ranking = s.ranking.set s.count (s.rank 0) := by
    unfold ContainerStore.create at hc
    split at hc
    · cases hc
    · rw [← (Prod.mk.inj (Except.ok.inj hc)).2]
  have hsize (k : Nat) : t.size k = s.size k := by
    unfold size
    rw [hdata]
  have hrank : t.rankOf = Function.update s.rankOf s.count (s.rank 0) := by
    funext k
    rw [Function.update_apply]
    unfold rankOf rank
    rw [hcount, hsize, hgrows.capacity, hgrows.reserve]
    by_cases hk : k = s.count
    · have hempty : s.size k = 0 := by
        unfold size
        rw [data_of_le (Nat.le_of_eq hk.symm), ByteArray.size_empty]
      rw [if_pos (by omega), if_pos hk, hempty]
    · rw [if_neg hk]
      exact if_congr (by omega) rfl rfl
  refine ⟨(hvalid h.valid).size_le, ?_, ?_⟩
  · rw [hranking, Rooms.size_set_rooms, h.rooms_size, hcount]
    omega
  · rw [hranking, hrank]
    exact h.exact.set s.count (s.rank 0)

/-- A container that was written to is ranked under its new room. -/
theorem Ranked.append (h : s.Ranked) {id base newSize : Nat} {block : ByteArray} (hid : id < s.count)
    (ha : s.append id base block = .ok (newSize, t)) : t.Ranked := by
  have happended := append_ok ha
  have hranking : t.ranking = s.ranking.set id (s.rank newSize) := by
    unfold ContainerStore.append at ha
    dsimp only at ha
    split at ha
    · cases ha
    · split at ha
      · cases ha
      · obtain ⟨rfl, rfl⟩ := Prod.mk.inj (Except.ok.inj ha)
        rfl
  have hrank : t.rankOf = Function.update s.rankOf id (s.rank newSize) := by
    funext k
    rw [Function.update_apply]
    unfold rankOf rank
    rw [happended.count, happended.grows.capacity, happended.grows.reserve]
    by_cases hk : k = id
    · subst k
      rw [if_pos hid, if_pos rfl, happended.size_eq hid]
    · have hsize : t.size k = s.size k := by
        unfold size
        rw [happended.other k hk]
      rw [if_neg hk, hsize]
  refine ⟨(happended.valid hid h.valid).size_le, ?_, ?_⟩
  · rw [hranking, Rooms.size_set_rooms, h.rooms_size, happended.count]
    omega
  · rw [hranking, hrank]
    exact h.exact.set id (s.rank newSize)

/-! ## The best fit -/

/-- A container has the least room for so many bytes and the reserve, the lowest number among equals. -/
structure FitsBest (s : ContainerStore) (needed id : Nat) : Prop where
  lt_count : id < s.count
  fits : needed + s.reserve ≤ s.room id
  least : ∀ k < s.count, needed + s.reserve ≤ s.room k →
    s.room id < s.room k ∨ s.room id = s.room k ∧ id ≤ k

theorem tightest_iff_fitsBest {needed id : Nat} :
    Rooms.Tightest s.rankOf (needed + s.reserve) id ↔ s.FitsBest needed id := by
  constructor
  · rintro ⟨room, hroom, hfits, hleast⟩
    obtain ⟨hid, _, rfl⟩ := rankOf_eq_some_iff.mp hroom
    refine ⟨hid, hfits, fun k hk hkfits => ?_⟩
    have hreserve : s.reserve ≤ s.room k := Nat.le_of_add_left_le hkfits
    exact hleast k _ (rankOf_eq_some_iff.mpr ⟨hk, hreserve, rfl⟩) hkfits
  · rintro ⟨hid, hfits, hleast⟩
    have hreserve : s.reserve ≤ s.room id := Nat.le_of_add_left_le hfits
    refine ⟨_, rankOf_eq_some_iff.mpr ⟨hid, hreserve, rfl⟩, hfits, fun k other hk hkfits => ?_⟩
    obtain ⟨hlt, _, rfl⟩ := rankOf_eq_some_iff.mp hk
    exact hleast k hlt hkfits

section BestFit

variable (h : s.Ranked) (hcap : s.capacity < UInt32.size - 1)
include h hcap

/-- The sum that stops growing asks for more room than there is whenever the true sum does. -/
theorem Ranked.bestFit_eq (needed : Nat) :
    s.bestFit needed = s.ranking.smallest? (needed + s.reserve) := by
  have habove {asked : Nat} (hasked : s.capacity < asked) : s.ranking.smallest? asked = none := by
    cases hfound : s.ranking.smallest? asked with
    | none => rfl
    | some id =>
      obtain ⟨room, hrank, hle, _⟩ := h.exact.tightest_of_smallest? hfound
      obtain ⟨_, _, rfl⟩ := rankOf_eq_some_iff.mp hrank
      unfold room at hle
      omega
  unfold bestFit
  by_cases hsum : needed + s.reserve ≤ UInt32.size - 1
  · rw [Nat.min_eq_left hsum]
  · rw [Nat.min_eq_right (Nat.le_of_not_le hsum), habove hcap, habove (by omega)]

theorem Ranked.bestFit_eq_some_iff {needed id : Nat} :
    s.bestFit needed = some id ↔ s.FitsBest needed id := by
  rw [h.bestFit_eq hcap, h.exact.smallest?_eq_some_iff, tightest_iff_fitsBest]

/-- There is no best fit just if no container has room for so many bytes and the reserve. -/
theorem Ranked.bestFit_eq_none_iff {needed : Nat} :
    s.bestFit needed = none ↔ ∀ k < s.count, s.room k < needed + s.reserve := by
  constructor
  · intro hnone k hk
    rw [h.bestFit_eq hcap] at hnone
    by_contra hroom
    have hreserve : s.reserve ≤ s.room k := by omega
    exact hroom (h.exact.lt_of_smallest?_eq_none hnone (rankOf_eq_some_iff.mpr ⟨hk, hreserve, rfl⟩))
  · intro hroom
    cases hfound : s.bestFit needed with
    | none => rfl
    | some id =>
      have hbest := (h.bestFit_eq_some_iff hcap).mp hfound
      exact absurd hbest.fits (Nat.not_le.mpr (hroom id hbest.lt_count))

end BestFit

/-! ## Runs -/

/-- A call. The place for new containers may come and go between calls, so each call that makes one says
what it is then. -/
inductive Call where
  | create (staging : Staging)
  | append (id base : Nat) (block : ByteArray)

/-- The store after a call; one that fails leaves it as it is. -/
def perform (s : ContainerStore) : Call → ContainerStore
  | .create staging =>
    match { s with staging := staging }.create with
    | .ok (_, t) => { t with staging := s.staging }
    | .error _ => s
  | .append id base block =>
    match s.append id base block with
    | .ok (_, t) => t
    | .error _ => s

def performAll (s : ContainerStore) (calls : List Call) : ContainerStore :=
  calls.foldl perform s

/-- The call writes, if it writes, to a container there is. -/
def Call.Named (s : ContainerStore) : Call → Prop
  | .create _ => True
  | .append id _ _ => id < s.count

/-- Every call of a list names a container there is by then. -/
def AllNamed (s : ContainerStore) : List Call → Prop
  | [] => True
  | call :: calls => call.Named s ∧ AllNamed (s.perform call) calls

/-- Where new containers are kept has no part in the ranking. -/
theorem Ranked.withStaging (h : s.Ranked) (staging : Staging) : { s with staging := staging }.Ranked :=
  ⟨h.size_le, h.rooms_size, h.exact⟩

theorem perform_ranked (h : s.Ranked) {call : Call} (hn : call.Named s) :
    (s.perform call).Ranked ∧ (s.perform call).capacity = s.capacity ∧
      (s.perform call).reserve = s.reserve := by
  cases call with
  | create staging =>
    unfold perform
    dsimp only
    split
    · have hgrows := (create_ok ‹_›).2.2.2.1
      exact ⟨((h.withStaging staging).create ‹_›).withStaging _, hgrows.capacity, hgrows.reserve⟩
    · exact ⟨h, rfl, rfl⟩
  | append id base block =>
    unfold perform
    dsimp only
    split
    · have hgrows := (append_ok ‹_›).grows
      exact ⟨h.append hn ‹_›, hgrows.capacity, hgrows.reserve⟩
    · exact ⟨h, rfl, rfl⟩

/-- After any calls the ranking matches the containers. -/
theorem performAll_ranked {calls : List Call} (h : s.Ranked) (hn : s.AllNamed calls) :
    (s.performAll calls).Ranked ∧ (s.performAll calls).capacity = s.capacity ∧
      (s.performAll calls).reserve = s.reserve := by
  induction calls generalizing s with
  | nil => exact ⟨h, rfl, rfl⟩
  | cons call calls ih =>
    obtain ⟨hstep, hcap, hres⟩ := perform_ranked h hn.1
    obtain ⟨hrun, hcap', hres'⟩ := ih hstep hn.2
    exact ⟨hrun, hcap'.trans hcap, hres'.trans hres⟩

/-! ## Writes -/

/-- What a write answers and leaves behind: it succeeds just if its place is in the container or right
behind it and its end within the capacity. -/
structure WritesExactly (s : ContainerStore) (id base : Nat) (block : ByteArray) : Prop where
  ok_iff : (∃ newSize t, s.append id base block = .ok (newSize, t)) ↔
    base ≤ s.size id ∧ base + block.size ≤ s.capacity
  ok : ∀ newSize t, s.append id base block = .ok (newSize, t) →
    newSize = max (s.size id) (base + block.size) ∧ t.count = s.count ∧
      t.data id = s.data id ++ block.extract (s.size id - base) block.size ∧
      ∀ k, k ≠ id → t.data k = s.data k
  error : ¬(base ≤ s.size id ∧ base + block.size ≤ s.capacity) →
    (∃ f, s.append id base block = .error f) ∧ s.perform (.append id base block) = s

theorem writesExactly {id : Nat} (hid : id < s.count) (base : Nat) (block : ByteArray) :
    s.WritesExactly id base block where
  ok_iff := by
    constructor
    · rintro ⟨newSize, t, ha⟩
      exact ⟨(append_ok ha).base_le, (append_ok ha).stop_le⟩
    · exact fun h => append_eq_ok h.1 h.2
  ok newSize t ha := by
    have happended := append_ok ha
    exact ⟨happended.newSize, happended.count, happended.data hid, happended.other⟩
  error h := by
    cases ha : s.append id base block with
    | ok r =>
      obtain ⟨newSize, t⟩ := r
      have happended := append_ok ha
      exact absurd ⟨happended.base_le, happended.stop_le⟩ h
    | error f =>
      refine ⟨⟨f, rfl⟩, ?_⟩
      unfold perform
      dsimp only
      rw [ha]

/-- After any calls on existing containers, some of which may have failed, the ranking has every container
with room for the reserve once under its room and keeps no empty rank. The best fit for any number of
bytes is the container with the least room for them and the reserve, if there is one. The next write
answers and changes what `WritesExactly` says. -/
theorem ranking_matches_containers {capacity reserve : Nat} {staging : Staging} {calls : List Call}
    (hcap : capacity ≤ 2 ^ 31) (hn : (empty capacity reserve staging).AllNamed calls) :
    let s := (empty capacity reserve staging).performAll calls
    s.capacity = capacity ∧ s.reserve = reserve ∧ s.Ranked ∧
      (∀ n id, s.bestFit n = some id ↔ s.FitsBest n id) ∧
      (∀ n, s.bestFit n = none ↔ ∀ k < s.count, s.room k < n + reserve) ∧
      ∀ id < s.count, ∀ base block, s.WritesExactly id base block := by
  intro s
  obtain ⟨hranked, hcapacity, hreserve⟩ :=
    performAll_ranked (empty_ranked capacity reserve staging) hn
  have hsmall : s.capacity < UInt32.size - 1 := by
    show ((empty capacity reserve staging).performAll calls).capacity < 4294967295
    rw [hcapacity]
    show capacity < 4294967295
    omega
  have hnone (n : Nat) : s.bestFit n = none ↔ ∀ k < s.count, s.room k < n + s.reserve :=
    hranked.bestFit_eq_none_iff hsmall
  rw [hreserve] at hnone
  exact ⟨hcapacity, hreserve, hranked, fun n id => hranked.bestFit_eq_some_iff hsmall, hnone,
    fun id hid base block => writesExactly hid base block⟩

/-- Two containers of ten bytes with a reserve of two, filled by two writes that overlap in the first one.
A container that could not be made and a write past an end change nothing. Three bytes then fit
best into the second container, because the first has room for them but not for the reserve. -/
theorem ranking_matches_two_containers :
    let calls : List Call :=
      [.create .memory, .append 0 0 ⟨#[1, 2, 3, 4]⟩, .create .missing, .create .mapped,
        .append 1 3 ⟨#[5]⟩, .append 0 2 ⟨#[3, 4, 5, 6]⟩, .append 1 0 ⟨#[7, 8]⟩]
    let s := (empty 10 2 .memory).performAll calls
    (10 ≤ 2 ^ 31 ∧ (empty 10 2 .memory).AllNamed calls) ∧ s.bestFit 3 = some 1 ∧ s.bestFit 7 = none := by
  intro calls s
  have hn : (empty 10 2 .memory).AllNamed calls := by
    simp only [AllNamed, Call.Named, calls]
    decide +kernel
  have hmatches := ranking_matches_containers (by decide) hn
  have hbest : ∀ n id, s.bestFit n = some id ↔ s.FitsBest n id := hmatches.2.2.2.1
  have hnone : ∀ n, s.bestFit n = none ↔ ∀ k < s.count, s.room k < n + 2 := hmatches.2.2.2.2.1
  have hcount : s.count = 2 := by decide +kernel
  have hrooms : s.room 0 = 4 ∧ s.room 1 = 8 ∧ s.reserve = 2 := by decide +kernel
  obtain ⟨h₀, h₁, hreserve⟩ := hrooms
  clear hmatches
  clear_value s
  refine ⟨⟨by decide, hn⟩, (hbest 3 1).mpr ⟨by omega, by omega, ?_⟩, (hnone 7).mpr ?_⟩
  · intro k hk
    obtain rfl | rfl : k = 0 ∨ k = 1 := by omega
    · omega
    · omega
  · intro k hk
    obtain rfl | rfl : k = 0 ∨ k = 1 := by omega
    · omega
    · omega

end ContainerStore

end DedupImage
