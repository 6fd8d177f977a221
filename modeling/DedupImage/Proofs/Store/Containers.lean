import DedupImage.Proofs.Bytes
import DedupImage.Proofs.Store.Ranking
import DedupImage.Store.Containers

/-!
# Containers only grow

The contents of a container that does not exist count as empty, so "every container kept its bytes and
may have more behind them" can be said of all numbers at once: `ContainerStore.Grows`. Both operations
that change a store satisfy it, and what is stored at a location stays stored there (`Grows.holds`).

`ContainerStore.Valid` is what holds of every store that was made from the empty one: no container is
longer than the capacity, and the ranking names existing containers only. `append_ok` says all that a
successful write does, and `append_eq_ok` when a write succeeds.
-/

namespace DedupImage.ContainerStore

variable {s t u : ContainerStore}

/-! ## Locations -/

theorem data_of_le {id : Nat} (h : s.count ≤ id) : s.data id = ByteArray.empty := by
  unfold data
  rw [Array.getD_eq_getD_getElem?, Array.getElem?_eq_none h]
  rfl

/-- Bytes are stored at a location if its container exists and has them there. -/
theorem holds_iff {l : Location} {block : ByteArray} :
    s.holds l block = true ↔
      l.container.toNat < s.count ∧ holdsAt (s.data l.container.toNat) l.offset.toNat block = true := by
  unfold holds data count
  rw [Array.getD_eq_getD_getElem?]
  by_cases h : l.container.toNat < s.contents.size
  · rw [Array.getElem?_eq_getElem h]
    exact ⟨fun hb => ⟨h, hb⟩, fun hb => hb.2⟩
  · rw [Array.getElem?_eq_none (Nat.not_lt.mp h)]
    exact ⟨fun hb => (Bool.false_ne_true hb).elim, fun hb => absurd hb.1 h⟩

/-- Blocks of one size that are stored at one location are equal. -/
theorem holds_unique {l : Location} {a b : ByteArray} (ha : s.holds l a = true)
    (hb : s.holds l b = true) (size : a.size = b.size) : a = b :=
  holdsAt_unique (holds_iff.mp ha).2 (holds_iff.mp hb).2 size

/-- A block that is stored ends inside its container. -/
theorem end_le_of_holds {l : Location} {block : ByteArray} (h : s.holds l block = true) :
    l.offset.toNat + block.size ≤ s.size l.container.toNat :=
  (holdsAt_iff.mp (holds_iff.mp h).2).1

/-! ## Growing -/

/-- Every container kept its bytes and may have more behind them, and there may be more containers. -/
structure Grows (s t : ContainerStore) : Prop where
  capacity : t.capacity = s.capacity
  reserve : t.reserve = s.reserve
  staging : t.staging = s.staging
  count_le : s.count ≤ t.count
  data : ∀ id, ∃ tail, t.data id = s.data id ++ tail

namespace Grows

theorem refl (s : ContainerStore) : Grows s s :=
  ⟨rfl, rfl, rfl, Nat.le_refl _, fun _ => ⟨ByteArray.empty, ByteArray.append_empty.symm⟩⟩

theorem trans (h : Grows s t) (h' : Grows t u) : Grows s u := by
  refine ⟨h'.capacity.trans h.capacity, h'.reserve.trans h.reserve, h'.staging.trans h.staging,
    Nat.le_trans h.count_le h'.count_le, ?_⟩
  intro id
  obtain ⟨a, ha⟩ := h.data id
  obtain ⟨b, hb⟩ := h'.data id
  exact ⟨a ++ b, by rw [hb, ha, ByteArray.append_assoc]⟩

theorem size_le (h : Grows s t) (id : Nat) : s.size id ≤ t.size id := by
  obtain ⟨tail, hd⟩ := h.data id
  unfold size
  rw [hd, ByteArray.size_append]
  exact Nat.le_add_right _ _

/-- What is stored at a location stays stored there. -/
theorem holds (h : Grows s t) {l : Location} {block : ByteArray} (hb : s.holds l block = true) :
    t.holds l block = true := by
  obtain ⟨hc, hb⟩ := holds_iff.mp hb
  obtain ⟨tail, hd⟩ := h.data l.container.toNat
  exact holds_iff.mpr ⟨Nat.lt_of_lt_of_le hc h.count_le, hd ▸ holdsAt_append tail hb⟩

/-- A complete stretch keeps its bytes. -/
theorem slice_eq (h : Grows s t) {id start n : Nat} (hs : start + n ≤ s.size id) :
    slice (t.data id) start n = slice (s.data id) start n := by
  obtain ⟨tail, hd⟩ := h.data id
  rw [hd, slice_append tail hs]

end Grows

/-! ## Stores made from the empty one -/

/-- No container is longer than the capacity, and only existing ones are ranked. -/
structure Valid (s : ContainerStore) : Prop where
  size_le : ∀ id, s.size id ≤ s.capacity
  ranked_lt : ∀ room id, s.ranking.Ranks room id → id < s.count

theorem empty_valid (capacity reserve : Nat) (staging : Staging) :
    (empty capacity reserve staging).Valid where
  size_le id := by
    unfold size
    rw [data_of_le (Nat.zero_le id), ByteArray.size_empty]
    exact Nat.zero_le _
  ranked_lt _ _ h := (Rooms.not_ranks_empty h).elim

theorem Valid.bestFit_lt (h : s.Valid) {needed id : Nat} (hb : s.bestFit needed = some id) :
    id < s.count := by
  obtain ⟨room, _, hr⟩ := Rooms.ranks_of_smallest? hb
  exact h.ranked_lt room id hr

theorem newest_lt {n id : Nat} (h : id ∈ s.newest n) : id < s.count := by
  have := List.mem_of_mem_take h
  rwa [List.mem_reverse, List.mem_range] at this

/-! ## New containers -/

/-- A new container is empty, so no container's bytes change. -/
theorem create_ok {id : Nat} (h : s.create = .ok (id, t)) :
    id = s.count ∧ t.count = s.count + 1 ∧ t.data = s.data ∧ s.Grows t ∧ (s.Valid → t.Valid) := by
  unfold create at h
  split at h
  · cases h
  · obtain ⟨rfl, rfl⟩ := Prod.mk.inj (Except.ok.inj h)
    have hcount : (s.contents.push ByteArray.empty).size = s.count + 1 := Array.size_push _
    have hdata : (fun id => (s.contents.push ByteArray.empty).getD id ByteArray.empty) = s.data := by
      funext id
      unfold data
      rw [Array.getD_eq_getD_getElem?, Array.getD_eq_getD_getElem?, Array.getElem?_push]
      split
      · rw [Array.getElem?_eq_none (by omega)]
        rfl
      · rfl
    refine ⟨rfl, hcount, hdata, ?_, fun hv => ⟨fun id => ?_, fun room id hr => ?_⟩⟩
    · refine ⟨rfl, rfl, rfl, by show s.count ≤ (s.contents.push _).size; omega, ?_⟩
      intro id
      exact ⟨ByteArray.empty, by rw [ByteArray.append_empty]; exact congrFun hdata id⟩
    · show ((s.contents.push ByteArray.empty).getD id ByteArray.empty).size ≤ s.capacity
      rw [congrFun hdata id]
      exact hv.size_le id
    · show id < (s.contents.push ByteArray.empty).size
      rcases hr.of_set with rfl | hr
      · omega
      · have := hv.ranked_lt room id hr
        omega

/-- A container can be made unless there is no place for it. -/
theorem create_of_staging (h : s.staging ≠ .missing) : ∃ t, s.create = .ok (s.count, t) := by
  unfold create
  rw [if_neg h]
  exact ⟨_, rfl⟩

/-! ## Writes -/

/-- What a write does: the part of the block past the end stands behind the bytes of the container, and
no other container changes. -/
structure Appended (s t : ContainerStore) (id base newSize : Nat) (block : ByteArray) : Prop where
  base_le : base ≤ s.size id
  stop_le : base + block.size ≤ s.capacity
  newSize : newSize = max (s.size id) (base + block.size)
  count : t.count = s.count
  data : id < s.count → t.data id = s.data id ++ block.extract (s.size id - base) block.size
  other : ∀ k, k ≠ id → t.data k = s.data k
  grows : s.Grows t
  valid : id < s.count → s.Valid → t.Valid

section Replaced

variable {id k : Nat} {new : ByteArray}

theorem getD_replaced_self (h : id < s.count) :
    (s.contents.setIfInBounds id new).getD id ByteArray.empty = new := by
  rw [Array.getD_eq_getD_getElem?, Array.getElem?_setIfInBounds_self_of_lt h]
  rfl

theorem getD_replaced_of_ne (h : k ≠ id) :
    (s.contents.setIfInBounds id new).getD k ByteArray.empty = s.data k := by
  unfold data
  rw [Array.getD_eq_getD_getElem?, Array.getD_eq_getD_getElem?,
    Array.getElem?_setIfInBounds_ne (Ne.symm h)]

/-- A container that is replaced by itself with more behind it has grown, and so have all others. -/
theorem getD_replaced_grows (h : ∃ tail, new = s.data id ++ tail) (k : Nat) :
    ∃ tail, (s.contents.setIfInBounds id new).getD k ByteArray.empty = s.data k ++ tail := by
  by_cases hk : k = id
  · subst hk
    by_cases hid : k < s.count
    · rw [getD_replaced_self hid]
      exact h
    · have hnone : (s.contents.setIfInBounds k new)[k]? = none :=
        Array.getElem?_eq_none (by rw [Array.size_setIfInBounds]; exact Nat.not_lt.mp hid)
      refine ⟨ByteArray.empty, ?_⟩
      rw [ByteArray.append_empty, data_of_le (Nat.not_lt.mp hid), Array.getD_eq_getD_getElem?, hnone]
      rfl
  · exact ⟨ByteArray.empty, by rw [ByteArray.append_empty, getD_replaced_of_ne hk]⟩

end Replaced

theorem append_ok {id base newSize : Nat} {block : ByteArray}
    (h : s.append id base block = .ok (newSize, t)) : s.Appended t id base newSize block := by
  unfold append at h
  dsimp only at h
  split at h
  · cases h
  · split at h
    · cases h
    · rename_i hbase hstop
      obtain ⟨rfl, rfl⟩ := Prod.mk.inj (Except.ok.inj h)
      have hbase : base ≤ s.size id := Nat.not_lt.mp hbase
      have hsize : (s.data id ++ block.extract (s.size id - base) block.size).size =
          max (s.size id) (base + block.size) := by
        rw [ByteArray.size_append, ByteArray.size_extract]
        unfold size at *
        omega
      have hcount : (s.contents.setIfInBounds id
          (s.data id ++ block.extract (s.size id - base) block.size)).size = s.count :=
        Array.size_setIfInBounds
      exact
        { base_le := hbase
          stop_le := Nat.not_lt.mp hstop
          newSize := hsize
          count := hcount
          data := getD_replaced_self
          other := fun k hk => getD_replaced_of_ne hk
          grows := ⟨rfl, rfl, rfl, Nat.le_of_eq hcount.symm, getD_replaced_grows ⟨_, rfl⟩⟩
          valid := fun hid hv =>
            { size_le := fun k => by
                unfold size data
                by_cases hk : k = id
                · have := hv.size_le id
                  rw [hk]
                  show (Array.getD (s.contents.setIfInBounds id _) id ByteArray.empty).size ≤ s.capacity
                  rw [getD_replaced_self hid]
                  show (s.data id ++ block.extract (s.size id - base) block.size).size ≤ s.capacity
                  omega
                · rw [show Array.getD (s.contents.setIfInBounds id _) k ByteArray.empty = s.data k from
                    getD_replaced_of_ne hk]
                  exact hv.size_le k
              ranked_lt := fun room k hr => by
                refine Nat.lt_of_lt_of_eq ?_ hcount.symm
                rcases hr.of_set with rfl | hr
                · exact hid
                · exact hv.ranked_lt room k hr } }

/-- A write at a place inside the container or right behind it, within the capacity, succeeds. -/
theorem append_eq_ok {id base : Nat} {block : ByteArray} (hbase : base ≤ s.size id)
    (hstop : base + block.size ≤ s.capacity) : ∃ newSize t, s.append id base block = .ok (newSize, t) := by
  have hbase : ¬ (s.data id).size < base := Nat.not_lt.mpr hbase
  unfold append
  dsimp only
  rw [if_neg hbase, if_neg (Nat.not_lt.mpr hstop)]
  exact ⟨_, _, rfl⟩

/-- After a write the container is as long as the write said. -/
theorem Appended.size_eq {id base newSize : Nat} {block : ByteArray}
    (h : s.Appended t id base newSize block) (hid : id < s.count) : t.size id = newSize := by
  have h1 := h.base_le
  have h2 := h.newSize
  show (t.data id).size = newSize
  rw [h.data hid, ByteArray.size_append, ByteArray.size_extract]
  show s.size id + _ = newSize
  omega

end DedupImage.ContainerStore
