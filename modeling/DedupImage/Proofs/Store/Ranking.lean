import DedupImage.Store.Rooms

/-!
# Who is ranked

`Rooms.Ranks r room id` says that the ranking leads from a room to a container. Giving a container a
new rank adds at most that one entry (`Rooms.Ranks.of_set`), and a best fit is always a ranked container
(`Rooms.ranks_of_smallest?`). So a ranking that has only been told of existing containers never names
another one.
-/

namespace DedupImage

/-- The least entry from a key on is the first entry in order that is not below it. -/
theorem getEntryGE?_eq_find? {β : Type} (t : Std.TreeMap Nat β) (k : Nat) :
    t.getEntryGE? k = t.toList.find? fun e => decide (k ≤ e.1) := by
  have hfound := Std.DTreeMap.Internal.Impl.getEntryGE?_eq_find? t.inner.wf.ordered (k := k)
  have hlist := Std.DTreeMap.Internal.Impl.Const.toList_eq_toListModel_map (t := t.inner.inner)
  have hmap := Std.DTreeMap.Internal.Impl.Const.getEntryGE?_eq_map (t := t.inner.inner) (k := k)
  change Std.DTreeMap.Internal.Impl.Const.getEntryGE? k t.inner.inner =
    (Std.DTreeMap.Internal.Impl.Const.toList t.inner.inner).find? _
  rw [hmap, hlist, hfound, List.find?_map]
  congr 2
  funext e
  exact Bool.eq_iff_iff.mpr
    (Nat.isGE_compare.trans (by simp only [Function.comp_apply, decide_eq_true_eq]))

/-- The least entry from a key on is an entry. -/
theorem getElem?_of_getEntryGE? {β : Type} {t : Std.TreeMap Nat β} {k : Nat} {e : Nat × β}
    (h : t.getEntryGE? k = some e) : k ≤ e.1 ∧ t[e.1]? = some e.2 := by
  rw [getEntryGE?_eq_find?] at h
  refine ⟨of_decide_eq_true (List.find?_some h :), ?_⟩
  exact Std.TreeMap.mem_toList_iff_getElem?_eq_some.mp (List.mem_of_find?_eq_some h)

namespace Rooms

/-- A map by room leads from a room to a container. -/
def Leads (byRoom : Std.TreeMap Nat (Std.TreeSet Nat)) (room id : Nat) : Prop :=
  ∃ ids, byRoom[room]? = some ids ∧ id ∈ ids

/-- The ranking leads from a room to a container. -/
def Ranks (r : Rooms) (room id : Nat) : Prop := Leads r.byRoom room id

theorem not_ranks_empty {room id : Nat} : ¬ Ranks .empty room id := by
  rintro ⟨ids, h, _⟩
  cases h

theorem leads_of_mem_getD {byRoom : Std.TreeMap Nat (Std.TreeSet Nat)} {room id : Nat}
    (h : id ∈ byRoom.getD room ∅) : Leads byRoom room id := by
  rw [Std.TreeMap.getD_eq_getD_getElem?] at h
  cases hb : byRoom[room]? with
  | none =>
    rw [hb] at h
    exact absurd h Std.TreeSet.not_mem_emptyc
  | some ids =>
    rw [hb] at h
    exact ⟨ids, hb, h⟩

/-- A container that leaves a rank brings no other into the ranking. -/
theorem Leads.of_leave {byRoom : Std.TreeMap Nat (Std.TreeSet Nat)} {old left room id : Nat}
    (h : Leads (leave byRoom old left) room id) : Leads byRoom room id := by
  obtain ⟨ids, h, hid⟩ := h
  unfold leave at h
  dsimp only at h
  split at h
  · rw [Std.TreeMap.getElem?_erase] at h
    split at h
    · cases h
    · exact ⟨ids, h, hid⟩
  · rw [Std.TreeMap.getElem?_insert] at h
    split at h
    · obtain rfl := Option.some.inj h
      obtain rfl : old = room := Std.compare_eq_iff_eq.mp ‹_›
      exact leads_of_mem_getD (Std.TreeSet.mem_of_mem_erase hid)
    · exact ⟨ids, h, hid⟩

/-- A container that joins a rank is the only one that may be new. -/
theorem Leads.of_join {byRoom : Std.TreeMap Nat (Std.TreeSet Nat)} {joined new room id : Nat}
    (h : Leads (join byRoom joined new) room id) : id = new ∨ Leads byRoom room id := by
  obtain ⟨ids, h, hid⟩ := h
  unfold join at h
  rw [Std.TreeMap.getElem?_insert] at h
  split at h
  · obtain rfl := Option.some.inj h
    obtain rfl : joined = room := Std.compare_eq_iff_eq.mp ‹_›
    rcases Std.TreeSet.mem_insert.mp hid with hnew | hid
    · exact .inl (Std.compare_eq_iff_eq.mp hnew).symm
    · exact .inr (leads_of_mem_getD hid)
  · exact .inr ⟨ids, h, hid⟩

/-- After a container was given a rank, it is the only one that may be new in the ranking. -/
theorem Ranks.of_set {r : Rooms} {new : Nat} {rank : Option Nat} {room id : Nat}
    (h : (r.set new rank).Ranks room id) : id = new ∨ r.Ranks room id := by
  unfold Ranks set at h
  dsimp only at h
  have left {r' : Std.TreeMap Nat (Std.TreeSet Nat)}
      (hr : r' = r.byRoom ∨ ∃ old, r' = leave r.byRoom old new) (h : Leads r' room id) :
      r.Ranks room id := by
    rcases hr with rfl | ⟨old, rfl⟩
    · exact h
    · exact h.of_leave
  split at h <;> split at h
  · exact .inr (left (.inl rfl) h)
  · exact .inr (left (.inr ⟨_, rfl⟩) h)
  · exact h.of_join.imp_right (left (.inl rfl))
  · exact h.of_join.imp_right (left (.inr ⟨_, rfl⟩))

/-- A best fit is ranked, and under at least the room asked for. -/
theorem ranks_of_smallest? {r : Rooms} {room id : Nat} (h : r.smallest? room = some id) :
    ∃ actual, room ≤ actual ∧ r.Ranks actual id := by
  unfold smallest? at h
  split at h
  · cases h
  · have he := getElem?_of_getEntryGE? ‹_›
    exact ⟨_, he.1, _, he.2, (Std.TreeSet.min?_eq_some_iff_mem_and_forall.mp h).1⟩

end Rooms

end DedupImage
