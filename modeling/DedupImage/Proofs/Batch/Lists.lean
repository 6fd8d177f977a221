import DedupImage.Proofs.Batch.Calls
import Mathlib.Data.List.Forall2

/-!
# Block lists

A source that always delivers the same bytes (`Source.Delivers`) gets a list of numbers that stand for
the pieces of these bytes, and they still do when the whole batch is placed
(`BatchState.placeAll_delivered`). Nothing is asked of the catalog, of the announced repeats or of the
other sources.
-/

namespace DedupImage

/-- Every opening of a source delivers these bytes, and it claims their length. -/
structure Source.Delivers (source : Source) (data : ByteArray) : Prop where
  length : source.length = data.size
  reader : ∀ opening, ∃ r, source.reader opening = .ok r ∧ r.Delivers data

/-- Bytes in memory are delivered. -/
theorem Source.ofBytes_delivers (name data : ByteArray) : (Source.ofBytes name data).Delivers data where
  length := rfl
  reader _ := ⟨_, rfl, rfl, rfl, rfl, List.not_mem_nil⟩

theorem ScheduledItem.delivery_eq {item : ScheduledItem} {data : ByteArray}
    (h : item.source.Delivers data) (hsize : 0 < item.blockSize) (opening : Nat) :
    item.delivery opening = .ok ((pieces data item.blockSize).toArray, none) := by
  obtain ⟨r, hr, hdelivers⟩ := h.reader opening
  unfold delivery
  rw [hr]
  simp only [hdelivers.blocks_eq hsize]

namespace BatchState

open Placement

variable {ι : Type} [Catalog ι] {s t : BatchState ι} {repeats : Repeats} {opening : Nat}

/-! ## Blocks -/

/-- The next block resolves to its bytes. -/
theorem placeNext_resolves (hp : s.placement.Consistent) {data : ByteArray} {b : BlockNum}
    (h : s.placeNext repeats data = (.ok b, t)) (hfit : t.placement.Addressable) :
    t.placement.Resolves b data := by
  rcases s.placeNext_cases repeats data with ⟨e, p, -, heq⟩ | ⟨b', p, hstep, heq⟩ <;> rw [heq] at h
  · cases (Prod.mk.inj h).1
  · obtain ⟨hb, rfl⟩ := Prod.mk.inj h
    obtain rfl := Except.ok.inj hb
    have hresolves := step_resolves hp (nextEvent_data? s repeats data) (b := b')
      (by rw [hstep]; exact hfit) (by rw [hstep])
    rwa [hstep] at hresolves

/-- Blocks that are placed resolve to their bytes, in order. -/
theorem placeBlocks_resolves (hp : s.placement.Consistent) {list numbers : Array BlockNum}
    {datas : List ByteArray} (h : s.placeBlocks repeats list datas = (.ok numbers, t))
    (hfit : t.placement.Addressable) :
    ∃ new : List BlockNum, numbers = list ++ new ∧ List.Forall₂ t.placement.Resolves new datas := by
  induction datas generalizing s list with
  | nil =>
    obtain ⟨hnumbers, -⟩ := Prod.mk.inj h
    obtain rfl := Except.ok.inj hnumbers
    exact ⟨[], by simp, .nil⟩
  | cons data rest ih =>
    obtain ⟨b, s', hnext, h⟩ := placeBlocks_cons_eq_ok h
    have hcalls := s.placeNext_calls repeats data
    have hlater := s'.placeBlocks_calls repeats (list.push b) rest
    rw [hnext] at hcalls
    rw [h] at hlater
    have hfit' : s'.placement.Addressable := hlater.extends.addressable hfit
    have hfirst := placeNext_resolves hp hnext hfit'
    obtain ⟨new, hnumbers, hnew⟩ := ih (hcalls.consistent hp hfit') h
    refine ⟨b :: new, ?_, .cons (hlater.extends.resolves hfirst) hnew⟩
    rw [hnumbers]
    simp

/-! ## Items -/

/-- An item has a list, and its numbers stand for the pieces of the data. -/
def Delivered (s : BatchState ι) (item : ScheduledItem) (data : ByteArray) : Prop :=
  ∃ list, s.lists[item.slot]? = some list ∧
    List.Forall₂ s.placement.Resolves list.toList (pieces data item.blockSize)

omit [Catalog ι] in
/-- What an item got stays, as long as its list does. -/
theorem Delivered.of_extends {item : ScheduledItem} {data : ByteArray} (h : s.Delivered item data)
    (hext : s.placement.Extends t.placement) (hlist : t.lists[item.slot]? = s.lists[item.slot]?) :
    t.Delivered item data := by
  obtain ⟨list, hlist', hall⟩ := h
  refine ⟨list, hlist.trans hlist', ?_⟩
  apply List.Forall₂.imp _ hall
  intro b piece hb
  exact hext.resolves hb

/-- Placing blocks delivers no list. -/
theorem placeBlocks_lists (s : BatchState ι) (repeats : Repeats) (list : Array BlockNum)
    (datas : List ByteArray) : (s.placeBlocks repeats list datas).2.lists = s.lists := by
  induction datas generalizing s list with
  | nil => rfl
  | cons data rest ih =>
    unfold placeBlocks
    rcases s.placeNext_cases repeats data with ⟨e, p, -, h⟩ | ⟨b, p, -, h⟩
    · simp only [h]
    · simp only [h, ih]

/-- Placing an item touches no list but its own. -/
theorem placeItem_lists (s : BatchState ι) (repeats : Repeats) (opening : Nat) (item : ScheduledItem) :
    (s.placeItem repeats opening item).2.lists.size = s.lists.size ∧
      ∀ slot, item.slot ≠ slot →
        (s.placeItem repeats opening item).2.lists[slot]? = s.lists[slot]? := by
  rw [placeItem_eq]
  rcases item.delivery opening with e | ⟨blocks, ending⟩
  · exact ⟨rfl, fun _ _ => rfl⟩
  · rcases hblocks : s.placeBlocks repeats #[] blocks.toList with ⟨e | list, t⟩
    · have hlists : t.lists = s.lists := by
        rw [← s.placeBlocks_lists repeats #[] blocks.toList, hblocks]
      simp [hblocks, hlists]
    · have hlists : t.lists = s.lists := by
        rw [← s.placeBlocks_lists repeats #[] blocks.toList, hblocks]
      cases ending with
      | some e => simp [hblocks, hlists]
      | none =>
        simp only [hblocks, hlists, Array.size_setIfInBounds, true_and]
        intro slot hslot
        rw [Array.getElem?_setIfInBounds_ne hslot]

/-- An item whose source always delivers the same bytes gets them. -/
theorem placeItem_delivered (hp : s.placement.Consistent) {item : ScheduledItem} {data : ByteArray}
    (hsource : item.source.Delivers data) (hsize : 0 < item.blockSize)
    (hslot : item.slot < s.lists.size) (h : s.placeItem repeats opening item = (.ok (), t))
    (hfit : t.placement.Addressable) : t.Delivered item data := by
  obtain ⟨blocks, list, t', hdelivery, hblocks, rfl⟩ := placeItem_eq_ok h
  rw [ScheduledItem.delivery_eq hsource hsize] at hdelivery
  obtain ⟨rfl, -⟩ := Prod.mk.inj (Except.ok.inj hdelivery)
  obtain ⟨new, hnew, hall⟩ := placeBlocks_resolves hp hblocks hfit
  have hlist : list.toList = new := by
    rw [hnew]
    simp
  have hlists : t'.lists = s.lists := by
    rw [← s.placeBlocks_lists repeats #[] (pieces data item.blockSize), hblocks]
  exact ⟨list, Array.getElem?_setIfInBounds_self_of_lt (hlists ▸ hslot), hlist ▸ hall⟩

/-! ## Batches -/

theorem placeAll_lists (s : BatchState ι) (repeats : Repeats) (opening : Nat)
    (items : List ScheduledItem) {slot : Nat} (hslot : ∀ item ∈ items, item.slot ≠ slot) :
    (s.placeAll repeats opening items).2.lists[slot]? = s.lists[slot]? := by
  induction items generalizing s with
  | nil => rfl
  | cons item rest ih =>
    have hitem := (s.placeItem_lists repeats opening item).2 slot (hslot item List.mem_cons_self)
    unfold placeAll
    rcases hs : s.placeItem repeats opening item with ⟨e | ⟨⟩, s'⟩
    · rw [hs] at hitem
      exact hitem
    · rw [hs] at hitem
      exact (ih s' (fun i hi => hslot i (List.mem_cons_of_mem item hi))).trans hitem

/-- **Every source gets its bytes.** If a batch is placed to its end, every source that always delivers
the same bytes has a list that stands for them. -/
theorem placeAll_delivered (hp : s.placement.Consistent) {items : List ScheduledItem}
    (hsizes : ∀ item ∈ items, 0 < item.blockSize) (hslots : ∀ item ∈ items, item.slot < s.lists.size)
    (hdistinct : items.Pairwise fun a b => a.slot ≠ b.slot)
    (h : s.placeAll repeats opening items = (.ok (), t)) (hfit : t.placement.Addressable) :
    ∀ item ∈ items, ∀ data, item.source.Delivers data → t.Delivered item data := by
  induction items generalizing s with
  | nil =>
    intro item hitem
    cases hitem
  | cons first rest ih =>
    obtain ⟨hfirst, hrest⟩ := List.pairwise_cons.mp hdistinct
    obtain ⟨s', hs, h⟩ := placeAll_cons_eq_ok h
    have hcalls := s.placeItem_calls repeats opening first
    have hlater := s'.placeAll_calls repeats opening rest
    obtain ⟨hcount, -⟩ := s.placeItem_lists repeats opening first
    have hkept := s'.placeAll_lists repeats opening rest (fun i hi => (hfirst i hi).symm)
    rw [hs] at hcalls hcount
    rw [h] at hlater hkept
    have hfit' : s'.placement.Addressable := hlater.extends.addressable hfit
    intro item hitem data hdata
    rcases List.mem_cons.mp hitem with rfl | hitem
    · have hgot := placeItem_delivered hp hdata (hsizes item List.mem_cons_self)
        (hslots item List.mem_cons_self) hs hfit'
      exact hgot.of_extends hlater.extends hkept
    · exact ih (hcalls.consistent hp hfit') (fun i hi => hsizes i (List.mem_cons_of_mem first hi))
        (fun i hi => hcount ▸ hslots i (List.mem_cons_of_mem first hi)) hrest h item hitem data hdata

end BatchState

end DedupImage
