import DedupImage.Proofs.Batch.Checkpoint
import DedupImage.Proofs.Placement.BlockSizes

/-!
# The order of a batch

Items are placed in the order of their keys, and items with one key in the order in which they were
scheduled. A sorted list is known by what it has under each key (`eq_of_filter_key`), and sorting keeps
that (`ScheduledItem.filter_sort`). So two schedules that agree in what they have under each key are placed
in one order, whatever places they assign to their items (`ScheduledItem.sort_sameWork`).

These places say where block numbers are delivered, and nothing else. Preparing a batch does not look at
them (`Checkpoint.prepare_congr`), and placing it delivers to corresponding places the same numbers
(`BatchState.placeAll_inStep`).
-/

namespace DedupImage

/-! ## Lists side by side -/

/-- Lists have the same images if their elements do, side by side. -/
theorem forall₂_iff_map_eq {α β γ : Type} {f : α → γ} {g : β → γ} {l : List α} {l' : List β} :
    List.Forall₂ (fun a b => f a = g b) l l' ↔ l.map f = l'.map g := by
  rw [← List.forall₂_eq_eq_eq, List.forall₂_map_left_iff, List.forall₂_map_right_iff]

/-- In lists without repetitions, side by side, an element has one counterpart only. -/
theorem eq_iff_of_mem_zip {α β : Type} {l : List α} {l' : List β} (h : l.Nodup) (h' : l'.Nodup)
    {p q : α × β} (hp : p ∈ l.zip l') (hq : q ∈ l.zip l') : p.1 = q.1 ↔ p.2 = q.2 := by
  obtain ⟨i, hi, rfl⟩ := List.mem_iff_getElem.mp hp
  obtain ⟨j, hj, rfl⟩ := List.mem_iff_getElem.mp hq
  rw [List.getElem_zip, List.getElem_zip, h.getElem_inj_iff, h'.getElem_inj_iff]

/-! ## Sorted lists -/

/-- Two lists that are sorted by a key, and have the same under every key, are equal. -/
theorem eq_of_filter_key {α κ : Type} [DecidableEq κ] (key : α → κ) {le : α → α → Prop}
    (hantisymm : ∀ a b, le a b → le b a → key a = key b) {l l' : List α} (h : l.Pairwise le)
    (h' : l'.Pairwise le)
    (hfilter : ∀ k, (l.filter fun a => key a = k) = l'.filter fun a => key a = k) : l = l' := by
  induction l generalizing l' with
  | nil =>
    cases l' with
    | nil => rfl
    | cons b rest' =>
      have hb := hfilter (key b)
      rw [List.filter_nil, List.filter_cons_of_pos (by simp)] at hb
      cases hb
  | cons a rest ih =>
    obtain ⟨hfirst, hrest⟩ := List.pairwise_cons.mp h
    cases l' with
    | nil =>
      have ha := hfilter (key a)
      rw [List.filter_nil, List.filter_cons_of_pos (by simp)] at ha
      cases ha
    | cons b rest' =>
      obtain ⟨hfirst', hrest'⟩ := List.pairwise_cons.mp h'
      -- neither of the first elements may come before the other one
      have hkey : key a = key b := by
        by_contra hne
        have hb : b ∈ (a :: rest).filter fun c => key c = key b := by
          rw [hfilter]
          exact List.mem_filter.mpr ⟨List.mem_cons_self, by simp⟩
        have ha : a ∈ (b :: rest').filter fun c => key c = key a := by
          rw [← hfilter]
          exact List.mem_filter.mpr ⟨List.mem_cons_self, by simp⟩
        have hbrest : b ∈ rest := (List.mem_cons.mp (List.mem_filter.mp hb).1).resolve_left
          fun heq => hne (heq ▸ rfl)
        have harest : a ∈ rest' := (List.mem_cons.mp (List.mem_filter.mp ha).1).resolve_left
          fun heq => hne (heq ▸ rfl)
        exact hne (hantisymm a b (hfirst b hbrest) (hfirst' a harest))
      have hsame := hfilter (key a)
      rw [List.filter_cons_of_pos (by simp), List.filter_cons_of_pos (by simp [hkey])] at hsame
      obtain ⟨rfl, htail⟩ := List.cons.inj hsame
      rw [ih hrest hrest' fun k => ?_]
      by_cases hk : key a = k
      · rw [← hk]
        exact htail
      · have := hfilter k
        rwa [List.filter_cons_of_neg (by simpa using hk), List.filter_cons_of_neg (by simpa using hk)]
          at this

namespace ScheduledItem

variable {items items' : List ScheduledItem}

/-- What items are sorted by. -/
def key (i : ScheduledItem) : Nat × List UInt8 := (i.rank, i.nameBytes)

theorem before_iff {a b : ScheduledItem} : a.before b = true ↔
    a.rank < b.rank ∨ (a.rank = b.rank ∧ a.nameBytes ≤ b.nameBytes) := by
  simp [before]

theorem before_trans (a b c : ScheduledItem) (hab : a.before b = true) (hbc : b.before c = true) :
    a.before c = true := by
  rw [before_iff] at *
  rcases hab with hab | ⟨hab, hle⟩
  · rcases hbc with hbc | ⟨hbc, -⟩ <;> exact .inl (by omega)
  · rcases hbc with hbc | ⟨hbc, hle'⟩
    · exact .inl (by omega)
    · exact .inr ⟨hab.trans hbc, List.le_trans hle hle'⟩

theorem before_total (a b : ScheduledItem) : (a.before b || b.before a) = true := by
  rw [Bool.or_eq_true, before_iff, before_iff]
  rcases Nat.lt_trichotomy a.rank b.rank with hlt | heq | hgt
  · exact .inl (.inl hlt)
  · exact (List.le_total a.nameBytes b.nameBytes).imp (fun h => .inr ⟨heq, h⟩)
      fun h => .inr ⟨heq.symm, h⟩
  · exact .inr (.inl hgt)

/-- Only items with one key may stand before each other. -/
theorem key_eq_of_before {a b : ScheduledItem} (hab : a.before b = true) (hba : b.before a = true) :
    a.key = b.key := by
  rw [before_iff] at hab hba
  rcases hab with hlt | ⟨heq, hle⟩
  · omega
  · rcases hba with hlt | ⟨-, hle'⟩
    · omega
    · exact Prod.ext heq (List.le_antisymm hle hle')

theorem before_of_key_eq {a b : ScheduledItem} (h : a.key = b.key) : a.before b = true := by
  obtain ⟨hrank, hname⟩ := Prod.mk.inj h
  exact before_iff.mpr (.inr ⟨hrank, hname ▸ List.le_refl _⟩)

/-- **Sorting keeps what stands under each key**, in its order. -/
theorem filter_sort (items : List ScheduledItem) (k : Nat × List UInt8) :
    ((sort items).filter fun i => i.key = k) = items.filter fun i => i.key = k := by
  have hpairwise : (items.filter fun i => i.key = k).Pairwise fun a b => a.before b = true := by
    refine List.pairwise_of_forall_mem_list fun a ha b hb => ?_
    have hak := of_decide_eq_true (List.mem_filter.mp ha).2
    have hbk := of_decide_eq_true (List.mem_filter.mp hb).2
    exact before_of_key_eq (hak.trans hbk.symm)
  have hsub := (List.sublist_mergeSort before_trans before_total hpairwise List.filter_sublist).filter
    fun i => i.key = k
  rw [List.filter_filter] at hsub
  simp only [Bool.and_self] at hsub
  have hperm : (sort items).Perm items := List.mergeSort_perm _ _
  exact (hsub.eq_of_length (hperm.filter _).length_eq.symm).symm

/-! ## Items that differ in their places -/

/-- Two items that differ at most in their places. -/
def SameWork (i j : ScheduledItem) : Prop :=
  j.source = i.source ∧ j.rank = i.rank ∧ j.blockSize = i.blockSize

/-- Two schedules that agree in what they have under each key are placed in one order. -/
theorem sort_sameWork
    (h : ∀ k, List.Forall₂ SameWork (items.filter fun i => i.key = k)
      (items'.filter fun i => i.key = k)) :
    List.Forall₂ SameWork (sort items) (sort items') := by
  -- items without their places
  let bare (i : ScheduledItem) : ScheduledItem := { i with slot := 0 }
  have hbare : SameWork = fun i j => bare i = bare j := by
    funext i j
    unfold SameWork bare
    rw [mk.injEq]
    simp only [eq_comm, and_true]
  have hforall {l l' : List ScheduledItem} : List.Forall₂ SameWork l l' ↔ l.map bare = l'.map bare := by
    rw [hbare, forall₂_iff_map_eq]
  have hsorted (l : List ScheduledItem) :
      ((sort l).map bare).Pairwise fun a b => a.before b = true :=
    List.pairwise_map.mpr (List.pairwise_mergeSort before_trans before_total l)
  have hkeys (l : List ScheduledItem) (k : Nat × List UInt8) :
      (((sort l).map bare).filter fun i => i.key = k) = (l.filter fun i => i.key = k).map bare := by
    rw [List.filter_map, ← filter_sort]
    rfl
  rw [hforall]
  apply eq_of_filter_key key (fun a b => key_eq_of_before) (hsorted items) (hsorted items')
  intro k
  rw [hkeys, hkeys, ← hforall]
  exact h k

theorem SameWork.delivery {i j : ScheduledItem} (h : SameWork i j) (opening : Nat) :
    j.delivery opening = i.delivery opening := by
  obtain ⟨hsource, -, hsize⟩ := h
  unfold ScheduledItem.delivery
  rw [hsource, hsize]

theorem SameWork.blockCount {i j : ScheduledItem} (h : SameWork i j) : j.blockCount = i.blockCount := by
  obtain ⟨hsource, -, hsize⟩ := h
  unfold ScheduledItem.blockCount
  rw [hsource, hsize]

end ScheduledItem

open ScheduledItem

variable {items items' : List ScheduledItem}

/-! ## Preparing -/

theorem Repeats.passOver_congr {identity : ByteArray → UInt64} (h : List.Forall₂ SameWork items items')
    (s : Sighting) : passOver identity s items' = passOver identity s items := by
  induction h generalizing s with
  | nil => rfl
  | cons hfirst _ ih =>
    rw [passOver_cons, passOver_cons, hfirst.delivery]
    split
    · rfl
    · rfl
    · exact ih _

/-- Preparing a batch does not look at the places of its items. -/
theorem Checkpoint.prepare_congr {identity : ByteArray → UInt64}
    (h : List.Forall₂ SameWork items items') (place : Option CheckpointPlace) :
    prepare identity items' place = prepare identity items place := by
  have hcounts : items'.map ScheduledItem.blockCount = items.map ScheduledItem.blockCount := by
    induction h with
    | nil => rfl
    | cons hfirst _ ih => rw [List.map_cons, List.map_cons, hfirst.blockCount, ih]
  have hfind : Repeats.find identity items' = Repeats.find identity items := by
    unfold Repeats.find
    rw [Repeats.passOver_congr h]
  unfold prepare
  rw [hfind, hcounts]

/-! ## Placing -/

namespace BatchState

variable {ι : Type} {s t : BatchState ι}

/-- Two batches that placed the same blocks in the same way, wherever they delivered the numbers. -/
structure InStep (s t : BatchState ι) : Prop where
  placement : s.placement.Resized t.placement
  placed : t.placed = s.placed

/-- Lists that have the same at corresponding places. -/
def Matched (places : List (Nat × Nat)) (lists lists' : Array (Array BlockNum)) : Prop :=
  ∀ p ∈ places, lists'[p.2]? = lists[p.1]?

/-- Delivering the same to corresponding places, of which no two are one, keeps that. -/
theorem Matched.set {places : List (Nat × Nat)} {lists lists' : Array (Array BlockNum)}
    (hplaces : ∀ p ∈ places, ∀ q ∈ places, p.1 = q.1 ↔ p.2 = q.2)
    (h : Matched places lists lists') {p : Nat × Nat} (hp : p ∈ places) (list : Array BlockNum) :
    Matched places (lists.setIfInBounds p.1 list) (lists'.setIfInBounds p.2 list) := by
  intro q hq
  by_cases heq : p.1 = q.1
  · have hin : p.2 < lists'.size ↔ p.1 < lists.size := by
      rw [← not_iff_not, not_lt, not_lt, ← Array.getElem?_eq_none_iff, ← Array.getElem?_eq_none_iff,
        h p hp]
    rw [← heq, ← (hplaces p hp q hq).mp heq, Array.getElem?_setIfInBounds_self,
      Array.getElem?_setIfInBounds_self]
    simp only [hin]
  · rw [Array.getElem?_setIfInBounds_ne heq,
      Array.getElem?_setIfInBounds_ne fun h => heq ((hplaces p hp q hq).mpr h)]
    exact h q hq

variable [Catalog ι]

theorem placeNext_inStep (h : InStep s t) (repeats : Repeats) (data : ByteArray) :
    (t.placeNext repeats data).1 = (s.placeNext repeats data).1 ∧
      InStep (s.placeNext repeats data).2 (t.placeNext repeats data).2 := by
  have hevent : t.nextEvent repeats data = s.nextEvent repeats data := by
    unfold nextEvent
    rw [h.placed]
  obtain ⟨hanswer, hplacement⟩ := h.placement.step (s.nextEvent repeats data)
  have hs := s.placeNext_cases repeats data
  have ht := t.placeNext_cases repeats data
  rw [hevent] at ht
  rcases hs with ⟨e, p, hp, hs⟩ | ⟨b, p, hp, hs⟩ <;>
    rcases ht with ⟨e', q, hq, ht⟩ | ⟨b', q, hq, ht⟩ <;>
    rw [hp, hq] at hanswer hplacement <;> rw [hs, ht] <;> cases hanswer
  · exact ⟨rfl, hplacement, h.placed⟩
  · exact ⟨rfl, hplacement, congrArg (·.push b) h.placed⟩

theorem placeBlocks_inStep (h : InStep s t) (repeats : Repeats) (list : Array BlockNum)
    (datas : List ByteArray) :
    (t.placeBlocks repeats list datas).1 = (s.placeBlocks repeats list datas).1 ∧
      InStep (s.placeBlocks repeats list datas).2 (t.placeBlocks repeats list datas).2 := by
  induction datas generalizing s t list with
  | nil => exact ⟨rfl, h⟩
  | cons data rest ih =>
    obtain ⟨hanswer, hnext⟩ := placeNext_inStep h repeats data
    unfold placeBlocks
    rcases hs : s.placeNext repeats data with ⟨answer, s'⟩
    rcases ht : t.placeNext repeats data with ⟨answer', t'⟩
    rw [hs, ht] at hanswer hnext
    obtain rfl : answer' = answer := hanswer
    cases answer' with
    | error e => exact ⟨rfl, hnext⟩
    | ok b => exact ih hnext (list.push b)

/-- Two items that differ at most in their places get the same list, each at its place. -/
theorem placeItem_inStep (h : InStep s t) {places : List (Nat × Nat)}
    (hplaces : ∀ p ∈ places, ∀ q ∈ places, p.1 = q.1 ↔ p.2 = q.2)
    (hlists : Matched places s.lists t.lists) (repeats : Repeats) (opening : Nat)
    {i j : ScheduledItem} (hij : i.SameWork j) (hmem : (i.slot, j.slot) ∈ places) :
    (t.placeItem repeats opening j).1 = (s.placeItem repeats opening i).1 ∧
      InStep (s.placeItem repeats opening i).2 (t.placeItem repeats opening j).2 ∧
      Matched places (s.placeItem repeats opening i).2.lists
        (t.placeItem repeats opening j).2.lists := by
  rw [placeItem_eq, placeItem_eq, hij.delivery]
  rcases i.delivery opening with e | ⟨blocks, ending⟩
  · exact ⟨rfl, h, hlists⟩
  · obtain ⟨hanswer, hnext⟩ := placeBlocks_inStep h repeats #[] blocks.toList
    have hs := s.placeBlocks_lists repeats #[] blocks.toList
    have ht := t.placeBlocks_lists repeats #[] blocks.toList
    dsimp only
    rcases hs' : s.placeBlocks repeats #[] blocks.toList with ⟨answer, s'⟩
    rcases ht' : t.placeBlocks repeats #[] blocks.toList with ⟨answer', t'⟩
    rw [hs'] at hanswer hnext hs
    rw [ht'] at hanswer hnext ht
    obtain rfl : answer' = answer := hanswer
    have hmatched : Matched places s'.lists t'.lists := by
      rw [show s'.lists = s.lists from hs, show t'.lists = t.lists from ht]
      exact hlists
    cases answer' with
    | error e => exact ⟨rfl, hnext, hmatched⟩
    | ok list =>
      cases ending with
      | some e => exact ⟨rfl, hnext, hmatched⟩
      | none => exact ⟨rfl, ⟨hnext.placement, hnext.placed⟩, hmatched.set hplaces hmem list⟩

/-- **Batches that differ in the places of their items only are placed in step**, and deliver the same
lists to corresponding places. -/
theorem placeAll_inStep (h : InStep s t) {places : List (Nat × Nat)}
    (hplaces : ∀ p ∈ places, ∀ q ∈ places, p.1 = q.1 ↔ p.2 = q.2)
    (hlists : Matched places s.lists t.lists) (repeats : Repeats) (opening : Nat)
    (hitems : List.Forall₂ (fun i j => i.SameWork j ∧ (i.slot, j.slot) ∈ places) items items') :
    (t.placeAll repeats opening items').1 = (s.placeAll repeats opening items).1 ∧
      InStep (s.placeAll repeats opening items).2 (t.placeAll repeats opening items').2 ∧
      Matched places (s.placeAll repeats opening items).2.lists
        (t.placeAll repeats opening items').2.lists := by
  induction hitems generalizing s t with
  | nil => exact ⟨rfl, h, hlists⟩
  | @cons i j rest rest' hfirst _ ih =>
    obtain ⟨hanswer, hnext, hmatched⟩ :=
      placeItem_inStep h hplaces hlists repeats opening hfirst.1 hfirst.2
    unfold placeAll
    rcases hs : s.placeItem repeats opening i with ⟨answer, s'⟩
    rcases ht : t.placeItem repeats opening j with ⟨answer', t'⟩
    rw [hs, ht] at hanswer hnext hmatched
    obtain rfl : answer' = answer := hanswer
    cases answer' with
    | error e => exact ⟨rfl, hnext, hmatched⟩
    | ok _ => exact ih hnext hmatched

end BatchState

end DedupImage
