import DedupImage.Recycling.Pool
import Mathlib.Algebra.Order.Group.Multiset
import Mathlib.Data.List.ReduceOption

/-!
# Every item of a pool has one owner

A run is any sequence of calls: items are taken, attached, detached and dropped, those in handles are
written to, and whoever holds detached items changes them and brings others. What one call makes of a pool
is said once (`CallResult`), and what it keeps follows case by case. Between two calls the pool keeps at
most as many items as it may, all of them reset and none too large (`Kept`), and so an item that is handed
out is new or was reset (`Kept.take`).

To tell items apart they are numbered (`Numbered`); the numbers stay with the items whatever is written to
them and make no difference to the run (`call_items`). No number is ever in two places (`Distinct`): a
call moves a number, drops one, or brings in one that was never used (`Moves`). A detached item stays where
it is until it is attached again (`after_detached`).
-/

namespace DedupImage

/-- What a program does with a pool and with the items that it has from it. -/
inductive PoolCall (α : Type) where
  | get
  | getDetached
  | attach (d : Nat)
  | detach (h : Nat)
  | drop (h : Nat)
  /-- Change the item of a handle. -/
  | write (h : Nat) (f : α → α)
  /-- Change a detached item. -/
  | alter (d : Nat) (f : α → α)
  /-- Make an item that is not from the pool. It counts as detached. -/
  | bring (x : α)

namespace PoolState

variable {α : Type} [Recyclable α]

/-- Change a detached item. -/
def alter (p : PoolState α) (d : Nat) (f : α → α) : PoolState α :=
  match p.detached.getD d none with
  | none => p
  | some x => { p with detached := p.detached.setIfInBounds d (some (f x)) }

/-- The item that a call hands out or works on, and what is there afterwards. -/
def call (p : PoolState α) : PoolCall α → Option α × PoolState α
  | .get => (some p.get.1, p.get.2)
  | .getDetached => (some p.getDetached.1, p.getDetached.2)
  | .attach d => p.attach d
  | .detach h => p.detach h
  | .drop h => (none, p.drop h)
  | .write h f => p.modify h f
  | .alter d f => (none, p.alter d f)
  | .bring x => (some x, { p with detached := p.detached.push (some x) })

/-- What is there after some calls. -/
def after (p : PoolState α) (calls : List (PoolCall α)) : PoolState α :=
  calls.foldl (fun p c => (p.call c).2) p

/-! ## What the calls do -/

variable {p p' : PoolState α}

/-- An item is taken from those that the pool keeps, or it is made. -/
theorem take_cases (p : PoolState α) :
    (∃ rest, p.free = p.take.1 :: rest ∧ p.take.2 = { p with free := rest }) ∨
      (p.free = [] ∧ p.take.1 = Recyclable.fresh p.made ∧ p.take.2 = { p with made := p.made + 1 }) := by
  unfold take
  cases p.free with
  | nil => exact .inr ⟨rfl, rfl, rfl⟩
  | cons x rest => exact .inl ⟨rest, rfl, rfl⟩

/-- What a call makes of a pool. A call that works on an item moves it or changes it in its place; where
there is no item, nothing happens. -/
inductive CallResult (p : PoolState α) : PoolCall α → PoolState α → Prop
  | got : CallResult p .get (p.take.2.hold p.take.1)
  | gotDetached :
      CallResult p .getDetached { p.take.2 with detached := p.take.2.detached.push (some p.take.1) }
  | attached {d : Nat} {x : α} (there : p.detached.getD d none = some x) :
      CallResult p (.attach d) (hold { p with detached := p.detached.setIfInBounds d none } x)
  | detached {h : Nat} {x : α} (there : p.handles.getD h none = some x) :
      CallResult p (.detach h)
        { p with handles := p.handles.setIfInBounds h none, detached := p.detached.push (some x) }
  | dropped {h : Nat} {x : α} (there : p.handles.getD h none = some x) :
      CallResult p (.drop h) (giveBack { p with handles := p.handles.setIfInBounds h none } x)
  | written {h : Nat} {x : α} {f : α → α} (there : p.handles.getD h none = some x) :
      CallResult p (.write h f) { p with handles := p.handles.setIfInBounds h (some (f x)) }
  | altered {d : Nat} {x : α} {f : α → α} (there : p.detached.getD d none = some x) :
      CallResult p (.alter d f) { p with detached := p.detached.setIfInBounds d (some (f x)) }
  | brought {x : α} : CallResult p (.bring x) { p with detached := p.detached.push (some x) }
  | nothing {c : PoolCall α} : CallResult p c p

theorem call_result (p : PoolState α) (c : PoolCall α) : CallResult p c (p.call c).2 := by
  cases c with
  | get => exact .got
  | getDetached => exact .gotDetached
  | attach d =>
    simp only [call, attach]
    split
    next => exact .nothing
    next there => exact .attached there
  | detach h =>
    simp only [call, detach]
    split
    next => exact .nothing
    next there => exact .detached there
  | drop h =>
    simp only [call, drop]
    split
    next => exact .nothing
    next there => exact .dropped there
  | write h f =>
    simp only [call, modify]
    split
    next => exact .nothing
    next there => exact .written there
  | alter d f =>
    simp only [call, alter]
    split
    next => exact .nothing
    next there => exact .altered there
  | bring x => exact .brought

theorem take_free (p : PoolState α) :
    p.take.2.free.Sublist p.free ∧ p.take.2.maxItems = p.maxItems ∧
      p.take.2.maxFootprint = p.maxFootprint := by
  rcases p.take_cases with ⟨rest, hfree, htake⟩ | ⟨-, -, htake⟩
  · rw [htake, hfree]
    exact ⟨List.sublist_cons_self _ _, rfl, rfl⟩
  · rw [htake]
    exact ⟨List.Sublist.refl _, rfl, rfl⟩

/-- Dropping a handle gives its item back; no other call adds to the items that the pool keeps. -/
theorem CallResult.free {c : PoolCall α} (h : CallResult p c p') :
    (p'.free.Sublist p.free ∧ p'.maxItems = p.maxItems ∧ p'.maxFootprint = p.maxFootprint) ∨
      ∃ n x, p' = giveBack { p with handles := p.handles.setIfInBounds n none } x := by
  cases h with
  | got | gotDetached => exact .inl p.take_free
  | dropped => exact .inr ⟨_, _, rfl⟩
  | attached | detached | written | altered | brought | nothing =>
    exact .inl ⟨List.Sublist.refl _, rfl, rfl⟩

theorem giveBack_limits (p : PoolState α) (x : α) :
    (p.giveBack x).maxItems = p.maxItems ∧ (p.giveBack x).maxFootprint = p.maxFootprint := by
  unfold giveBack
  split <;> exact ⟨rfl, rfl⟩

/-- The limits of a pool stay. -/
theorem call_limits (p : PoolState α) (c : PoolCall α) :
    (p.call c).2.maxItems = p.maxItems ∧ (p.call c).2.maxFootprint = p.maxFootprint := by
  rcases (p.call_result c).free with ⟨-, hlimits⟩ | ⟨n, x, hcall⟩
  · exact hlimits
  · rw [hcall]
    exact giveBack_limits _ x

theorem after_limits (p : PoolState α) (calls : List (PoolCall α)) :
    (p.after calls).maxItems = p.maxItems ∧ (p.after calls).maxFootprint = p.maxFootprint := by
  induction calls generalizing p with
  | nil => exact ⟨rfl, rfl⟩
  | cons c calls ih =>
    obtain ⟨hitems, hfootprint⟩ := ih (p.call c).2
    obtain ⟨hitems', hfootprint'⟩ := p.call_limits c
    exact ⟨hitems.trans hitems', hfootprint.trans hfootprint'⟩

/-! ## What the pool keeps -/

/-- The pool keeps no more items than it may, all of them reset and none too large. -/
structure Kept (p : PoolState α) : Prop where
  length_le : p.free.length ≤ p.maxItems
  reset : ∀ x ∈ p.free, ∃ y, x = Recyclable.reset y
  footprint_le : ∀ x ∈ p.free, Recyclable.footprint x ≤ p.maxFootprint

namespace Kept

theorem empty (maxItems maxFootprint : Nat) :
    Kept ({ maxItems, maxFootprint } : PoolState α) where
  length_le := Nat.zero_le _
  reset _ hx := nomatch hx
  footprint_le _ hx := nomatch hx

theorem of_sublist (h : Kept p) (hfree : p'.free.Sublist p.free) (hitems : p'.maxItems = p.maxItems)
    (hfootprint : p'.maxFootprint = p.maxFootprint) : Kept p' where
  length_le := by
    have hkept := h.length_le
    have hfewer := hfree.length_le
    omega
  reset x hx := h.reset x (hfree.subset hx)
  footprint_le x hx := hfootprint ▸ h.footprint_le x (hfree.subset hx)

/-- **What is handed out is new or was reset.** -/
theorem take (h : Kept p) :
    p.take.1 = Recyclable.fresh p.made ∨ ∃ y, p.take.1 = Recyclable.reset y := by
  rcases p.take_cases with ⟨rest, hfree, -⟩ | ⟨-, hnew, -⟩
  · exact .inr (h.reset _ (hfree ▸ List.mem_cons_self))
  · exact .inl hnew

variable (hsmaller : ∀ x : α, Recyclable.footprint (Recyclable.reset x) ≤ Recyclable.footprint x)
include hsmaller

/-- An item that is kept is reset first, which leaves its footprint small enough. -/
theorem giveBack (h : Kept p) (x : α) : Kept (p.giveBack x) := by
  unfold PoolState.giveBack
  split
  next hroom =>
    refine ⟨hroom.2, fun y hy => ?_, fun y hy => ?_⟩
    · rcases List.mem_cons.mp hy with rfl | hy
      · exact ⟨x, rfl⟩
      · exact h.reset y hy
    · rcases List.mem_cons.mp hy with rfl | hy
      · exact (hsmaller x).trans hroom.1
      · exact h.footprint_le y hy
  next => exact h

theorem call (h : Kept p) (c : PoolCall α) : Kept (p.call c).2 := by
  rcases (p.call_result c).free with ⟨hfree, hitems, hfootprint⟩ | ⟨n, x, hcall⟩
  · exact h.of_sublist hfree hitems hfootprint
  · have hdropped : Kept { p with handles := p.handles.setIfInBounds n none } :=
      h.of_sublist (List.Sublist.refl _) rfl rfl
    rw [hcall]
    exact hdropped.giveBack hsmaller x

theorem after (h : Kept p) (calls : List (PoolCall α)) : Kept (p.after calls) := by
  induction calls generalizing p with
  | nil => exact h
  | cons c calls ih => exact ih (h.call hsmaller c)

end Kept

end PoolState

/-! ## Numbered items -/

/-- Which item it is: one of those that the pool made, or one of those that were brought. -/
inductive ItemNumber where
  | made (n : Nat)
  /-- The item that was brought to a place among the detached ones. -/
  | brought (d : Nat)
  deriving DecidableEq

/-- An item with a number that stays with it. -/
structure Numbered (α : Type) where
  item : α
  number : ItemNumber

namespace Numbered

variable {α : Type}

/-- Change the item. -/
def map (f : α → α) (x : Numbered α) : Numbered α := { x with item := f x.item }

instance [Recyclable α] : Recyclable (Numbered α) where
  fresh n := ⟨Recyclable.fresh n, .made n⟩
  reset := map Recyclable.reset
  footprint x := Recyclable.footprint x.item

end Numbered

/-- A call with numbered items. What is brought is numbered by the place that it gets. -/
def PoolCall.numbered {α : Type} (place : Nat) : PoolCall α → PoolCall (Numbered α)
  | .get => .get
  | .getDetached => .getDetached
  | .attach d => .attach d
  | .detach h => .detach h
  | .drop h => .drop h
  | .write h f => .write h (Numbered.map f)
  | .alter d f => .alter d (Numbered.map f)
  | .bring x => .bring ⟨x, .brought place⟩

/-- A call changes no number, and what it brings has the number of the place that it gets. -/
def PoolCall.KeepsNumbers {α : Type} (place : Nat) : PoolCall (Numbered α) → Prop
  | .write _ f => ∀ x, (f x).number = x.number
  | .alter _ f => ∀ x, (f x).number = x.number
  | .bring x => x.number = .brought place
  | _ => True

theorem PoolCall.numbered_keepsNumbers {α : Type} (place : Nat) (c : PoolCall α) :
    (c.numbered place).KeepsNumbers place := by
  cases c with
  | write | alter => exact fun _ => rfl
  | bring => rfl
  | get | getDetached | attach | detach | drop => trivial

namespace PoolState

/-! ## Places -/

section Places

variable {β : Type} {places : Array (Option β)} {n m : Nat} {x : β}

/-- The items at some places. -/
def held (places : Array (Option β)) : List β := places.toList.reduceOption

theorem held_push (places : Array (Option β)) (x : β) :
    held (places.push (some x)) = held places ++ [x] := by
  rw [held, Array.toList_push, List.reduceOption_append, List.reduceOption_singleton]
  rfl

theorem getElem?_of_getD (h : places.getD n none = some x) : places[n]? = some (some x) := by
  rw [Array.getD_eq_getD_getElem?] at h
  cases hn : places[n]? with
  | none => simp [hn] at h
  | some o => simpa [hn] using h

/-- What is put at a place takes the part of what was there. -/
theorem held_set (h : places.getD n none = some x) :
    ∃ before behind, held places = before ++ x :: behind ∧
      ∀ o : Option β, held (places.setIfInBounds n o) = before ++ o.toList ++ behind := by
  have hx := getElem?_of_getD h
  rw [← Array.getElem?_toList] at hx
  obtain ⟨hn, hx⟩ := List.getElem?_eq_some_iff.mp hx
  refine ⟨(places.toList.take n).reduceOption, (places.toList.drop (n + 1)).reduceOption, ?_, ?_⟩
  · rw [held, ← List.reduceOption_cons_of_some, ← List.reduceOption_append, ← hx,
      List.getElem_cons_drop, List.take_append_drop]
  · intro o
    rw [held, Array.toList_setIfInBounds, List.set_eq_take_append_cons_drop, if_pos hn,
      List.reduceOption_append]
    cases o with
    | none => rw [List.reduceOption_cons_of_none, Option.toList_none, List.append_nil]
    | some y => rw [List.reduceOption_cons_of_some, Option.toList_some, List.append_assoc,
        List.singleton_append]

theorem getD_push_of_some (h : places.getD n none = some x) (o : Option β) :
    (places.push o).getD n none = some x := by
  obtain ⟨hn, -⟩ := Array.getElem?_eq_some_iff.mp (getElem?_of_getD h)
  rw [Array.getD_eq_getD_getElem?] at h ⊢
  rwa [Array.getElem?_push, if_neg (by omega)]

theorem getD_set_of_ne (h : places.getD n none = some x) (hm : m ≠ n) (o : Option β) :
    (places.setIfInBounds m o).getD n none = some x := by
  rw [Array.getD_eq_getD_getElem?] at h ⊢
  rwa [Array.getElem?_setIfInBounds_ne hm]

theorem getD_set_self (h : places.getD n none = some x) (o : Option β) :
    (places.setIfInBounds n o).getD n none = o := by
  obtain ⟨hn, -⟩ := Array.getElem?_eq_some_iff.mp (getElem?_of_getD h)
  rw [Array.getD_eq_getD_getElem?, Array.getElem?_setIfInBounds_self_of_lt hn]
  rfl

theorem mem_held (h : places.getD n none = some x) : x ∈ held places := by
  obtain ⟨before, behind, hheld, -⟩ := held_set h
  rw [hheld]
  exact List.mem_append_right _ List.mem_cons_self

theorem getD_map {γ : Type} (f : β → γ) (places : Array (Option β)) (n : Nat) :
    (places.map (Option.map f)).getD n none = (places.getD n none).map f := by
  rw [Array.getD_eq_getD_getElem?, Array.getD_eq_getD_getElem?, Array.getElem?_map]
  cases places[n]? <;> rfl

end Places

variable {α : Type} {q q' : PoolState (Numbered α)}

/-! ## One place for each number -/

/-- The numbers of some items. -/
def numbers (xs : List (Numbered α)) : Multiset ItemNumber := (xs.map Numbered.number : List ItemNumber)

@[simp] theorem numbers_nil : numbers ([] : List (Numbered α)) = 0 := rfl

@[simp] theorem numbers_cons (x : Numbered α) (xs : List (Numbered α)) :
    numbers (x :: xs) = {x.number} + numbers xs := by
  rw [Multiset.singleton_add]
  rfl

@[simp] theorem numbers_append (xs ys : List (Numbered α)) :
    numbers (xs ++ ys) = numbers xs + numbers ys := by
  rw [numbers, List.map_append, ← Multiset.coe_add]
  rfl

/-- The numbers of the items that the pool keeps, that handles hold and that are detached. -/
def allNumbers (q : PoolState (Numbered α)) : Multiset ItemNumber :=
  numbers q.free + numbers (held q.handles) + numbers (held q.detached)

/-- A number that was given to an item already. -/
def Used (q : PoolState (Numbered α)) : ItemNumber → Prop
  | .made n => n < q.made
  | .brought d => d < q.detached.size

/-- What a call does to the numbers: none is doubled, and at most one that was never used comes in. -/
structure Moves (q q' : PoolState (Numbered α)) : Prop where
  made_le : q.made ≤ q'.made
  size_le : q.detached.size ≤ q'.detached.size
  numbers : q'.allNumbers ≤ q.allNumbers ∨
    ∃ k, ¬ q.Used k ∧ q'.Used k ∧ q'.allNumbers ≤ {k} + q.allNumbers

theorem Used.later {k : ItemNumber} (h : q.Used k) (hmoves : Moves q q') : q'.Used k := by
  have hmade := hmoves.made_le
  have hsize := hmoves.size_le
  cases k with
  | made n => exact Nat.lt_of_lt_of_le h hmade
  | brought d => exact Nat.lt_of_lt_of_le h hsize

/-- No number is in two places, and all of them are used. -/
structure Distinct (q : PoolState (Numbered α)) : Prop where
  nodup : q.allNumbers.Nodup
  used : ∀ k ∈ q.allNumbers, q.Used k

theorem Distinct.moves (h : Distinct q) (hmoves : Moves q q') : Distinct q' := by
  rcases hmoves.numbers with hle | ⟨k, hnew, hused, hle⟩
  · exact ⟨Multiset.nodup_of_le hle h.nodup,
      fun k hk => (h.used k (Multiset.mem_of_le hle hk)).later hmoves⟩
  · rw [Multiset.singleton_add] at hle
    refine ⟨Multiset.nodup_of_le hle ?_, fun k' hk' => ?_⟩
    · exact Multiset.nodup_cons.mpr ⟨fun hk => hnew (h.used k hk), h.nodup⟩
    · rcases Multiset.mem_cons.mp (Multiset.mem_of_le hle hk') with rfl | hk'
      · exact hused
      · exact (h.used k' hk').later hmoves

theorem Moves.refl (q : PoolState (Numbered α)) : Moves q q :=
  ⟨Nat.le_refl _, Nat.le_refl _, .inl (le_refl _)⟩

section Parts

variable {places : Array (Option (Numbered α))} {n : Nat} {x : Numbered α}

/-- An item that leaves its place. -/
theorem numbers_held (h : places.getD n none = some x) :
    numbers (held places) = {x.number} + numbers (held (places.setIfInBounds n none)) := by
  obtain ⟨before, behind, hheld, hset⟩ := held_set h
  rw [hheld, hset, Option.toList_none, List.append_nil]
  simp only [numbers_append, numbers_cons]
  ac_rfl

/-- An item that is changed in its place. -/
theorem numbers_held_set (h : places.getD n none = some x) {y : Numbered α}
    (hy : y.number = x.number) :
    numbers (held (places.setIfInBounds n (some y))) = numbers (held places) := by
  obtain ⟨before, behind, hheld, hset⟩ := held_set h
  rw [hheld, hset, Option.toList_some]
  simp only [numbers_append, numbers_cons, numbers_nil, hy]
  ac_rfl

/-- An item that comes to a new place. -/
theorem numbers_held_push (places : Array (Option (Numbered α))) (x : Numbered α) :
    numbers (held (places.push (some x))) = numbers (held places) + {x.number} := by
  rw [held_push]
  simp

end Parts

theorem Distinct.empty (maxItems maxFootprint : Nat) :
    Distinct ({ maxItems, maxFootprint } : PoolState (Numbered α)) where
  nodup := Multiset.nodup_zero
  used _ hk := absurd hk (Multiset.notMem_zero _)

/-- A detached item is not among those that the pool keeps. -/
theorem Distinct.not_free (h : Distinct q) {d : Nat} {x : Numbered α}
    (hx : q.detached.getD d none = some x) : x.number ∉ numbers q.free := by
  intro hfree
  have hdetached : x.number ∈ numbers (held q.detached) :=
    Multiset.mem_coe.mpr (List.mem_map_of_mem (mem_held hx))
  have hnodup := h.nodup
  rw [allNumbers, add_right_comm] at hnodup
  have hpart := Multiset.nodup_of_le (Multiset.le_add_right _ _) hnodup
  exact (Multiset.disjoint_left.mp (Multiset.nodup_add.mp hpart).2.2) hfree hdetached

/-! ## Calls with numbered items -/

/-- The items without their numbers. -/
def items (q : PoolState (Numbered α)) : PoolState α where
  maxItems := q.maxItems
  maxFootprint := q.maxFootprint
  free := q.free.map Numbered.item
  handles := q.handles.map (Option.map Numbered.item)
  detached := q.detached.map (Option.map Numbered.item)
  made := q.made

theorem items_empty (maxItems maxFootprint : Nat) :
    ({ maxItems, maxFootprint } : PoolState (Numbered α)).items = { maxItems, maxFootprint } := by
  simp [items]

variable [Recyclable α]

/-- A call of a pool with numbered items. -/
def callNumbered (q : PoolState (Numbered α)) (c : PoolCall α) : PoolState (Numbered α) :=
  (q.call (c.numbered q.detached.size)).2

/-- What is there after some calls of a pool with numbered items. -/
def afterNumbered (q : PoolState (Numbered α)) (calls : List (PoolCall α)) : PoolState (Numbered α) :=
  calls.foldl callNumbered q

theorem items_giveBack (q : PoolState (Numbered α)) (x : Numbered α) :
    (q.giveBack x).items = q.items.giveBack x.item := by
  have hlength : q.items.free.length = q.free.length := List.length_map _
  unfold giveBack
  rw [hlength]
  split
  next hroom => exact (if_pos hroom).symm
  next hroom => exact (if_neg hroom).symm

theorem items_take (q : PoolState (Numbered α)) :
    q.items.take.1 = q.take.1.item ∧ q.items.take.2 = q.take.2.items := by
  unfold take items
  cases q.free with
  | nil => exact ⟨rfl, rfl⟩
  | cons x rest => exact ⟨rfl, rfl⟩

/-- **Numbers make no difference.** -/
theorem call_items (q : PoolState (Numbered α)) (c : PoolCall α) :
    (q.callNumbered c).items = (q.items.call c).2 := by
  obtain ⟨hitem, htaken⟩ := q.items_take
  have hdetached (d : Nat) := getD_map Numbered.item q.detached d
  have hhandles (h : Nat) := getD_map Numbered.item q.handles h
  cases c with
  | get =>
    show (q.take.2.hold q.take.1).items = q.items.take.2.hold q.items.take.1
    rw [hitem, htaken]
    simp [items, hold, Array.map_push]
  | getDetached =>
    show items { q.take.2 with detached := q.take.2.detached.push (some q.take.1) } =
      { q.items.take.2 with detached := q.items.take.2.detached.push (some q.items.take.1) }
    rw [hitem, htaken]
    simp [items, Array.map_push]
  | attach d =>
    simp only [callNumbered, call, PoolCall.numbered, attach, items, hdetached]
    cases q.detached.getD d none with
    | none => rfl
    | some x => simp [hold, Array.map_push, Array.map_setIfInBounds]
  | detach h =>
    simp only [callNumbered, call, PoolCall.numbered, detach, items, hhandles]
    cases q.handles.getD h none with
    | none => rfl
    | some x => simp [Array.map_push, Array.map_setIfInBounds]
  | drop h =>
    simp only [callNumbered, call, PoolCall.numbered, drop]
    rw [show q.items.handles.getD h none = _ from hhandles h]
    cases q.handles.getD h none with
    | none => rfl
    | some x =>
      dsimp only [Option.map_some]
      rw [items_giveBack]
      simp [items, Array.map_setIfInBounds]
  | write h f =>
    simp only [callNumbered, call, PoolCall.numbered, modify, items, hhandles]
    cases q.handles.getD h none with
    | none => rfl
    | some x => simp [Array.map_setIfInBounds, Numbered.map]
  | alter d f =>
    simp only [callNumbered, call, PoolCall.numbered, alter, items, hdetached]
    cases q.detached.getD d none with
    | none => rfl
    | some x => simp [Array.map_setIfInBounds, Numbered.map]
  | bring x =>
    simp [callNumbered, call, PoolCall.numbered, items, Array.map_push]

theorem after_items (q : PoolState (Numbered α)) (calls : List (PoolCall α)) :
    (q.afterNumbered calls).items = q.items.after calls := by
  induction calls generalizing q with
  | nil => rfl
  | cons c calls ih =>
    show ((q.callNumbered c).afterNumbered calls).items = (q.items.call c).2.after calls
    rw [ih, call_items]

/-! ## What a call does to the numbers -/

/-- An item that is taken leaves its number without a place, or its number is new. -/
theorem allNumbers_take (q : PoolState (Numbered α)) :
    {q.take.1.number} + q.take.2.allNumbers = q.allNumbers ∧ q.take.2.made = q.made ∨
      q.take.1.number = .made q.made ∧ q.take.2.made = q.made + 1 ∧
        q.take.2.allNumbers = q.allNumbers := by
  rcases q.take_cases with ⟨rest, hfree, htake⟩ | ⟨hfree, hnew, htake⟩
  · refine .inl ⟨?_, by rw [htake]⟩
    rw [htake, allNumbers, allNumbers, hfree, numbers_cons]
    ac_rfl
  · refine .inr ⟨by rw [hnew]; rfl, by rw [htake], ?_⟩
    rw [htake]
    rfl

theorem detached_take (q : PoolState (Numbered α)) : q.take.2.detached = q.detached := by
  rcases q.take_cases with ⟨rest, -, htake⟩ | ⟨-, -, htake⟩ <;> rw [htake]

/-- An item that is taken and comes to a place. -/
theorem Moves.of_take {q q' : PoolState (Numbered α)}
    (hnumbers : q'.allNumbers = {q.take.1.number} + q.take.2.allNumbers)
    (hmade : q'.made = q.take.2.made) (hsize : q.detached.size ≤ q'.detached.size) : Moves q q' := by
  rcases q.allNumbers_take with ⟨hall, hsame⟩ | ⟨hnew, hnext, hall⟩
  · exact ⟨by omega, hsize, .inl (le_of_eq (hnumbers.trans hall))⟩
  · refine ⟨by omega, hsize, .inr ⟨.made q.made, Nat.lt_irrefl _, ?_, ?_⟩⟩
    · show q.made < q'.made
      omega
    · rw [hnumbers, hnew, hall]

theorem giveBack_moves (q : PoolState (Numbered α)) (x : Numbered α) :
    (q.giveBack x).made = q.made ∧ (q.giveBack x).detached = q.detached ∧
      (q.giveBack x).allNumbers ≤ {x.number} + q.allNumbers := by
  unfold giveBack
  split
  · refine ⟨rfl, rfl, le_of_eq ?_⟩
    rw [allNumbers, numbers_cons, allNumbers]
    show {x.number} + numbers q.free + _ + _ = _
    ac_rfl
  · exact ⟨rfl, rfl, Multiset.le_add_left _ _⟩

/-- **What a call does to the numbers.** -/
theorem CallResult.moves {c : PoolCall (Numbered α)} (h : CallResult q c q')
    (hc : c.KeepsNumbers q.detached.size) : Moves q q' := by
  cases h with
  | got =>
    refine Moves.of_take ?_ rfl (by show _ ≤ q.take.2.detached.size; rw [detached_take])
    simp only [allNumbers, hold, numbers_held_push]
    ac_rfl
  | gotDetached =>
    refine Moves.of_take ?_ rfl ?_
    · simp only [allNumbers, numbers_held_push]
      ac_rfl
    · rw [detached_take, Array.size_push]
      exact Nat.le_succ _
  | attached there =>
    refine ⟨Nat.le_refl _, by simp [hold], .inl (le_of_eq ?_)⟩
    simp only [allNumbers, hold, numbers_held_push, numbers_held there]
    ac_rfl
  | detached there =>
    refine ⟨Nat.le_refl _, by simp, .inl (le_of_eq ?_)⟩
    simp only [allNumbers, numbers_held_push, numbers_held there]
    ac_rfl
  | @dropped n x there =>
    obtain ⟨hmade, hdetached, hle⟩ :=
      giveBack_moves { q with handles := q.handles.setIfInBounds n none } x
    refine ⟨by rw [hmade], by rw [hdetached], .inl (hle.trans (le_of_eq ?_))⟩
    simp only [allNumbers, numbers_held there]
    ac_rfl
  | written there =>
    refine ⟨Nat.le_refl _, Nat.le_refl _, .inl (le_of_eq ?_)⟩
    simp only [allNumbers, numbers_held_set there (hc _)]
  | altered there =>
    refine ⟨Nat.le_refl _, by simp, .inl (le_of_eq ?_)⟩
    simp only [allNumbers, numbers_held_set there (hc _)]
  | @brought x =>
    have hnumber : x.number = .brought q.detached.size := hc
    refine ⟨Nat.le_refl _, by simp,
      .inr ⟨.brought q.detached.size, Nat.lt_irrefl _, by simp [Used], le_of_eq ?_⟩⟩
    simp only [allNumbers, numbers_held_push, hnumber]
    ac_rfl
  | nothing => exact Moves.refl q

theorem callNumbered_moves (q : PoolState (Numbered α)) (c : PoolCall α) :
    Moves q (q.callNumbered c) :=
  (q.call_result _).moves (c.numbered_keepsNumbers _)

/-- **No number is ever in two places.** -/
theorem Distinct.after (h : Distinct q) (calls : List (PoolCall α)) : Distinct (q.afterNumbered calls) := by
  induction calls generalizing q with
  | nil => exact h
  | cons c calls ih => exact ih (h.moves (q.callNumbered_moves c))

/-! ## Detached items -/

/-- **A detached item stays where it is until it is attached.** -/
theorem CallResult.stays {c : PoolCall (Numbered α)} (h : CallResult q c q')
    (hc : c.KeepsNumbers q.detached.size) {d : Nat} {x : Numbered α}
    (hx : q.detached.getD d none = some x) (hne : c ≠ .attach d) :
    ∃ y, q'.detached.getD d none = some y ∧ y.number = x.number := by
  cases h with
  | got =>
    refine ⟨x, ?_, rfl⟩
    show q.take.2.detached.getD d none = some x
    rwa [detached_take]
  | gotDetached =>
    refine ⟨x, ?_, rfl⟩
    rw [detached_take]
    exact getD_push_of_some hx _
  | @attached d' y there =>
    have hother : d' ≠ d := fun heq => hne (congrArg _ heq)
    exact ⟨x, getD_set_of_ne hx hother none, rfl⟩
  | detached => exact ⟨x, getD_push_of_some hx _, rfl⟩
  | @dropped n y there =>
    obtain ⟨-, hdetached, -⟩ :=
      giveBack_moves { q with handles := q.handles.setIfInBounds n none } y
    exact ⟨x, by rw [hdetached]; exact hx, rfl⟩
  | @altered d' y f there =>
    by_cases heq : d' = d
    · subst heq
      obtain rfl := Option.some.inj (there.symm.trans hx)
      exact ⟨f y, getD_set_self hx _, hc y⟩
    · exact ⟨x, getD_set_of_ne hx heq _, rfl⟩
  | brought => exact ⟨x, getD_push_of_some hx _, rfl⟩
  | written | nothing => exact ⟨x, hx, rfl⟩

theorem callNumbered_detached {d : Nat} {x : Numbered α} (hx : q.detached.getD d none = some x)
    {c : PoolCall α} (hc : c ≠ .attach d) :
    ∃ y, (q.callNumbered c).detached.getD d none = some y ∧ y.number = x.number := by
  refine (q.call_result _).stays (c.numbered_keepsNumbers _) hx ?_
  cases c with
  | attach d' => exact fun heq => hc (congrArg _ (PoolCall.attach.inj heq))
  | get | getDetached | detach | drop | write | alter | bring => nofun

theorem after_detached {d : Nat} {x : Numbered α} (hx : q.detached.getD d none = some x)
    {calls : List (PoolCall α)} (hcalls : .attach d ∉ calls) :
    ∃ y, (q.afterNumbered calls).detached.getD d none = some y ∧ y.number = x.number := by
  induction calls generalizing q x with
  | nil => exact ⟨x, hx, rfl⟩
  | cons c calls ih =>
    rw [List.mem_cons, not_or] at hcalls
    obtain ⟨y, hy, hnumber⟩ := callNumbered_detached hx (Ne.symm hcalls.1)
    obtain ⟨z, hz, hnumber'⟩ := ih hy hcalls.2
    exact ⟨z, hz, hnumber'.trans hnumber⟩

/-- **A pool never hands out old contents, and every item has one owner.** If a reset item is blank and its
footprint is not raised, then after any calls the pool keeps at most `maxItems` items, all of them reset
and none larger than `maxFootprint`, and the next item that it hands out is new or was reset. No item is
in two places among those that the pool keeps, those in handles and those detached. One that is detached
is among those kept later only if it was attached in between. -/
theorem pool_items_have_one_owner (Blank : α → Prop)
    (hblank : ∀ x : α, Blank (Recyclable.reset x))
    (hsmaller : ∀ x : α, Recyclable.footprint (Recyclable.reset x) ≤ Recyclable.footprint x)
    (maxItems maxFootprint : Nat) (calls : List (PoolCall α)) :
    let p := ({ maxItems, maxFootprint } : PoolState α).after calls
    let q := ({ maxItems, maxFootprint } : PoolState (Numbered α)).afterNumbered calls
    (p.free.length ≤ maxItems ∧
        ∀ x ∈ p.free, (∃ y, x = Recyclable.reset y) ∧ Blank x ∧ Recyclable.footprint x ≤ maxFootprint) ∧
      (∀ c, c = .get ∨ c = .getDetached →
        ∃ x, (p.call c).1 = some x ∧
          (x = Recyclable.fresh p.made ∨ (∃ y, x = Recyclable.reset y) ∧ Blank x)) ∧
      q.items = p ∧
      ((q.free ++ held q.handles ++ held q.detached).map Numbered.number).Nodup ∧
      ∀ d x, q.detached.getD d none = some x → ∀ more,
        (∃ y ∈ (q.afterNumbered more).free, y.number = x.number) → .attach d ∈ more := by
  intro p q
  have hkept : Kept p := (Kept.empty maxItems maxFootprint).after hsmaller calls
  obtain ⟨hitems, hfootprint⟩ := ({ maxItems, maxFootprint } : PoolState α).after_limits calls
  have hdistinct : Distinct q := (Distinct.empty maxItems maxFootprint).after calls
  refine ⟨⟨hkept.length_le.trans_eq hitems, fun x hx => ?_⟩, fun c hc => ?_, ?_, ?_, ?_⟩
  · obtain ⟨y, rfl⟩ := hkept.reset x hx
    exact ⟨⟨y, rfl⟩, hblank y, (hkept.footprint_le _ hx).trans_eq hfootprint⟩
  · have htaken : (p.call c).1 = some p.take.1 := by
      rcases hc with rfl | rfl <;> rfl
    refine ⟨p.take.1, htaken, ?_⟩
    rcases hkept.take with hnew | ⟨y, hreset⟩
    · exact .inl hnew
    · exact .inr ⟨⟨y, hreset⟩, hreset ▸ hblank y⟩
  · exact (after_items _ calls).trans (congrArg (·.after calls) (items_empty maxItems maxFootprint))
  · have hnodup := hdistinct.nodup
    rwa [allNumbers, ← numbers_append, ← numbers_append, numbers, Multiset.coe_nodup] at hnodup
  · rintro d x hx more ⟨y, hy, hnumber⟩
    by_contra hnever
    obtain ⟨z, hz, hsame⟩ := after_detached hx hnever
    have hfree : z.number ∈ numbers (q.afterNumbered more).free :=
      Multiset.mem_coe.mpr (List.mem_map.mpr ⟨y, hy, hnumber.trans hsame.symm⟩)
    exact (hdistinct.after more).not_free hz hfree

/-- Three bytes are written and dropped; the room of eight bytes that is handed out again is blank. -/
theorem dropped_bytes_are_cleared :
    let p := ({ maxItems := 1, maxFootprint := 16 } : PoolState RoomyBytes).after
      [.get, .write 0 fun _ => ⟨⟨#[1, 2, 3]⟩, 8, by decide⟩, .drop 0]
    ∃ x, (p.call .get).1 = some x ∧ x.room = 8 ∧ x.bytes = ByteArray.empty := by
  intro p
  have hblank : ∀ x : RoomyBytes, (Recyclable.reset x).bytes = ByteArray.empty := fun _ => rfl
  have hsmaller : ∀ x : RoomyBytes, (Recyclable.reset x).room ≤ x.room := fun x => Nat.le_refl x.room
  obtain ⟨-, hhanded, -⟩ := pool_items_have_one_owner (fun x => x.bytes = ByteArray.empty) hblank
    hsmaller 1 16 [.get, .write 0 fun _ => ⟨⟨#[1, 2, 3]⟩, 8, by decide⟩, .drop 0]
  obtain ⟨x, hx, hx'⟩ := hhanded .get (.inl rfl)
  refine ⟨x, hx, ?_, ?_⟩
  · obtain rfl := Option.some.inj hx
    rfl
  · rcases hx' with rfl | ⟨-, hbytes⟩
    · rfl
    · exact hbytes

end PoolState

end DedupImage
