import DedupImage.Proofs.Index.View
import DedupImage.Proofs.Placement.Growth

/-!
# What placement asks its catalog

Every step of placement leads from the catalog before it to the one after it by requests, and `Via`
says what the requests put in. Look-ups put in nothing. A window is put in only if it is complete: the
window behind a block that was found, or one at a multiple of the period inside the container. A block
is put in when it is enrolled.

The lemmas hold for any condition `P` on entries, so each of them is a description of the step: whatever
is true of the entries named in its hypothesis is true of all entries that the step makes.
-/

namespace DedupImage.Placement

open Catalog

variable {ι : Type} [Catalog ι] {P Q : CatalogEntry → Prop} {p q r : Placement ι}

/-- Requests whose new entries satisfy `P` lead from one catalog to the other, if there is one. -/
def Via (P : CatalogEntry → Prop) (p q : Placement ι) : Prop :=
  Option.Rel (Reached P) p.index q.index

namespace Via

theorem of_eq (h : q.index = p.index) : Via P p q := by
  unfold Via
  rw [h]
  cases p.index with
  | none => exact .none
  | some x => exact .some .refl

theorem trans (h : Via P p q) (h' : Via P q r) : Via P p r := by
  unfold Via at *
  generalize p.index = x at *
  generalize q.index = y at *
  generalize r.index = z at *
  cases h with
  | none => cases h'; exact .none
  | some h =>
    cases h' with
    | some h' => exact .some (Relation.ReflTransGen.trans h h')

theorem mono (hPQ : ∀ e, P e → Q e) (h : Via P p q) : Via Q p q := by
  unfold Via at *
  generalize p.index = x at *
  generalize q.index = y at *
  cases h with
  | none => exact .none
  | some h => exact .some (h.mono hPQ)

theorem of_some {x y : ι} (hp : p.index = some x) (hq : q.index = some y) (h : Reached P x y) :
    Via P p q := by
  unfold Via
  rw [hp, hq]
  exact .some h

/-- The catalogs behind it. -/
theorem reached {y : ι} (h : Via P p q) (hq : q.index = some y) :
    ∃ x, p.index = some x ∧ Reached P x y := by
  unfold Via at h
  rw [hq] at h
  cases hp : p.index with
  | none =>
    rw [hp] at h
    cases h
  | some x =>
    rw [hp] at h
    cases h with
    | some h => exact ⟨x, rfl, h⟩

end Via

/-! ## Windows -/

theorem addWindow_via {l : Location} {window : ByteArray}
    (h : P (.window (p.settings.hash window) l)) : Via P p (p.addWindow l window) := by
  unfold addWindow
  cases hi : p.index with
  | none => exact .of_eq rfl
  | some x =>
    dsimp only
    split
    · exact .of_some hi rfl (reached_findWindow _)
    · exact .of_some hi rfl ((reached_findWindow _).trans (reached_addWindow h))

/-- The window behind a stretch is put in only if the container has all of it. -/
theorem predict_via {l : Location} {length : Nat}
    (h : l.offset.toNat + length + length ≤ p.store.size l.container.toNat →
      P (.window
        (p.settings.hash
          (slice (p.store.data l.container.toNat) (l.offset.toNat + length) length))
        (Location.ofNat l.container.toNat (l.offset.toNat + length)))) :
    Via P p (p.predict l length) := by
  unfold predict
  split
  · dsimp only
    split
    · exact addWindow_via (h ‹_›)
    · exact .of_eq rfl
  · exact .of_eq rfl

/-- The entry of window number `i` of a container. -/
def windowEntry (p : Placement ι) (container blockSize i : Nat) : CatalogEntry :=
  let start := i * max p.settings.windowPeriod 1
  .window (p.settings.hash (slice (p.store.data container) start blockSize))
    (Location.ofNat container start)

omit [Catalog ι] in
theorem Alike.windowEntry (h : Alike p q) (container blockSize i : Nat) :
    q.windowEntry container blockSize i = p.windowEntry container blockSize i := by
  unfold Placement.windowEntry
  rw [h.settings, h.store]

theorem addWindows_via {container blockSize first n : Nat}
    (h : ∀ i < first + n, P (p.windowEntry container blockSize i)) :
    Via P p (p.addWindows container blockSize first n) := by
  induction n generalizing p first with
  | zero => exact .of_eq rfl
  | succ n ih =>
    have halike := p.addWindow_alike
      (Location.ofNat container (first * max p.settings.windowPeriod 1))
      (slice (p.store.data container) (first * max p.settings.windowPeriod 1) blockSize)
    refine Via.trans (addWindow_via (h first (by omega))) (ih ?_)
    intro i hi
    rw [halike.windowEntry]
    exact h i (by omega)

theorem enterWindows_via {container size : Nat} {overlapped : Bool} {blockSize : Nat}
    (h : ∀ i < windowCount (max p.settings.windowPeriod 1) blockSize size,
      P (p.windowEntry container blockSize i)) :
    Via P p (p.enterWindows container size overlapped blockSize) := by
  unfold enterWindows
  split
  · dsimp only
    rename_i hdue
    generalize hfirst : windowCount _ _ (p.windowedSize container blockSize) = first
    generalize hlast : windowCount _ _ size = last at h ⊢
    by_cases hle : first ≤ last
    · exact (addWindows_via (fun i hi => h i (by omega))).trans (.of_eq rfl)
    · rw [Nat.sub_eq_zero_of_le (by omega)]
      exact .of_eq rfl
  · exact .of_eq rfl

theorem foldl_enterWindows_via {container size : Nat} {overlapped : Bool} {blockSizes : List Nat}
    (h : ∀ blockSize ∈ blockSizes, ∀ i < windowCount (max p.settings.windowPeriod 1) blockSize size,
      P (p.windowEntry container blockSize i)) :
    Via P p
      (blockSizes.foldl (fun p blockSize => p.enterWindows container size overlapped blockSize) p) := by
  induction blockSizes generalizing p with
  | nil => exact .of_eq rfl
  | cons blockSize rest ih =>
    have halike := p.enterWindows_alike container size overlapped blockSize
    refine Via.trans (enterWindows_via (h blockSize List.mem_cons_self)) (ih ?_)
    intro n hn i hi
    rw [halike.settings] at hi
    rw [halike.windowEntry]
    exact h n (List.mem_cons_of_mem _ hn) i hi

/-- The windows that are put in after a write have an announced length and are complete. -/
theorem enterDueWindows_via {container size : Nat} {overlapped : Bool}
    (h : ∀ blockSize ∈ p.blockSizes, ∀ i < windowCount (max p.settings.windowPeriod 1) blockSize size,
      P (p.windowEntry container blockSize i)) :
    Via P p (p.enterDueWindows container size overlapped) := by
  unfold enterDueWindows
  split
  · exact foldl_enterWindows_via fun n hn => h n (Std.TreeSet.mem_toList.mp hn)
  · exact .of_eq rfl

/-! ## Look-ups -/

theorem findWindowHit_via {x : ι} {hash : UInt32} {data : ByteArray} (hx : p.index = some x) :
    Via P p (p.findWindowHit x hash data).2 := by
  unfold findWindowHit
  split
  · dsimp only
    split <;> exact .of_some hx rfl (reached_findWindow _)
  · exact .of_eq rfl

theorem findHit_via (hash : UInt32) (data : ByteArray) : Via P p (p.findHit hash data).2 := by
  unfold findHit
  cases hi : p.index with
  | none => exact .of_eq rfl
  | some x =>
    have hfound : Via P p { p with index := some (findReal x hash).2 } :=
      .of_some hi rfl (reached_findReal _)
    dsimp only
    split
    · exact hfound
    · exact hfound
    · exact hfound.trans (findWindowHit_via rfl)

/-- A look-up puts in nothing. -/
theorem lookup_via (data : ByteArray) : Via P p (p.lookup data).2 := by
  unfold lookup
  dsimp only
  split
  · have hcount : Via P p { p with stats := { p.stats with placed := p.stats.placed + 1 } } :=
      .of_eq rfl
    exact hcount.trans (findHit_via _ _)
  · exact .of_eq rfl

/-! ## Enrolling -/

omit [Catalog ι] in
theorem register_index (p : Placement ι) (r : BlockRecord) : (p.register r).2.index = p.index := by
  rcases p.register_cases r with ⟨b, _, h⟩ | ⟨_, h⟩ <;> rw [h]

/-- A block that is enrolled is put in under its hash, if it is to be found again. -/
theorem enrol_via {r : BlockRecord} {hash : UInt32} {indexed : Bool}
    (h : indexed = true → P (.block hash (p.enrol r hash indexed).1)) :
    Via P p (p.enrol r hash indexed).2 := by
  cases indexed with
  | false => exact .of_eq (p.register_index r)
  | true =>
    cases hi : p.index with
    | none =>
      refine .of_eq ?_
      show (p.register r).2.index.map _ = p.index
      rw [register_index, hi]
      rfl
    | some x =>
      refine .of_some hi (y := addReal x hash (p.enrol r hash true).1) ?_ (reached_addReal (h rfl))
      show (p.register r).2.index.map _ = _
      rw [register_index, hi]
      rfl

theorem releaseWindow_via (hash : UInt32) (l : Location) (length : Nat) :
    Via P p (p.releaseWindow hash l length) := by
  cases hi : p.index with
  | none =>
    refine .of_eq ?_
    show p.index.map _ = p.index
    rw [hi]
    rfl
  | some x =>
    refine .of_some hi (y := deleteWindow x hash l) ?_ (reached_deleteWindow _ _)
    show p.index.map _ = _
    rw [hi]
    rfl

omit [Catalog ι] in
/-- Choosing the container of a plan does not ask the catalog. -/
theorem containerFor_index {plan : WritePlan} {id : Nat} (h : p.containerFor plan = .ok (id, q)) :
    q.index = p.index := by
  rcases containerFor_cases h with ⟨-, rfl⟩ | ⟨store, -, -, rfl⟩
  · rfl
  · rfl

end DedupImage.Placement
