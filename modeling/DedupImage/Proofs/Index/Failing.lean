import DedupImage.Proofs.Index.Interchange

/-!
# Segments that fail are given up, and no others

A call goes along the segments of a chain, oldest first, and a segment that fails on the way is given up.
This module says what that costs. It describes a call by what it meets in one segment (`Encounter`): the
segment fails, or the call goes on behind it, or the call ends with it. Segments behind the one with which
a call ends are not asked, so they may be broken and stay (`unasked`).

Two things are shown of every call. The chain answers, and is left, as if the segments that failed had not
been in it (`Chain.perform_withoutFailing`), whatever the segments do. And what the call does to the
others is what it says: one entry is stored or removed in one segment, a new segment is opened behind the
others, or the oldest one is given up for it (`Chain.Outcome`). The second needs to know what a segment
holds. `FallibleView` is that knowledge for segments that may fail: every operation may fail at any time,
and one that does not acts as on a finite map. Segments that work are a special case
(`SegmentView.fallible`), and so are segments of all kinds, broken ones among them
(`AnySegment.fallible`).
-/

namespace DedupImage

variable {σ V : Type}

/-! ## Encounters -/

/-- What a call meets in a segment. -/
inductive Encounter (σ : Type) where
  /-- An operation that the call makes of the segment fails. -/
  | fails
  /-- The call goes on behind the segment, and leaves it so. -/
  | passes (left : σ)
  /-- The call ends with the segment, and leaves it so. -/
  | ends (left : σ)

namespace Encounter

/-- The segment failed. -/
def failed : Encounter σ → Bool
  | fails => true
  | passes _ => false
  | ends _ => false

/-- The call ended with the segment. -/
def ended : Encounter σ → Bool
  | fails => false
  | passes _ => false
  | ends _ => true

/-- The segment as it was left, if it did not fail. -/
def left? : Encounter σ → Option σ
  | fails => none
  | passes s => some s
  | ends s => some s

/-! ### Along the segments -/

variable (meets : σ → Encounter σ)

/-- The segments that a call comes to: all up to the one with which it ends. -/
def asked (segments : List σ) : List σ :=
  segments.take (segments.findIdx (fun s => (meets s).ended) + 1)

/-- The segments that a call does not come to. -/
def unasked (segments : List σ) : List σ :=
  segments.drop (segments.findIdx (fun s => (meets s).ended) + 1)

/-- The segments that fail under a call. -/
def failing (segments : List σ) : List σ :=
  (asked meets segments).filter fun s => (meets s).failed

/-- The segments without those that fail under a call. -/
def healthy (segments : List σ) : List σ :=
  ((asked meets segments).filter fun s => !(meets s).failed) ++ unasked meets segments

/-- The segments that a call leaves. -/
def leftBy (segments : List σ) : List σ :=
  (asked meets segments).filterMap (fun s => (meets s).left?) ++ unasked meets segments

variable {meets} {s t : σ} {segments : List σ}

theorem asked_cons_of_not_ended (h : (meets s).ended = false) (rest : List σ) :
    asked meets (s :: rest) = s :: asked meets rest ∧ unasked meets (s :: rest) = unasked meets rest := by
  unfold asked unasked
  rw [List.findIdx_cons, h]
  exact ⟨rfl, rfl⟩

theorem asked_cons_of_ended (h : (meets s).ended = true) (rest : List σ) :
    asked meets (s :: rest) = [s] ∧ unasked meets (s :: rest) = rest := by
  unfold asked unasked
  rw [List.findIdx_cons, h]
  exact ⟨rfl, rfl⟩

/-- A segment that fails is given up, and all else is as behind it. -/
theorem cons_of_fails (h : meets s = .fails) (rest : List σ) :
    failing meets (s :: rest) = s :: failing meets rest ∧
      healthy meets (s :: rest) = healthy meets rest ∧
      leftBy meets (s :: rest) = leftBy meets rest := by
  have hended : (meets s).ended = false := by rw [h]; rfl
  obtain ⟨hasked, hunasked⟩ := asked_cons_of_not_ended hended rest
  unfold failing healthy leftBy
  rw [hasked, hunasked, List.filter_cons, List.filter_cons, List.filterMap_cons, h]
  exact ⟨rfl, rfl, rfl⟩

/-- A segment that a call passes by stays. -/
theorem cons_of_passes (h : meets s = .passes t) (rest : List σ) :
    failing meets (s :: rest) = failing meets rest ∧
      healthy meets (s :: rest) = s :: healthy meets rest ∧
      leftBy meets (s :: rest) = t :: leftBy meets rest := by
  have hended : (meets s).ended = false := by rw [h]; rfl
  obtain ⟨hasked, hunasked⟩ := asked_cons_of_not_ended hended rest
  unfold failing healthy leftBy
  rw [hasked, hunasked, List.filter_cons, List.filter_cons, List.filterMap_cons, h]
  exact ⟨rfl, rfl, rfl⟩

/-- The segment with which a call ends stays, and so do all behind it. -/
theorem cons_of_ends (h : meets s = .ends t) (rest : List σ) :
    failing meets (s :: rest) = [] ∧ healthy meets (s :: rest) = s :: rest ∧
      leftBy meets (s :: rest) = t :: rest := by
  have hended : (meets s).ended = true := by rw [h]; rfl
  obtain ⟨hasked, hunasked⟩ := asked_cons_of_ended hended rest
  unfold failing healthy leftBy
  rw [hasked, hunasked, List.filter_cons, List.filter_cons, List.filterMap_cons, h]
  exact ⟨rfl, rfl, rfl⟩

/-- Along the healthy segments nothing fails, and the call ends and leaves them as before. -/
theorem healthy_idem (meets : σ → Encounter σ) (segments : List σ) :
    failing meets (healthy meets segments) = [] ∧
      leftBy meets (healthy meets segments) = leftBy meets segments ∧
      (healthy meets segments).any (fun s => (meets s).ended) =
        segments.any fun s => (meets s).ended := by
  induction segments with
  | nil => exact ⟨rfl, rfl, rfl⟩
  | cons s rest ih =>
    obtain ⟨hfailing, hleft, hended⟩ := ih
    cases h : meets s with
    | fails =>
      obtain ⟨-, hhealthy, hleft'⟩ := cons_of_fails h rest
      rw [hhealthy, hleft', List.any_cons, h]
      exact ⟨hfailing, hleft, hended⟩
    | passes t =>
      obtain ⟨-, hhealthy, hleft'⟩ := cons_of_passes h rest
      obtain ⟨hfailing'', -, hleft''⟩ := cons_of_passes h (healthy meets rest)
      rw [hhealthy, hleft', hfailing'', hleft'', hleft, List.any_cons, List.any_cons, hended]
      exact ⟨hfailing, rfl, rfl⟩
    | ends t =>
      obtain ⟨hfailing', hhealthy, -⟩ := cons_of_ends h rest
      rw [hhealthy]
      exact ⟨hfailing', rfl, rfl⟩

theorem mem_of_mem_healthy (h : s ∈ healthy meets segments) : s ∈ segments := by
  rcases List.mem_append.mp h with h | h
  · exact List.mem_of_mem_take (List.mem_of_mem_filter h)
  · exact List.mem_of_mem_drop h

end Encounter

open Encounter

/-- What a call of a chain meets in a segment. Looking up reads the key. Asking ends with the first
segment that has the key. Storing passes by full segments without asking them and by those that have the
key, and ends with the first that takes the value. Deleting ends with the first segment that had the
value and gave it up. -/
def IndexCall.meet [Segment σ V] [DecidableEq V] (room : Nat) (call : IndexCall V) (s : σ) :
    Encounter σ :=
  match call with
  | .find k =>
    match Segment.get s k with
    | .error _ => .fails
    | .ok (_, s) => .passes s
  | .has k =>
    match Segment.has s k with
    | .error _ => .fails
    | .ok (false, s) => .passes s
    | .ok (true, s) => .ends s
  | .add k v =>
    if room ≤ Segment.entries s then
      .passes s
    else
      match Segment.has s k with
      | .error _ => .fails
      | .ok (true, s) => .passes s
      | .ok (false, s) =>
        match Segment.put s k v with
        | .error _ => .fails
        | .ok s => .ends s
  | .delete k v =>
    match Segment.get s k with
    | .error _ => .fails
    | .ok (found, s) =>
      if found = some v then
        match Segment.delete s k with
        | .error _ => .fails
        | .ok s => .ends s
      else
        .passes s

/-! ## Walks -/

namespace Walk

variable [Segment σ V]

/-- The value of a key in a segment, if it does not fail. -/
def valueIn? (k : UInt32) (s : σ) : Option V :=
  match Segment.get s k with
  | .error _ => none
  | .ok (found, _) => found

variable [DecidableEq V]

/-- Looking up finds the values of the segments that do not fail. -/
theorem find_eq_meets (room : Nat) (k : UInt32) (segments : List σ) :
    find k segments =
      ⟨segments.filterMap (valueIn? k), leftBy ((IndexCall.find k).meet room) segments,
        (failing ((IndexCall.find k).meet room) segments).length⟩ := by
  induction segments with
  | nil => rfl
  | cons s rest ih =>
    unfold find
    rw [List.filterMap_cons, ih]
    cases hget : Segment.get s k with
    | error e =>
      have hmeet : (IndexCall.find (V := V) k).meet room s = .fails := by
        simp only [IndexCall.meet, hget]
      obtain ⟨hfailing, -, hleft⟩ := cons_of_fails hmeet rest
      simp only [hfailing, hleft, valueIn?, hget]
      rfl
    | ok found =>
      obtain ⟨found, t⟩ := found
      have hmeet : (IndexCall.find (V := V) k).meet room s = .passes t := by
        simp only [IndexCall.meet, hget]
      obtain ⟨hfailing, -, hleft⟩ := cons_of_passes hmeet rest
      simp only [hfailing, hleft, valueIn?, hget]
      cases found <;> rfl

/-- A walk that does in every segment what the call meets there. -/
structure Follows (meets : σ → Encounter σ) (walk : List σ → Walk σ Bool) : Prop where
  nil : walk [] = ⟨false, [], 0⟩
  cons : ∀ s rest, walk (s :: rest) =
    match meets s with
    | .fails => (walk rest).lose
    | .passes t => (walk rest).keep t
    | .ends t => ⟨true, t :: rest, 0⟩

omit [Segment σ V] [DecidableEq V] in
/-- Such a walk says whether the call ended, leaves what the call leaves, and counts the segments that
failed. -/
theorem Follows.eq {meets : σ → Encounter σ} {walk : List σ → Walk σ Bool} (h : Follows meets walk)
    (segments : List σ) :
    walk segments =
      ⟨segments.any fun s => (meets s).ended, leftBy meets segments,
        (failing meets segments).length⟩ := by
  induction segments with
  | nil => exact h.nil
  | cons s rest ih =>
    rw [h.cons, ih, List.any_cons]
    cases hmeets : meets s with
    | fails =>
      obtain ⟨hfailing, -, hleft⟩ := cons_of_fails hmeets rest
      rw [hfailing, hleft]
      rfl
    | passes t =>
      obtain ⟨hfailing, -, hleft⟩ := cons_of_passes hmeets rest
      rw [hfailing, hleft]
      rfl
    | ends t =>
      obtain ⟨hfailing, -, hleft⟩ := cons_of_ends hmeets rest
      rw [hfailing, hleft]
      rfl

theorem has_follows (room : Nat) (k : UInt32) :
    Follows ((IndexCall.has k).meet room) (has k : List σ → Walk σ Bool) where
  nil := rfl
  cons s rest := by
    rw [has, IndexCall.meet]
    rcases Segment.has s k with e | ⟨_ | _, t⟩ <;> rfl

theorem add_follows (room : Nat) (k : UInt32) (v : V) :
    Follows ((IndexCall.add k v).meet room) (add room k v : List σ → Walk σ Bool) where
  nil := rfl
  cons s rest := by
    rw [add, IndexCall.meet]
    by_cases hfull : room ≤ Segment.entries s
    · rw [if_pos hfull, if_pos hfull]
    · rw [if_neg hfull, if_neg hfull]
      rcases Segment.has s k with e | ⟨_ | _, t⟩
      · rfl
      · dsimp only
        rcases Segment.put t k v with e | u <;> rfl
      · rfl

theorem delete_follows (room : Nat) (k : UInt32) (v : V) :
    Follows ((IndexCall.delete k v).meet room) (delete k v : List σ → Walk σ Bool) where
  nil := rfl
  cons s rest := by
    rw [delete, IndexCall.meet]
    rcases Segment.get s k with e | ⟨found, t⟩
    · rfl
    · dsimp only
      by_cases hfound : found = some v
      · rw [if_pos hfound, if_pos hfound]
        rcases Segment.delete t k with e | u <;> rfl
      · rw [if_neg hfound, if_neg hfound]

/-- Segments that fail have no value to be found. -/
theorem filterMap_valueIn_healthy (room : Nat) (k : UInt32) (segments : List σ) :
    (healthy ((IndexCall.find k).meet room) segments).filterMap (valueIn? k) =
      segments.filterMap (valueIn? k) := by
  induction segments with
  | nil => rfl
  | cons s rest ih =>
    cases hget : Segment.get s k with
    | error e =>
      have hmeet : (IndexCall.find (V := V) k).meet room s = .fails := by
        simp only [IndexCall.meet, hget]
      obtain ⟨-, hhealthy, -⟩ := cons_of_fails hmeet rest
      rw [hhealthy, ih, List.filterMap_cons, valueIn?, hget]
    | ok found =>
      have hmeet : (IndexCall.find (V := V) k).meet room s = .passes found.2 := by
        simp only [IndexCall.meet, hget]
      obtain ⟨-, hhealthy, -⟩ := cons_of_passes hmeet rest
      rw [hhealthy, List.filterMap_cons, List.filterMap_cons, ih]

end Walk

/-! ## Chains without the segments that fail -/

namespace Chain

/-- The chain, with more segments given up so far. -/
def gaveUp (c : Chain σ) (n : Nat) : Chain σ := { c with evictions := c.evictions + n }

variable [Segment σ V]

theorem makeRoom_gaveUp (c : Chain σ) (n : Nat) : (c.gaveUp n).makeRoom = c.makeRoom.gaveUp n := by
  unfold makeRoom gaveUp
  dsimp only
  split
  · rw [Nat.add_right_comm]
  · rfl

theorem extend_gaveUp (c : Chain σ) (n : Nat) (k : UInt32) (v : V) :
    (c.gaveUp n).extend k v = (c.extend k v).gaveUp n := by
  unfold extend
  rw [makeRoom_gaveUp]
  dsimp only [gaveUp]
  split
  · rfl
  · split <;> rfl

variable [DecidableEq V]

/-- The segments that a call of the chain leaves, and the count of those that failed under it. -/
def afterMeeting (c : Chain σ) (call : IndexCall V) : Chain σ :=
  ({ c with segments := leftBy (call.meet c.room) c.segments } : Chain σ).gaveUp
    (failing (call.meet c.room) c.segments).length

/-- A call of the chain ends with a segment. -/
def endsCall (c : Chain σ) (call : IndexCall V) : Bool :=
  c.segments.any fun s => (call.meet c.room s).ended

theorem perform_find (c : Chain σ) (k : UInt32) :
    c.perform (.find k) =
      (.values (c.segments.filterMap (Walk.valueIn? k)), c.afterMeeting (.find k)) := by
  simp only [perform, Chain.find, Walk.find_eq_meets c.room]
  rfl

theorem perform_has (c : Chain σ) (k : UInt32) :
    c.perform (.has k) = (.present (c.endsCall (.has k)), c.afterMeeting (.has k)) := by
  simp only [perform, Chain.has, (Walk.has_follows c.room k).eq]
  rfl

theorem perform_add (c : Chain σ) (k : UInt32) (v : V) :
    c.perform (.add k v) =
      (.added, if c.endsCall (.add k v) then c.afterMeeting (.add k v)
        else (c.afterMeeting (.add k v)).extend k v) := by
  simp only [perform, Chain.add, (Walk.add_follows c.room k v).eq]
  rfl

theorem perform_delete (c : Chain σ) (k : UInt32) (v : V) :
    c.perform (.delete k v) =
      (.deleted (c.endsCall (.delete k v)), c.afterMeeting (.delete k v)) := by
  simp only [perform, Chain.delete, (Walk.delete_follows c.room k v).eq]
  rfl

/-- The chain without the segments that fail under a call. -/
def withoutFailing (c : Chain σ) (call : IndexCall V) : Chain σ :=
  { c with segments := healthy (call.meet c.room) c.segments }

/-- **A chain is as good as one without the segments that fail.** The call has the same answer and leaves
the same chain, but for the count of segments given up, which has one more for every segment that the
call came to and that failed. -/
theorem perform_withoutFailing (c : Chain σ) (call : IndexCall V) :
    c.perform call =
      (((c.withoutFailing call).perform call).1,
        ((c.withoutFailing call).perform call).2.gaveUp
          (failing (call.meet c.room) c.segments).length) := by
  obtain ⟨hfailing, hleft, hended⟩ := healthy_idem (call.meet c.room) c.segments
  have hends : (c.withoutFailing call).endsCall call = c.endsCall call := hended
  have hafter : ((c.withoutFailing call).afterMeeting call).gaveUp
      (failing (call.meet c.room) c.segments).length = c.afterMeeting call := by
    unfold afterMeeting withoutFailing
    dsimp only
    rw [hleft, hfailing]
    rfl
  cases call with
  | find k =>
    rw [perform_find, perform_find, hafter]
    exact congrArg (fun found => (IndexAnswer.values found, _))
      (Walk.filterMap_valueIn_healthy c.room k c.segments).symm
  | has k => rw [perform_has, perform_has, hends, hafter]
  | add k v =>
    rw [perform_add, perform_add, hends]
    split
    · rw [hafter]
    · rw [← extend_gaveUp, hafter]
  | delete k v => rw [perform_delete, perform_delete, hends, hafter]

end Chain

/-! ## What segments hold -/

/-- Segments that may fail at any time, and otherwise answer like the finite map `look`. -/
structure FallibleView (σ : Type) (V : Type) [Segment σ V] where
  Valid : σ → Prop
  /-- The value of a key. -/
  look : σ → UInt32 → Option V
  of_get : ∀ {s t : σ} {k : UInt32} {found : Option V}, Valid s →
    Segment.get s k = .ok (found, t) → found = look s k ∧ Valid t ∧ look t = look s
  of_has : ∀ {s t : σ} {k : UInt32} {found : Bool}, Valid s →
    Segment.has s k = .ok (found, t) → found = (look s k).isSome ∧ Valid t ∧ look t = look s
  of_put : ∀ {s t : σ} {k : UInt32} {v : V}, Valid s →
    Segment.put s k v = .ok t → Valid t ∧ look t = Function.update (look s) k (some v)
  of_delete : ∀ {s t : σ} {k : UInt32}, Valid s →
    Segment.delete s k = .ok t → Valid t ∧ look t = Function.update (look s) k none

/-- Segments that never fail are segments that may. -/
def SegmentView.fallible [Segment σ V] (M : SegmentView σ V) : FallibleView σ V where
  Valid := M.Valid
  look := M.look
  of_get {s t k found} hs h := by
    obtain ⟨u, hget, hu, hlook⟩ := M.get_eq hs k
    obtain ⟨rfl, rfl⟩ := Prod.mk.inj (Except.ok.inj (hget.symm.trans h))
    exact ⟨rfl, hu, hlook⟩
  of_has {s t k found} hs h := by
    obtain ⟨u, hhas, hu, hlook⟩ := M.has_eq hs k
    obtain ⟨rfl, rfl⟩ := Prod.mk.inj (Except.ok.inj (hhas.symm.trans h))
    exact ⟨rfl, hu, hlook⟩
  of_put {s t k v} hs h := by
    obtain ⟨u, hput, hu, hlook⟩ := M.put_eq hs k v
    obtain rfl := Except.ok.inj (hput.symm.trans h)
    exact ⟨hu, hlook⟩
  of_delete {s t k} hs h := by
    obtain ⟨u, hdelete, hu, hlook⟩ := M.delete_eq hs k
    obtain rfl := Except.ok.inj (hdelete.symm.trans h)
    exact ⟨hu, hlook⟩

namespace AnySegment

variable {V : Type} [RecordValue V]

/-- A segment that works, or one that is known to fail. -/
def Usable (s : AnySegment V) : Prop := s.Sound ∨ ∃ f, s = faulty f

/-- Segments of all kinds, broken ones among them, as segments that may fail. -/
def fallible (V : Type) [RecordValue V] [LawfulRecordValue V] : FallibleView (AnySegment V) V where
  Valid := Usable
  look := look
  of_get {s t k found} hs h := by
    rcases hs with hs | ⟨f, rfl⟩
    · obtain ⟨hfound, ht, hlook⟩ := (counted V).toSegmentView.fallible.of_get hs h
      exact ⟨hfound, .inl ht, hlook⟩
    · change Except.map _ (if f.getFails then Except.error _ else _) = _ at h
      split at h
      · cases h
      · obtain ⟨rfl, rfl⟩ := Prod.mk.inj (Except.ok.inj h)
        exact ⟨rfl, .inr ⟨f, rfl⟩, rfl⟩
  of_has {s t k found} hs h := by
    rcases hs with hs | ⟨f, rfl⟩
    · obtain ⟨hfound, ht, hlook⟩ := (counted V).toSegmentView.fallible.of_has hs h
      exact ⟨hfound, .inl ht, hlook⟩
    · change Except.map _ (if f.hasFails then Except.error _ else _) = _ at h
      split at h
      · cases h
      · obtain ⟨rfl, rfl⟩ := Prod.mk.inj (Except.ok.inj h)
        exact ⟨Std.TreeMap.contains_eq_isSome_getElem?, .inr ⟨f, rfl⟩, rfl⟩
  of_put {s t k v} hs h := by
    rcases hs with hs | ⟨f, rfl⟩
    · obtain ⟨ht, hlook⟩ := (counted V).toSegmentView.fallible.of_put hs h
      exact ⟨.inl ht, hlook⟩
    · change Except.map _ (if f.putFails then Except.error _ else _) = _ at h
      split at h
      · cases h
      · obtain rfl := Except.ok.inj h
        obtain ⟨-, hlook⟩ :=
          (TableSegment.view V).fallible.of_put (s := f.table) (k := k) (v := v) trivial rfl
        exact ⟨.inr ⟨_, rfl⟩, hlook⟩
  of_delete {s t k} hs h := by
    rcases hs with hs | ⟨f, rfl⟩
    · obtain ⟨ht, hlook⟩ := (counted V).toSegmentView.fallible.of_delete hs h
      exact ⟨.inl ht, hlook⟩
    · change Except.map _ (if f.deleteFails then Except.error _ else _) = _ at h
      split at h
      · cases h
      · obtain rfl := Except.ok.inj h
        obtain ⟨-, hlook⟩ :=
          (TableSegment.view V).fallible.of_delete (s := f.table) (k := k) trivial rfl
        exact ⟨.inr ⟨_, rfl⟩, hlook⟩

end AnySegment

namespace FallibleView

variable [Segment σ V] (F : FallibleView σ V)

/-- A segment in order that gives the same value for every key as another one. -/
structure Same (s t : σ) : Prop where
  valid : F.Valid t
  look : F.look t = F.look s

/-- What a call does to the segment with which it ends. A value is stored where the key had none, and
deleted where the key had it. -/
def Changes (call : IndexCall V) (s t : σ) : Prop :=
  match call with
  | .find _ => F.Same s t
  | .has _ => F.Same s t
  | .add k v => F.look s k = none ∧ F.Valid t ∧ F.look t = Function.update (F.look s) k (some v)
  | .delete k v => F.look s k = some v ∧ F.Valid t ∧ F.look t = Function.update (F.look s) k none

/-- All segments are the same but one, which the call changed. -/
def OneChanged (call : IndexCall V) (old new : List σ) : Prop :=
  ∃ before s after before' t, old = before ++ s :: after ∧ new = before' ++ t :: after ∧
    List.Forall₂ F.Same before before' ∧ F.Changes call s t

variable {F} [DecidableEq V] {room : Nat} {call : IndexCall V} {s t : σ} {segments rest : List σ}

/-- A segment that a call passes by is the same. -/
theorem same_of_passes (hs : F.Valid s) (h : call.meet room s = .passes t) : F.Same s t := by
  cases call with
  | find k =>
    rw [IndexCall.meet] at h
    rcases hget : Segment.get s k with e | ⟨found, u⟩ <;> rw [hget] at h
    · cases h
    · obtain rfl := Encounter.passes.inj h
      obtain ⟨-, hu, hlook⟩ := F.of_get hs hget
      exact ⟨hu, hlook⟩
  | has k =>
    rw [IndexCall.meet] at h
    rcases hhas : Segment.has s k with e | ⟨_ | _, u⟩ <;> rw [hhas] at h
    · cases h
    · obtain rfl := Encounter.passes.inj h
      obtain ⟨-, hu, hlook⟩ := F.of_has hs hhas
      exact ⟨hu, hlook⟩
    · cases h
  | add k v =>
    rw [IndexCall.meet] at h
    split at h
    · obtain rfl := Encounter.passes.inj h
      exact ⟨hs, rfl⟩
    · rcases hhas : Segment.has s k with e | ⟨_ | _, u⟩ <;> rw [hhas] at h
      · cases h
      · dsimp only at h
        rcases hput : Segment.put u k v with e | u' <;> rw [hput] at h <;> cases h
      · obtain rfl := Encounter.passes.inj h
        obtain ⟨-, hu, hlook⟩ := F.of_has hs hhas
        exact ⟨hu, hlook⟩
  | delete k v =>
    rw [IndexCall.meet] at h
    rcases hget : Segment.get s k with e | ⟨found, u⟩ <;> rw [hget] at h
    · cases h
    · dsimp only at h
      split at h
      · rcases hdelete : Segment.delete u k with e | u' <;> rw [hdelete] at h <;> cases h
      · obtain rfl := Encounter.passes.inj h
        obtain ⟨-, hu, hlook⟩ := F.of_get hs hget
        exact ⟨hu, hlook⟩

/-- The segment with which a call ends is changed by it. -/
theorem changes_of_ends (hs : F.Valid s) (h : call.meet room s = .ends t) : F.Changes call s t := by
  cases call with
  | find k =>
    rw [IndexCall.meet] at h
    rcases hget : Segment.get s k with e | ⟨found, u⟩ <;> rw [hget] at h <;> cases h
  | has k =>
    rw [IndexCall.meet] at h
    rcases hhas : Segment.has s k with e | ⟨_ | _, u⟩ <;> rw [hhas] at h
    · cases h
    · cases h
    · obtain rfl := Encounter.ends.inj h
      obtain ⟨-, hu, hlook⟩ := F.of_has hs hhas
      exact ⟨hu, hlook⟩
  | add k v =>
    rw [IndexCall.meet] at h
    split at h
    · cases h
    · rcases hhas : Segment.has s k with e | ⟨_ | _, u⟩ <;> rw [hhas] at h
      · cases h
      · dsimp only at h
        rcases hput : Segment.put u k v with e | u' <;> rw [hput] at h
        · cases h
        · obtain rfl := Encounter.ends.inj h
          obtain ⟨hnone, hu, hlook⟩ := F.of_has hs hhas
          obtain ⟨hu', hlook'⟩ := F.of_put hu hput
          refine ⟨?_, hu', hlook ▸ hlook'⟩
          exact Option.isNone_iff_eq_none.mp (Option.isSome_eq_false_iff.mp hnone.symm)
      · cases h
  | delete k v =>
    rw [IndexCall.meet] at h
    rcases hget : Segment.get s k with e | ⟨found, u⟩ <;> rw [hget] at h
    · cases h
    · dsimp only at h
      split at h
      · rename_i hfound
        rcases hdelete : Segment.delete u k with e | u' <;> rw [hdelete] at h
        · cases h
        · obtain rfl := Encounter.ends.inj h
          obtain ⟨heq, hu, hlook⟩ := F.of_get hs hget
          obtain ⟨hu', hlook'⟩ := F.of_delete hu hdelete
          exact ⟨heq ▸ hfound, hu', hlook ▸ hlook'⟩
      · cases h

/-- If no segment fails, all are the same, but for the one with which the call ended. -/
theorem leftBy_of_healthy (hvalid : ∀ s ∈ segments, F.Valid s)
    (h : failing (call.meet room) segments = []) :
    (segments.any (fun s => (call.meet room s).ended) = true ∧
        F.OneChanged call segments (leftBy (call.meet room) segments)) ∨
      (segments.any (fun s => (call.meet room s).ended) = false ∧
        List.Forall₂ F.Same segments (leftBy (call.meet room) segments)) := by
  induction segments with
  | nil => exact .inr ⟨rfl, .nil⟩
  | cons s rest ih =>
    rw [List.forall_mem_cons] at hvalid
    rw [List.any_cons]
    cases hmeet : call.meet room s with
    | fails =>
      obtain ⟨hfailing, -, -⟩ := cons_of_fails hmeet rest
      cases hfailing.symm.trans h
    | passes t =>
      obtain ⟨hfailing, -, hleft⟩ := cons_of_passes hmeet rest
      have hs := same_of_passes hvalid.1 hmeet
      rw [hleft]
      rcases ih hvalid.2 (hfailing.symm.trans h) with ⟨hended, hchanged⟩ | ⟨hended, hsame⟩
      · obtain ⟨before, s', after, before', t', hold, hnew, hbefore, hchange⟩ := hchanged
        exact .inl ⟨hended, s :: before, s', after, t :: before', t', congrArg (s :: ·) hold,
          congrArg (t :: ·) hnew, .cons hs hbefore, hchange⟩
      · exact .inr ⟨hended, .cons hs hsame⟩
    | ends t =>
      obtain ⟨-, -, hleft⟩ := cons_of_ends hmeet rest
      rw [hleft]
      exact .inl ⟨rfl, [], s, rest, [], t, rfl, rfl, .nil, changes_of_ends hvalid.1 hmeet⟩

end FallibleView

/-! ## Outcomes -/

namespace Chain

variable [Segment σ V]

/-- The new segment for a value, if one can be opened and takes it. -/
def newcomer? (c : Chain σ) (k : UInt32) (v : V) : Option σ :=
  match c.fresh with
  | .error _ => none
  | .ok s => (Segment.put s k v).toOption

/-- Opening a segment puts it behind the others, and takes the oldest away if there are as many as there
may be. -/
theorem extend_eq_newcomer (c : Chain σ) (k : UInt32) (v : V) :
    (c.extend k v).segments = c.makeRoom.segments ++ (c.newcomer? k v).toList ∧
      (c.extend k v).evictions = c.makeRoom.evictions := by
  unfold extend newcomer?
  dsimp only
  rw [c.makeRoom_fresh]
  rcases c.fresh with e | s
  · exact ⟨(List.append_nil _).symm, rfl⟩
  · dsimp only
    rcases Segment.put s k v with e | t
    · exact ⟨(List.append_nil _).symm, rfl⟩
    · exact ⟨rfl, rfl⟩

variable [DecidableEq V]

/-- **What a call does to a chain under which no segment fails.**

* Looking up and asking leave all segments as they are.
* A value is stored in one segment that had none for the key. Or all segments stay as they are, and a
  new one with the value comes behind them if it can; if there are as many segments as there may be, the
  oldest one is given up for it.
* A value that is deleted is taken out of one segment; one that is not there changes nothing. -/
def Outcome (F : FallibleView σ V) (c : Chain σ) (call : IndexCall V)
    (r : IndexAnswer V × Chain σ) : Prop :=
  match call with
  | .find _ => r.2.evictions = c.evictions ∧ List.Forall₂ F.Same c.segments r.2.segments
  | .has _ => r.2.evictions = c.evictions ∧ List.Forall₂ F.Same c.segments r.2.segments
  | .add k v =>
    (r.2.evictions = c.evictions ∧ F.OneChanged (.add k v) c.segments r.2.segments) ∨
      ∃ same, List.Forall₂ F.Same c.segments same ∧
        ((same.length < c.most ∧ r.2.evictions = c.evictions ∧
            r.2.segments = same ++ (c.newcomer? k v).toList) ∨
          ∃ oldest rest, same = oldest :: rest ∧ c.most ≤ same.length ∧
            r.2.evictions = c.evictions + 1 ∧ r.2.segments = rest ++ (c.newcomer? k v).toList)
  | .delete k v =>
    r.2.evictions = c.evictions ∧
      ((r.1 = .deleted true ∧ F.OneChanged (.delete k v) c.segments r.2.segments) ∨
        (r.1 = .deleted false ∧ List.Forall₂ F.Same c.segments r.2.segments))

variable {F : FallibleView σ V} {c : Chain σ} {k : UInt32} {v : V}

omit [DecidableEq V] in
/-- Opening a segment for a value that no segment took. -/
theorem extend_outcome (hmost : 0 < c.most) {same : List σ}
    (hsame : List.Forall₂ F.Same c.segments same) :
    c.Outcome F (.add k v) (.added, ({ c with segments := same } : Chain σ).extend k v) := by
  obtain ⟨hsegments, hevictions⟩ := ({ c with segments := same } : Chain σ).extend_eq_newcomer k v
  refine .inr ⟨same, hsame, ?_⟩
  unfold makeRoom at hsegments hevictions
  dsimp only at hsegments hevictions ⊢
  rw [hsegments, hevictions]
  by_cases hfull : c.most ≤ same.length
  · rw [if_pos hfull]
    cases same with
    | nil => exact absurd hfull (Nat.not_le.mpr hmost)
    | cons oldest rest => exact .inr ⟨oldest, rest, rfl, hfull, rfl, rfl⟩
  · rw [if_neg hfull]
    exact .inl ⟨Nat.lt_of_not_le hfull, rfl, rfl⟩

/-- **A call does what it says** to segments that do not fail. -/
theorem perform_outcome (hmost : 0 < c.most) {call : IndexCall V} (hvalid : ∀ s ∈ c.segments, F.Valid s)
    (h : failing (call.meet c.room) c.segments = []) : c.Outcome F call (c.perform call) := by
  have hleft :
      (c.endsCall call = true ∧ F.OneChanged call c.segments (leftBy (call.meet c.room) c.segments)) ∨
      (c.endsCall call = false ∧
        List.Forall₂ F.Same c.segments (leftBy (call.meet c.room) c.segments)) :=
    FallibleView.leftBy_of_healthy hvalid h
  have hafter : c.afterMeeting call =
      { c with segments := leftBy (call.meet c.room) c.segments } := by
    unfold afterMeeting
    rw [h]
    rfl
  cases call with
  | find k =>
    have hnever : ∀ s : σ, ((IndexCall.find (V := V) k).meet c.room s).ended = false := fun s => by
      rw [IndexCall.meet]
      rcases Segment.get s k with e | found <;> rfl
    rw [perform_find, hafter]
    rcases hleft with ⟨hended, -⟩ | ⟨-, hsame⟩
    · obtain ⟨s, -, hs⟩ := List.any_eq_true.mp hended
      rw [hnever] at hs
      cases hs
    · exact ⟨rfl, hsame⟩
  | has k =>
    rw [perform_has, hafter]
    refine ⟨rfl, ?_⟩
    rcases hleft with ⟨-, before, s, rest, before', t, hold, hnew, hbefore, hchange⟩ | ⟨-, hsame⟩
    · have hrest : ∀ u ∈ rest, F.Same u u := fun u hu =>
        ⟨hvalid u (hold ▸ List.mem_append_right _ (List.mem_cons_of_mem _ hu)), rfl⟩
      dsimp only
      rw [hnew, hold]
      exact List.rel_append hbefore (.cons hchange (List.forall₂_same.mpr hrest))
    · exact hsame
  | add k v =>
    rw [perform_add, hafter]
    rcases hleft with ⟨hended, hchanged⟩ | ⟨hended, hsame⟩
    · rw [if_pos hended]
      exact .inl ⟨rfl, hchanged⟩
    · rw [if_neg (Bool.eq_false_iff.mp hended)]
      exact extend_outcome hmost hsame
  | delete k v =>
    rw [perform_delete, hafter]
    refine ⟨rfl, ?_⟩
    rcases hleft with ⟨hended, hchanged⟩ | ⟨hended, hsame⟩
    · exact .inl ⟨congrArg _ hended, hchanged⟩
    · exact .inr ⟨congrArg _ hended, hsame⟩

end Chain

/-! ## Main result -/

/-- **A segment that fails is given up, and costs nothing else.** Whatever the segments of a chain do, a
call has the answer that it has without those that fail under it, it leaves the same segments, and the
count of segments given up has one more for each of them. What it does to the others is what it does to
segments that work, if those that do not fail act as finite maps. -/
theorem failing_segments_are_given_up [Segment σ V] [DecidableEq V] (c : Chain σ)
    (hmost : 0 < c.most) (call : IndexCall V) :
    let failed := failing (call.meet c.room) c.segments
    let others := c.withoutFailing call
    (c.perform call).1 = (others.perform call).1 ∧
      (c.perform call).2.segments = (others.perform call).2.segments ∧
      (c.perform call).2.evictions = (others.perform call).2.evictions + failed.length ∧
      failing (call.meet c.room) others.segments = [] ∧
      ∀ F : FallibleView σ V, (∀ s ∈ c.segments, F.Valid s) →
        others.Outcome F call (others.perform call) := by
  intro failed others
  have hothers : failing (call.meet c.room) others.segments = [] := (healthy_idem _ c.segments).1
  have heq : c.perform call =
      ((others.perform call).1, (others.perform call).2.gaveUp failed.length) :=
    c.perform_withoutFailing call
  refine ⟨by rw [heq], by rw [heq]; rfl, by rw [heq]; rfl, hothers, ?_⟩
  intro F hvalid
  have hsubset : ∀ s ∈ others.segments, F.Valid s := fun s hs =>
    hvalid s (mem_of_mem_healthy (show s ∈ healthy (call.meet c.room) c.segments from hs))
  exact Chain.perform_outcome (c := others) hmost hsubset hothers

/-- Two broken neighbours are given up for a value, and then the oldest of the two full segments behind
them, in place of which a new one is opened. -/
theorem broken_neighbours_are_given_up :
    let full : AnySegment BlockNum := .table (.ofList [(1, ⟨1⟩), (2, ⟨2⟩)])
    let unreadable : AnySegment BlockNum := .faulty ⟨.empty, false, true, false, false⟩
    let unwritable : AnySegment BlockNum := .faulty ⟨.empty, false, false, true, false⟩
    let c : Chain (AnySegment BlockNum) :=
      ⟨[unreadable, unwritable, full, full], .ok (.table .empty), 2, 2, 0⟩
    let call : IndexCall BlockNum := .add 5 ⟨9⟩
    let others := c.withoutFailing call
    0 < c.most ∧ (failing (call.meet c.room) c.segments).length = 2 ∧
      (c.perform call).2.segments = (others.perform call).2.segments ∧
      (c.perform call).2.evictions = 3 ∧
      others.Outcome (AnySegment.fallible BlockNum) call (others.perform call) := by
  intro full unreadable unwritable c call others
  obtain ⟨-, hsegments, -, -, houtcome⟩ := failing_segments_are_given_up c (by decide) call
  refine ⟨by decide, by decide +kernel, hsegments, by decide +kernel, houtcome _ ?_⟩
  intro s hs
  have hs : s = unreadable ∨ s = unwritable ∨ s = full ∨ s = full := by
    simpa only [c, List.mem_cons, List.not_mem_nil, or_false] using hs
  rcases hs with rfl | rfl | rfl | rfl
  · exact .inr ⟨_, rfl⟩
  · exact .inr ⟨_, rfl⟩
  · exact .inl trivial
  · exact .inl trivial

end DedupImage
