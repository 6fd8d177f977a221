import DedupImage.Proofs.Index.Interchange
import Mathlib.Algebra.BigOperators.Group.Finset.Piecewise
import Mathlib.Data.FinEnum
import Mathlib.Data.Multiset.AddSub

/-!
# The values in a chain of finite maps

In a chain of finite maps the values of a key are scattered over the maps, at most one in each
(`values`). Every walk has a plain meaning there: looking up leaves the maps as they are, storing and
deleting change one map at one key (`Walk.add_cases`, `Walk.delete_cases`).

What happens to a multi-map is kept in books (`Stock.Books`): the values that were put in, and those that
were taken out. Storing puts in the value it names (`Chain.add_books`), and deleting takes it out if it
is there (`Chain.delete_books`); nothing else changes, unless the chain gives up its oldest map, which is
counted. A value that was just stored is there all the same (`Chain.mem_values_add`).

The limits of a chain are kept at any time (`Chain.Tidy`), and its entries are the values of all keys
(`Chain.entries_eq_sum`).
-/

namespace DedupImage

variable {V : Type}

/-! ## Values -/

/-- The values of a key, oldest map first. -/
def values (k : UInt32) (maps : List (FiniteMap V)) : List V := maps.filterMap fun m => m.lookup k

/-- One value, at one key. -/
def valueAt (k : UInt32) (v : V) (k' : UInt32) : Multiset V := if k' = k then {v} else 0

variable {maps before after : List (FiniteMap V)} {m : FiniteMap V} {k : UInt32} {v : V}

@[simp] theorem valueAt_self (k : UInt32) (v : V) : valueAt k v k = {v} := if_pos rfl

theorem values_cons (k : UInt32) (m : FiniteMap V) (maps : List (FiniteMap V)) :
    values k (m :: maps) = (m.lookup k).toList ++ values k maps := by
  unfold values
  rw [List.filterMap_cons]
  cases m.lookup k <;> rfl

/-- Apart from their order, the values are those of one map and those of the others. -/
theorem values_middle (k : UInt32) (before : List (FiniteMap V)) (m : FiniteMap V)
    (after : List (FiniteMap V)) : (values k (before ++ m :: after) : Multiset V) =
      (m.lookup k).toList + values k (before ++ after) := by
  have hsplit : values k (before ++ m :: after) = values k before ++ values k (m :: after) :=
    List.filterMap_append
  have hothers : values k (before ++ after) = values k before ++ values k after :=
    List.filterMap_append
  rw [hsplit, hothers, values_cons, ← Multiset.coe_add, ← Multiset.coe_add, ← Multiset.coe_add,
    add_left_comm]

/-- A key that was new to a map has one value more. -/
theorem values_insert (h : m.lookup k = none) (k' : UInt32) :
    (values k' (before ++ m.insert k v :: after) : Multiset V) =
      valueAt k v k' + values k' (before ++ m :: after) := by
  rw [values_middle, values_middle k' before m, ← add_assoc, FiniteMap.lookup_insert]
  unfold valueAt
  split
  · rename_i heq
    rw [heq, h]
    rfl
  · rw [zero_add]

/-- A key that is taken out of a map has one value less. -/
theorem values_erase (h : m.lookup k = some v) (k' : UInt32) :
    (values k' (before ++ m.erase k :: after) : Multiset V) + valueAt k v k' =
      values k' (before ++ m :: after) := by
  rw [values_middle, values_middle k' before m, add_right_comm, FiniteMap.lookup_erase]
  unfold valueAt
  split
  · rename_i heq
    rw [heq, h]
    rfl
  · rw [add_zero]

/-- A new map has one value. -/
theorem values_concat (k : UInt32) (v : V) (k' : UInt32) (maps : List (FiniteMap V)) :
    (values k' (maps ++ [Finmap.insert k v ∅]) : Multiset V) = valueAt k v k' + values k' maps := by
  rw [values_insert (Finmap.lookup_empty k), values_middle, Finmap.lookup_empty, List.append_nil]
  exact congrArg _ (zero_add _)

/-- Maps that are given up take their values with them. -/
theorem values_sublist {kept : List (FiniteMap V)} (h : kept.Sublist maps) (k : UInt32) :
    (values k kept : Multiset V) ≤ values k maps :=
  (h.filterMap _).subperm

/-- A map has as many entries as values of all keys. -/
theorem FiniteMap.card_keys_eq_sum (m : FiniteMap V) :
    m.keys.card = ∑ k : UInt32, (m.lookup k).toList.length := by
  have hkeys : m.keys = Finset.univ.filter fun k => (m.lookup k).isSome = true := by
    ext k
    rw [FiniteMap.mem_keys_iff, Finset.mem_filter]
    exact ⟨fun h => ⟨Finset.mem_univ k, h⟩, And.right⟩
  rw [hkeys, Finset.card_filter]
  refine Finset.sum_congr rfl fun k _ => ?_
  cases m.lookup k <;> rfl

/-! ## Walks -/

namespace Walk

theorem find_eq (k : UInt32) (maps : List (FiniteMap V)) : find k maps = ⟨values k maps, maps, 0⟩ := by
  induction maps with
  | nil => rfl
  | cons m rest ih =>
    have hget : Segment.get m k = .ok (m.lookup k, m) := rfl
    unfold find
    rw [hget, ih, values_cons]
    cases m.lookup k <;> rfl

theorem has_eq (k : UInt32) (maps : List (FiniteMap V)) :
    has k maps = ⟨!(values k maps).isEmpty, maps, 0⟩ := by
  induction maps with
  | nil => rfl
  | cons m rest ih =>
    have hhas : Segment.has m k = .ok ((m.lookup k).isSome, m) := rfl
    unfold has
    rw [hhas, ih, values_cons]
    cases m.lookup k <;> rfl

/-- A value is stored in one map that has none for the key and still has room, or in no map. -/
theorem add_cases (room : Nat) (k : UInt32) (v : V) (maps : List (FiniteMap V)) :
    add room k v maps = ⟨false, maps, 0⟩ ∨
      ∃ before m after, maps = before ++ m :: after ∧ m.lookup k = none ∧ m.keys.card < room ∧
        add room k v maps = ⟨true, before ++ m.insert k v :: after, 0⟩ := by
  induction maps with
  | nil => exact .inl rfl
  | cons m rest ih =>
    have hhas : Segment.has m k = .ok ((m.lookup k).isSome, m) := rfl
    have hput : Segment.put m k v = .ok (m.insert k v) := rfl
    -- the map is passed by
    have hpass (h : add room k v (m :: rest) = (add room k v rest).keep m) :
        add room k v (m :: rest) = ⟨false, m :: rest, 0⟩ ∨
          ∃ before n after, m :: rest = before ++ n :: after ∧ n.lookup k = none ∧
            n.keys.card < room ∧
            add room k v (m :: rest) = ⟨true, before ++ n.insert k v :: after, 0⟩ := by
      rw [h]
      rcases ih with heq | ⟨before, n, after, rfl, hnone, hroom, heq⟩ <;> rw [heq]
      · exact .inl rfl
      · exact .inr ⟨m :: before, n, after, rfl, hnone, hroom, rfl⟩
    by_cases hfull : room ≤ Segment.entries m
    · refine hpass ?_
      rw [add, if_pos hfull]
    · cases hlook : m.lookup k with
      | some u =>
        refine hpass ?_
        rw [add, if_neg hfull, hhas, hlook]
        rfl
      | none =>
        refine .inr ⟨[], m, rest, rfl, hlook, Nat.lt_of_not_le hfull, ?_⟩
        rw [add, if_neg hfull, hhas, hlook]
        dsimp only [Option.isSome]
        rw [hput]
        rfl

/-- A value is taken out of one map that has it for the key, or no map has it. -/
theorem delete_cases [DecidableEq V] (k : UInt32) (v : V) (maps : List (FiniteMap V)) :
    (v ∉ values k maps ∧ delete k v maps = ⟨false, maps, 0⟩) ∨
      ∃ before m after, maps = before ++ m :: after ∧ m.lookup k = some v ∧
        delete k v maps = ⟨true, before ++ m.erase k :: after, 0⟩ := by
  induction maps with
  | nil => exact .inl ⟨List.not_mem_nil, rfl⟩
  | cons m rest ih =>
    have hget : Segment.get m k = .ok (m.lookup k, m) := rfl
    have hdelete : Segment.delete m k = .ok (m.erase k) := rfl
    unfold delete
    rw [hget]
    dsimp only
    by_cases hfound : m.lookup k = some v
    · rw [if_pos hfound, hdelete]
      exact .inr ⟨[], m, rest, rfl, hfound, rfl⟩
    · rw [if_neg hfound]
      rcases ih with ⟨hnot, heq⟩ | ⟨before, n, after, rfl, hlook, heq⟩ <;> rw [heq]
      · refine .inl ⟨?_, rfl⟩
        rw [values_cons, List.mem_append, Option.mem_toList]
        exact not_or.mpr ⟨hfound, hnot⟩
      · exact .inr ⟨m :: before, n, after, rfl, hlook, rfl⟩

end Walk

/-! ## What a multi-map has -/

/-- The values of each key in a multi-map that may forget, and how often it forgot. -/
structure Stock (V : Type) where
  values : UInt32 → Multiset V
  forgotten : Nat

/-- A multi-map without values that never forgot. -/
def Stock.nothing : Stock V := ⟨0, 0⟩

/-- Values were put in and values were taken out. Of what was there before, nothing else is missing,
unless the multi-map forgot. -/
structure Stock.Books (old new : Stock V) (given taken : UInt32 → Multiset V) : Prop where
  forgotten_le : old.forgotten ≤ new.forgotten
  le : ∀ k, new.values k + taken k ≤ old.values k + given k
  eq : new.forgotten = old.forgotten → ∀ k, new.values k + taken k = old.values k + given k

namespace Stock.Books

variable {a b c : Stock V} {given given' taken taken' : UInt32 → Multiset V}

theorem refl (a : Stock V) : a.Books a 0 0 := ⟨Nat.le_refl _, fun _ => le_rfl, fun _ _ => rfl⟩

/-- Without anything forgotten, the books are balanced. -/
theorem of_eq (hforgotten : b.forgotten = a.forgotten)
    (h : ∀ k, b.values k + taken k = a.values k + given k) : a.Books b given taken :=
  ⟨Nat.le_of_eq hforgotten.symm, fun k => (h k).le, fun _ => h⟩

/-- Who starts with nothing has at most what was put in. -/
theorem le_given (h : Stock.nothing.Books b given taken) (k : UInt32) :
    b.values k + taken k ≤ given k := by
  have hle : b.values k + taken k ≤ 0 + given k := h.le k
  rwa [zero_add] at hle

theorem eq_given (h : Stock.nothing.Books b given taken) (hb : b.forgotten = 0) (k : UInt32) :
    b.values k + taken k = given k := by
  have heq : b.values k + taken k = 0 + given k := h.eq hb k
  rwa [zero_add] at heq

theorem trans (h : a.Books b given taken) (h' : b.Books c given' taken') :
    a.Books c (given + given') (taken + taken') where
  forgotten_le := Nat.le_trans h.forgotten_le h'.forgotten_le
  le k := by
    calc c.values k + (taken k + taken' k)
        = (c.values k + taken' k) + taken k := by rw [add_comm (taken k), add_assoc]
      _ ≤ (b.values k + given' k) + taken k := add_le_add_left (h'.le k) _
      _ = (b.values k + taken k) + given' k := add_right_comm _ _ _
      _ ≤ (a.values k + given k) + given' k := add_le_add_left (h.le k) _
      _ = a.values k + (given k + given' k) := add_assoc _ _ _
  eq hforgotten k := by
    have hle := h.forgotten_le
    have hle' := h'.forgotten_le
    calc c.values k + (taken k + taken' k)
        = (c.values k + taken' k) + taken k := by rw [add_comm (taken k), add_assoc]
      _ = (b.values k + given' k) + taken k := by rw [h'.eq (by omega)]
      _ = (b.values k + taken k) + given' k := add_right_comm _ _ _
      _ = (a.values k + given k) + given' k := by rw [h.eq (by omega)]
      _ = a.values k + (given k + given' k) := add_assoc _ _ _

end Stock.Books

/-! ## Chains -/

namespace Chain

variable {c : Chain (FiniteMap V)}

/-- What a chain of finite maps has. -/
def stock (c : Chain (FiniteMap V)) : Stock V := ⟨fun k => values k c.segments, c.evictions⟩

/-- Looking up changes nothing. -/
theorem find_eq (c : Chain (FiniteMap V)) (k : UInt32) : c.find k = (values k c.segments, c) := by
  unfold find
  rw [Walk.find_eq]
  rfl

theorem has_eq (c : Chain (FiniteMap V)) (k : UInt32) :
    c.has k = (!(values k c.segments).isEmpty, c) := by
  unfold has
  rw [Walk.has_eq]
  rfl

/-- A new map for a value, behind what is left of the others. -/
theorem extend_eq (hfresh : c.fresh = .ok ∅) (k : UInt32) (v : V) :
    c.extend k v = c.makeRoom.pushNewest (Finmap.insert k v ∅) := by
  have hput : Segment.put (∅ : FiniteMap V) k v = .ok (Finmap.insert k v ∅) := rfl
  have hroom : c.makeRoom.fresh = .ok ∅ := c.makeRoom_fresh.trans hfresh
  unfold extend
  dsimp only
  split
  · rename_i e herror
    exact nomatch hroom.symm.trans herror
  · rename_i m hok
    obtain rfl := Except.ok.inj (hroom.symm.trans hok)
    rw [hput]
    rfl

/-- A value goes into a map that is there, or into a new one. For that the chain gives up its oldest map
if it has as many as it may have. -/
theorem add_cases (hfresh : c.fresh = .ok ∅) (k : UInt32) (v : V) :
    (∃ before m after, c.segments = before ++ m :: after ∧ m.lookup k = none ∧ m.keys.card < c.room ∧
      c.add k v = { c with segments := before ++ m.insert k v :: after }) ∨
    (c.segments.length < c.most ∧
      c.add k v = { c with segments := c.segments ++ [Finmap.insert k v ∅] }) ∨
    (c.most ≤ c.segments.length ∧
      c.add k v = { c with segments := c.segments.drop 1 ++ [Finmap.insert k v ∅]
                           evictions := c.evictions + 1 }) := by
  have hextend := extend_eq hfresh k v
  unfold add
  rcases Walk.add_cases c.room k v c.segments with heq | ⟨before, m, after, hsplit, hnone, hroom, heq⟩
  · rw [heq]
    show _ ∨ (_ ∧ c.extend k v = _) ∨ (_ ∧ c.extend k v = _)
    rw [hextend]
    unfold makeRoom
    by_cases hfull : c.most ≤ c.segments.length
    · rw [if_pos hfull]
      exact .inr (.inr ⟨hfull, rfl⟩)
    · rw [if_neg hfull]
      exact .inr (.inl ⟨Nat.lt_of_not_le hfull, rfl⟩)
  · rw [heq]
    exact .inl ⟨before, m, after, hsplit, hnone, hroom, rfl⟩

/-- A value is taken out of one map, or no map has it and nothing happens. -/
theorem delete_cases [DecidableEq V] (c : Chain (FiniteMap V)) (k : UInt32) (v : V) :
    (v ∉ values k c.segments ∧ c.delete k v = (false, c)) ∨
      ∃ before m after, c.segments = before ++ m :: after ∧ m.lookup k = some v ∧
        c.delete k v = (true, { c with segments := before ++ m.erase k :: after }) := by
  unfold delete
  rcases Walk.delete_cases k v c.segments with ⟨hnot, heq⟩ | ⟨before, m, after, hsplit, hlook, heq⟩ <;>
    rw [heq]
  · exact .inl ⟨hnot, rfl⟩
  · exact .inr ⟨before, m, after, hsplit, hlook, rfl⟩

/-- **Storing puts in the value**, and takes nothing out unless a map is given up. -/
theorem add_books (hfresh : c.fresh = .ok ∅) (k : UInt32) (v : V) :
    c.stock.Books (c.add k v).stock (valueAt k v) 0 := by
  rcases add_cases hfresh k v with ⟨before, m, after, hsplit, hnone, -, heq⟩ | ⟨-, heq⟩ | ⟨-, heq⟩ <;>
    rw [heq]
  · refine .of_eq rfl fun k' => ?_
    show (values k' (before ++ m.insert k v :: after) : Multiset V) + 0 =
      values k' c.segments + valueAt k v k'
    rw [add_zero, values_insert hnone, ← hsplit, add_comm]
  · refine .of_eq rfl fun k' => ?_
    show (values k' (c.segments ++ [Finmap.insert k v ∅]) : Multiset V) + 0 =
      values k' c.segments + valueAt k v k'
    rw [add_zero, values_concat, add_comm]
  · refine ⟨Nat.le_succ _, fun k' => ?_, fun h => absurd h (Nat.succ_ne_self _)⟩
    show (values k' (c.segments.drop 1 ++ [Finmap.insert k v ∅]) : Multiset V) + 0 ≤
      values k' c.segments + valueAt k v k'
    rw [add_zero, values_concat, add_comm]
    exact add_le_add_left (values_sublist (List.drop_sublist 1 _) k') _

/-- **A value that was stored is there**, whatever was given up for it. -/
theorem mem_values_add (hfresh : c.fresh = .ok ∅) (k : UInt32) (v : V) :
    v ∈ values k (c.add k v).segments := by
  rw [← Multiset.mem_coe]
  rcases add_cases hfresh k v with ⟨before, m, after, -, hnone, -, heq⟩ | ⟨-, heq⟩ | ⟨-, heq⟩ <;>
    rw [heq]
  · rw [values_insert hnone, valueAt_self]
    exact Multiset.mem_add.mpr (.inl (Multiset.mem_singleton_self v))
  all_goals
    rw [values_concat, valueAt_self]
    exact Multiset.mem_add.mpr (.inl (Multiset.mem_singleton_self v))

/-- **Deleting takes out the value if it is there**, and says so. -/
theorem delete_books [DecidableEq V] (c : Chain (FiniteMap V)) (k : UInt32) (v : V) :
    c.stock.Books (c.delete k v).2.stock 0 (if (c.delete k v).1 then valueAt k v else 0) ∧
      ((c.delete k v).1 = true ↔ v ∈ values k c.segments) := by
  rcases c.delete_cases k v with ⟨hnot, heq⟩ | ⟨before, m, after, hsplit, hlook, heq⟩ <;> rw [heq]
  · exact ⟨.refl _, iff_of_false Bool.false_ne_true hnot⟩
  · refine ⟨.of_eq rfl fun k' => ?_, iff_of_true rfl ?_⟩
    · show (values k' (before ++ m.erase k :: after) : Multiset V) + valueAt k v k' =
        values k' c.segments + 0
      rw [values_erase hlook, ← hsplit, add_zero]
    · rw [hsplit, ← Multiset.mem_coe, values_middle, hlook]
      exact Multiset.mem_add.mpr (.inl (Multiset.mem_singleton_self v))

/-- The limits of a chain are those of the shape, but at least one, and are kept. New maps are empty. -/
structure Tidy (shape : IndexShape) (c : Chain (FiniteMap V)) : Prop where
  fresh : c.fresh = .ok ∅
  most : c.most = max shape.maxSegments 1
  room : c.room = max shape.segmentEntries 1
  length_le : c.segments.length ≤ c.most
  card_le : ∀ m ∈ c.segments, m.keys.card ≤ c.room

theorem empty_tidy (shape : IndexShape) :
    (empty (.ok (∅ : FiniteMap V)) shape.maxSegments shape.segmentEntries).Tidy shape :=
  ⟨rfl, rfl, rfl, Nat.zero_le _, nofun⟩

namespace Tidy

variable {shape : IndexShape} (h : c.Tidy shape)
include h

theorem one_le_most : 1 ≤ c.most := h.most ▸ Nat.le_max_right _ _

/-- A chain of the same limits with other maps, no more than there may be and each within its room. -/
theorem replaced {maps : List (FiniteMap V)} (hlength : maps.length ≤ c.most)
    (hcard : ∀ m ∈ maps, m.keys.card ≤ c.room) (evictions : Nat) :
    Tidy shape { c with segments := maps, evictions := evictions } :=
  ⟨h.fresh, h.most, h.room, hlength, hcard⟩

/-- One map is changed, and stays within its room. -/
theorem changed (hsplit : c.segments = before ++ m :: after) {n : FiniteMap V}
    (hn : n.keys.card ≤ c.room) : Tidy shape { c with segments := before ++ n :: after } := by
  have hlength := h.length_le
  have hcard := h.card_le
  rw [hsplit] at hlength hcard
  rw [List.forall_mem_append, List.forall_mem_cons] at hcard
  refine h.replaced ?_ ?_ _
  · rwa [List.length_append, List.length_cons] at hlength ⊢
  · rw [List.forall_mem_append, List.forall_mem_cons]
    exact ⟨hcard.1, hn, hcard.2.2⟩

/-- A new map is put behind some of the old ones. -/
theorem extended {kept : List (FiniteMap V)} (hkept : kept.Sublist c.segments)
    (hlength : kept.length < c.most) (k : UInt32) (v : V) (evictions : Nat) :
    Tidy shape { c with segments := kept ++ [Finmap.insert k v ∅], evictions := evictions } := by
  refine h.replaced ?_ ?_ _
  · rw [List.length_append]
    exact hlength
  · rw [List.forall_mem_append, List.forall_mem_singleton, FiniteMap.card_insert, Finmap.lookup_empty]
    exact ⟨fun m hm => h.card_le m (hkept.subset hm), h.room ▸ Nat.le_max_right _ _⟩

/-- **Storing keeps the limits.** -/
theorem add (k : UInt32) (v : V) : (c.add k v).Tidy shape := by
  have hlength := h.length_le
  have hmost := h.one_le_most
  rcases add_cases h.fresh k v with
    ⟨before, m, after, hsplit, hnone, hroom, heq⟩ | ⟨hlt, heq⟩ | ⟨-, heq⟩ <;> rw [heq]
  · refine h.changed hsplit ?_
    rw [FiniteMap.card_insert, hnone]
    exact hroom
  · exact h.extended (.refl _) hlt k v _
  · refine h.extended (List.drop_sublist 1 _) ?_ k v _
    rw [List.length_drop]
    omega

/-- **Deleting keeps the limits.** -/
theorem delete [DecidableEq V] (k : UInt32) (v : V) : (c.delete k v).2.Tidy shape := by
  rcases c.delete_cases k v with ⟨-, heq⟩ | ⟨before, m, after, hsplit, -, heq⟩ <;> rw [heq]
  · exact h
  · refine h.changed hsplit ?_
    rw [FiniteMap.card_erase]
    have hm : m ∈ c.segments := by
      rw [hsplit]
      exact List.mem_append_right _ List.mem_cons_self
    exact (Nat.sub_le _ _).trans (h.card_le m hm)

end Tidy

/-! ## Entries -/

/-- **The entries of a chain are the values of all keys.** -/
theorem entries_eq_sum (c : Chain (FiniteMap V)) :
    c.entries = ∑ k : UInt32, (values k c.segments).length := by
  unfold entries
  rw [← List.sum_eq_foldl_nat]
  induction c.segments with
  | nil => exact (Finset.sum_const_zero).symm
  | cons m rest ih =>
    rw [List.map_cons, List.sum_cons, ih]
    show m.keys.card + _ = _
    rw [FiniteMap.card_keys_eq_sum, ← Finset.sum_add_distrib]
    refine Finset.sum_congr rfl fun k _ => ?_
    rw [values_cons, List.length_append]

end Chain

end DedupImage
