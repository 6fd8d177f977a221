import DedupImage.Index.FileSegment
import DedupImage.Proofs.Bytes
import DedupImage.Proofs.Index.Multimap
import Mathlib.Data.Finmap

/-!
# Segments as finite maps

The plainest meaning of a segment is a finite map from keys to values (`FiniteMap`). A kind of segment
means finite maps if its segments never fail, answer as the map does, and count their keys
(`CountedView`). Then every list of calls has the same answers from a segment and from the map that it
stands for, and both have the same number of entries after each call (`CountedView.Models.runCalls`).

Segments in memory mean finite maps (`TableSegment.counted`), and so do segments in files
(`FileSegment.counted`). For the latter a value has to be read from its own bytes and from no others,
which is `LawfulRecordValue`.
-/

namespace DedupImage

/-! ## Lists of calls -/

/-- The answers to calls that are made one after another, and the state after them. -/
def runCalls {ρ κ α : Type} (call : ρ → κ → α × ρ) (r : ρ) : List κ → List α × ρ
  | [] => ([], r)
  | c :: rest => ((call r c).1 :: (runCalls call (call r c).2 rest).1, (runCalls call (call r c).2 rest).2)

/-- States that are alike, and stay so under each call with the same answer, have the same answers to
all calls. -/
theorem runCalls_alike {ρ ρ' κ α : Type} {call : ρ → κ → α × ρ} {call' : ρ' → κ → α × ρ'}
    {Alike : ρ → ρ' → Prop}
    (hcall : ∀ r r' c, Alike r r' → (call r c).1 = (call' r' c).1 ∧ Alike (call r c).2 (call' r' c).2)
    {r : ρ} {r' : ρ'} (h : Alike r r') (calls : List κ) :
    (runCalls call r calls).1 = (runCalls call' r' calls).1 ∧
      Alike (runCalls call r calls).2 (runCalls call' r' calls).2 := by
  induction calls generalizing r r' with
  | nil => exact ⟨rfl, h⟩
  | cons c rest ih =>
    obtain ⟨hanswer, hnext⟩ := hcall r r' c h
    obtain ⟨hanswers, hlast⟩ := ih hnext
    exact ⟨congrArg₂ List.cons hanswer hanswers, hlast⟩

/-! ## Finite maps -/

/-- A finite map from keys. -/
abbrev FiniteMap (V : Type) : Type := Finmap fun _ : UInt32 => V

instance {V : Type} : Segment (FiniteMap V) V where
  get m k := .ok (m.lookup k, m)
  has m k := .ok ((m.lookup k).isSome, m)
  put m k v := .ok (m.insert k v)
  delete m k := .ok (m.erase k)
  entries m := m.keys.card

namespace FiniteMap

variable {V : Type} {m : FiniteMap V} {k k' : UInt32} {v : V}

theorem lookup_insert (m : FiniteMap V) (k k' : UInt32) (v : V) :
    (m.insert k v).lookup k' = if k' = k then some v else m.lookup k' := by
  split
  · rename_i heq
    rw [heq]
    exact Finmap.lookup_insert m
  · exact Finmap.lookup_insert_of_ne m ‹_›

theorem lookup_erase (m : FiniteMap V) (k k' : UInt32) :
    (m.erase k).lookup k' = if k' = k then none else m.lookup k' := by
  split
  · rename_i heq
    rw [heq]
    exact Finmap.lookup_erase k m
  · exact Finmap.lookup_erase_ne ‹_›

theorem mem_keys_iff : k ∈ m.keys ↔ (m.lookup k).isSome = true :=
  Finmap.mem_keys.trans Finmap.lookup_isSome.symm

/-- A key that is new is one more. -/
theorem card_insert (m : FiniteMap V) (k : UInt32) (v : V) :
    (m.insert k v).keys.card = m.keys.card + if (m.lookup k).isSome then 0 else 1 := by
  have hkeys : (m.insert k v).keys = insert k m.keys := by
    ext k'
    rw [Finset.mem_insert, Finmap.mem_keys, Finmap.mem_keys, Finmap.mem_insert]
  rw [hkeys]
  split
  · exact congrArg Finset.card (Finset.insert_eq_of_mem (mem_keys_iff.mpr ‹_›))
  · exact Finset.card_insert_of_notMem fun hmem => absurd (mem_keys_iff.mp hmem) ‹_›

/-- A key that is taken out is one less. -/
theorem card_erase (m : FiniteMap V) (k : UInt32) :
    (m.erase k).keys.card = m.keys.card - if (m.lookup k).isSome then 1 else 0 := by
  rw [Finmap.keys_erase]
  split
  · exact Finset.card_erase_of_mem (mem_keys_iff.mpr ‹_›)
  · exact congrArg Finset.card
      (Finset.erase_eq_of_notMem fun hmem => absurd (mem_keys_iff.mp hmem) ‹_›)

/-- A finite map answers like itself. -/
def view (V : Type) : SegmentView (FiniteMap V) V where
  Valid _ := True
  look m k := m.lookup k
  get_eq {m} _ _ := ⟨m, rfl, trivial, rfl⟩
  has_eq {m} _ _ := ⟨m, rfl, trivial, rfl⟩
  put_eq {m} _ k v := by
    refine ⟨m.insert k v, rfl, trivial, funext fun k' => ?_⟩
    rw [lookup_insert, Function.update_apply]
  delete_eq {m} _ k := by
    refine ⟨m.erase k, rfl, trivial, funext fun k' => ?_⟩
    rw [lookup_erase, Function.update_apply]

end FiniteMap

/-! ## Segments that mean finite maps -/

/-- Segments that never fail once they are valid, answer like a finite map, and count its keys. -/
structure CountedView (σ : Type) (V : Type) [Segment σ V] extends SegmentView σ V where
  entries_eq : ∀ {s : σ}, Valid s → ∀ m : FiniteMap V, (∀ k, m.lookup k = look s k) →
    Segment.entries s = m.keys.card

/-- A call of a segment. -/
inductive SegmentCall (V : Type) where
  | get (key : UInt32)
  | has (key : UInt32)
  | put (key : UInt32) (v : V)
  | delete (key : UInt32)

/-- What a segment says to a call. -/
inductive SegmentAnswer (V : Type) where
  | value (found : Option V)
  | present (found : Bool)
  | done

variable {σ V : Type} [Segment σ V]

/-- The answer of a segment to a call, and the segment afterwards. -/
def SegmentCall.perform (s : σ) : SegmentCall V → Except StorageFailure (SegmentAnswer V × σ)
  | .get k => (Segment.get s k).map fun r => (.value r.1, r.2)
  | .has k => (Segment.has s k).map fun r => (.present r.1, r.2)
  | .put k v => (Segment.put s k v).map fun s => (.done, s)
  | .delete k => (Segment.delete s k).map fun s => (.done, s)

/-- The answer of a segment to a call and its number of entries afterwards, and the segment. A call
that fails leaves the segment as it is. -/
def SegmentCall.apply (s : σ) (c : SegmentCall V) :
    (Except StorageFailure (SegmentAnswer V) × Nat) × σ :=
  match c.perform s with
  | .error e => ((.error e, Segment.entries s), s)
  | .ok (answer, s) => ((.ok answer, Segment.entries s), s)

namespace CountedView

variable (M : CountedView σ V)

/-- The segment is valid and means the map. -/
structure Models (s : σ) (m : FiniteMap V) : Prop where
  valid : M.Valid s
  lookup : ∀ k, m.lookup k = M.look s k

variable {M} {s : σ} {m : FiniteMap V}

namespace Models

theorem entries (h : M.Models s m) : Segment.entries s = m.keys.card :=
  M.entries_eq h.valid m h.lookup

/-- A valid segment that answers alike means the same map. -/
theorem congr (h : M.Models s m) {t : σ} (ht : M.Valid t) (hlook : M.look t = M.look s) :
    M.Models t m :=
  ⟨ht, fun k => by rw [hlook]; exact h.lookup k⟩

theorem get (h : M.Models s m) (k : UInt32) :
    ∃ t, Segment.get s k = .ok (m.lookup k, t) ∧ M.Models t m := by
  obtain ⟨t, hget, ht, hlook⟩ := M.get_eq h.valid k
  exact ⟨t, by rw [h.lookup]; exact hget, h.congr ht hlook⟩

theorem has (h : M.Models s m) (k : UInt32) :
    ∃ t, Segment.has s k = .ok ((m.lookup k).isSome, t) ∧ M.Models t m := by
  obtain ⟨t, hhas, ht, hlook⟩ := M.has_eq h.valid k
  exact ⟨t, by rw [h.lookup]; exact hhas, h.congr ht hlook⟩

theorem put (h : M.Models s m) (k : UInt32) (v : V) :
    ∃ t, Segment.put s k v = .ok t ∧ M.Models t (m.insert k v) := by
  obtain ⟨t, hput, ht, hlook⟩ := M.put_eq h.valid k v
  refine ⟨t, hput, ht, fun k' => ?_⟩
  rw [FiniteMap.lookup_insert, hlook, Function.update_apply, h.lookup]

theorem delete (h : M.Models s m) (k : UInt32) :
    ∃ t, Segment.delete s k = .ok t ∧ M.Models t (m.erase k) := by
  obtain ⟨t, hdelete, ht, hlook⟩ := M.delete_eq h.valid k
  refine ⟨t, hdelete, ht, fun k' => ?_⟩
  rw [FiniteMap.lookup_erase, hlook, Function.update_apply, h.lookup]

/-- A segment answers a call as the map does, and goes on to mean it. -/
theorem perform (h : M.Models s m) (c : SegmentCall V) :
    ∃ answer t n, c.perform s = .ok (answer, t) ∧ c.perform m = .ok (answer, n) ∧ M.Models t n := by
  cases c with
  | get k =>
    obtain ⟨t, hget, ht⟩ := h.get k
    exact ⟨_, t, m, congrArg (Except.map _) hget, rfl, ht⟩
  | has k =>
    obtain ⟨t, hhas, ht⟩ := h.has k
    exact ⟨_, t, m, congrArg (Except.map _) hhas, rfl, ht⟩
  | put k v =>
    obtain ⟨t, hput, ht⟩ := h.put k v
    exact ⟨_, t, _, congrArg (Except.map _) hput, rfl, ht⟩
  | delete k =>
    obtain ⟨t, hdelete, ht⟩ := h.delete k
    exact ⟨_, t, _, congrArg (Except.map _) hdelete, rfl, ht⟩

/-- Afterwards it has as many entries as the map. -/
theorem call (h : M.Models s m) (c : SegmentCall V) :
    (c.apply s).1 = (c.apply m).1 ∧ M.Models (c.apply s).2 (c.apply m).2 := by
  obtain ⟨answer, t, n, hs, hm, ht⟩ := h.perform c
  unfold SegmentCall.apply
  rw [hs, hm]
  exact ⟨congrArg _ ht.entries, ht⟩

/-- **A segment answers all calls as its map does.** -/
theorem runCalls (h : M.Models s m) (calls : List (SegmentCall V)) :
    (DedupImage.runCalls SegmentCall.apply s calls).1 =
      (DedupImage.runCalls SegmentCall.apply m calls).1 :=
  (runCalls_alike (fun _ _ c h => h.call c) h calls).1

end Models

end CountedView

/-! ## Segments in memory -/

/-- A segment in memory means a finite map. -/
def TableSegment.counted (V : Type) : CountedView (TableSegment V) V where
  toSegmentView := TableSegment.view V
  entries_eq {s} _ m hm := by
    have hkeys : m.keys = s.map.keys.toFinset := by
      ext k
      rw [FiniteMap.mem_keys_iff, hm, List.mem_toFinset, Std.TreeMap.mem_keys,
        Std.TreeMap.mem_iff_isSome_getElem?]
      rfl
    have hnodup : s.map.keys.Nodup := Std.TreeMap.nodup_keys
    rw [hkeys, List.toFinset_card_of_nodup hnodup, Std.TreeMap.length_keys]
    rfl

theorem TableSegment.models_empty (V : Type) :
    (TableSegment.counted V).Models .empty ∅ :=
  ⟨trivial, fun _ => Std.TreeMap.getElem?_emptyc.symm⟩

/-! ## Records -/

/-- A value takes its bytes and is read from them wherever they stand. -/
class LawfulRecordValue (V : Type) [RecordValue V] : Prop where
  size_bytes : ∀ v : V, (RecordValue.bytes v).size = RecordValue.width V
  readAt_bytes : ∀ v : V, RecordValue.readAt (RecordValue.bytes v) 0 = v
  readAt_congr : ∀ {a b : ByteArray} {i j : Nat},
    (∀ n < RecordValue.width V, byteAt a (i + n) = byteAt b (j + n)) →
      (RecordValue.readAt a i : V) = RecordValue.readAt b j

instance : LawfulRecordValue BlockNum where
  size_bytes _ := size_numberBytes 4 _
  readAt_bytes b := by
    have hnumber := numberAt_pushNumber ByteArray.empty 4 b.number.toNat
    show BlockNum.mk (numberAt (pushNumber ByteArray.empty 4 b.number.toNat)
      ByteArray.empty.size 4).toUInt32 = b
    rw [hnumber, toUInt32_mod]
  readAt_congr h := congrArg (fun n : Nat => BlockNum.mk n.toUInt32) (numberAt_congr h)

instance : LawfulRecordValue Location where
  size_bytes l := by
    show (pushNumber (numberBytes 4 l.container.toNat) 4 l.offset.toNat).size = 8
    rw [size_pushNumber, size_numberBytes]
  readAt_bytes l := by
    have hcontainer := numberAt_pushNumber ByteArray.empty 4 l.container.toNat
    have hoffset := numberAt_pushNumber (numberBytes 4 l.container.toNat) 4 l.offset.toNat
    rw [size_numberBytes] at hoffset
    show Location.mk
      (numberAt (pushNumber (numberBytes 4 l.container.toNat) 4 l.offset.toNat) 0 4).toUInt32
      (numberAt (pushNumber (numberBytes 4 l.container.toNat) 4 l.offset.toNat) 4 4).toUInt32 = l
    rw [hoffset, toUInt32_mod, numberAt_pushNumber_of_le (by rw [size_numberBytes]), numberBytes,
      ← ByteArray.size_empty, hcontainer, toUInt32_mod]
  readAt_congr {a b i j} h := by
    have hcontainer : numberAt a i 4 = numberAt b j 4 :=
      numberAt_congr fun n hn => h n (Nat.lt_of_lt_of_le hn (by decide))
    have hoffset : numberAt a (i + 4) 4 = numberAt b (j + 4) 4 := by
      apply numberAt_congr
      intro n hn
      rw [Nat.add_assoc, Nat.add_assoc]
      exact h (4 + n) (Nat.add_lt_add_left hn 4)
    show Location.mk (numberAt a i 4).toUInt32 (numberAt a (i + 4) 4).toUInt32 =
      Location.mk (numberAt b j 4).toUInt32 (numberAt b (j + 4) 4).toUInt32
    rw [hcontainer, hoffset]

namespace Record

variable {V : Type} [RecordValue V]

/-- A record without a value starts with a zero. -/
theorem readAt_eq_none {b : ByteArray} {i : Nat} :
    (readAt b i : Option V) = none ↔ byteAt b i = 0 := by
  unfold readAt
  split <;> simp [*]

theorem readAt_zeros (n i : Nat) : (readAt (zeros n) i : Option V) = none :=
  readAt_eq_none.mpr (byteAt_zeros n i)

theorem readAt_absent : (readAt (absent V) 0 : Option V) = none := readAt_zeros _ 0

theorem size_absent : (absent V).size = size V := size_zeros _

variable [LawfulRecordValue V]

theorem size_present (v : V) : (present v).size = size V := by
  rw [present, ByteArray.size_append, LawfulRecordValue.size_bytes]
  rfl

/-- Records that agree hold the same value. -/
theorem readAt_congr {a b : ByteArray} {i j : Nat}
    (h : ∀ n < size V, byteAt a (i + n) = byteAt b (j + n)) :
    (readAt a i : Option V) = readAt b j := by
  have htag : byteAt a i = byteAt b j := h 0 (by unfold size; omega)
  have hvalue : (RecordValue.readAt a (i + 1) : V) = RecordValue.readAt b (j + 1) := by
    apply LawfulRecordValue.readAt_congr
    intro n hn
    have := h (n + 1) (by unfold size; omega)
    rwa [show i + (n + 1) = i + 1 + n by omega, show j + (n + 1) = j + 1 + n by omega] at this
  unfold readAt
  rw [htag, hvalue]

theorem readAt_present (v : V) : readAt (present v) 0 = some v := by
  have htag : byteAt (present v) 0 = 1 := by
    rw [present, byteAt_append_left (by decide)]
    rfl
  have hvalue : (RecordValue.readAt (present v) (0 + 1) : V) = RecordValue.readAt (RecordValue.bytes v) 0 := by
    apply LawfulRecordValue.readAt_congr
    intro n _
    have hfirst : (ByteArray.empty.push 1).size = 1 := rfl
    rw [present, byteAt_append, hfirst, if_neg (by omega), Nat.zero_add, Nat.zero_add]
    congr 1
    omega
  unfold readAt
  rw [htag, if_neg (by decide), hvalue, LawfulRecordValue.readAt_bytes]

end Record

/-! ## Segments in files -/

namespace FileSegment

variable {V : Type} [RecordValue V]

/-- Nothing is written behind the end of the file, and the present records are counted. -/
structure Sound (s : FileSegment V) : Prop where
  extent : ∀ (k : UInt32) (record : ByteArray), s.file.written[k]? = some record →
    k.toNat < s.file.extent
  counted : ∃ m : FiniteMap V, (∀ k, m.lookup k = s.lookup k) ∧ s.present = m.keys.card

/-- What a record file holds after a write. -/
theorem lookup_write {s : FileSegment V} (hs : s.Sound) (k k' : UInt32) (record : ByteArray)
    (present : Nat) : (FileSegment.mk (V := V) (s.file.write k record) present).lookup k' =
      if k' = k then Record.readAt record 0 else s.lookup k' := by
  have hwritten : (s.file.write k record).written[k']? =
      if k' = k then some record else s.file.written[k']? := by
    show (s.file.written.insert k record)[k']? = _
    rw [Std.TreeMap.getElem?_insert]
    exact if_congr (Std.compare_eq_iff_eq.trans eq_comm) rfl rfl
  have hextent : (s.file.write k record).extent = max s.file.extent (k.toNat + 1) := rfl
  unfold lookup RecordFile.read?
  rw [hwritten, hextent]
  by_cases heq : k' = k
  · rw [if_pos heq, if_pos heq, if_pos (by rw [heq]; omega)]
    rfl
  · rw [if_neg heq, if_neg heq]
    by_cases hinside : k'.toNat < s.file.extent
    · rw [if_pos hinside, if_pos (by omega)]
    · -- a key between the old end and the new one was never written
      rw [if_neg hinside]
      have hnone : s.file.written[k']? = none := by
        cases hsome : s.file.written[k']? with
        | none => rfl
        | some old => exact absurd (hs.extent k' old hsome) hinside
      rw [hnone]
      split
      · rename_i hread
        split at hread <;> simp_all
      · rename_i found hread
        split at hread
        · obtain rfl := Option.some.inj hread
          exact Record.readAt_zeros _ 0
        · cases hread

/-- Writing a record of which it is known what it holds keeps the file sound. -/
theorem Sound.write {s : FileSegment V} (hs : s.Sound) (k : UInt32) {record : ByteArray}
    {present : Nat} {m : FiniteMap V}
    (hm : ∀ k', m.lookup k' = if k' = k then Record.readAt record 0 else s.lookup k')
    (hpresent : present = m.keys.card) :
    (FileSegment.mk (V := V) (s.file.write k record) present).Sound where
  extent k' old hold := by
    show k'.toNat < max s.file.extent (k.toNat + 1)
    by_cases heq : k' = k
    · rw [heq]
      omega
    · have hold : (s.file.written.insert k record)[k']? = some old := hold
      rw [Std.TreeMap.getElem?_insert, if_neg (fun h => heq (Std.compare_eq_iff_eq.mp h).symm)] at hold
      have := hs.extent k' old hold
      omega
  counted := ⟨m, fun k' => by rw [hm, lookup_write hs], hpresent⟩

variable [LawfulRecordValue V]

/-- A segment in a file means a finite map. -/
def counted (V : Type) [RecordValue V] [LawfulRecordValue V] : CountedView (FileSegment V) V where
  Valid := Sound
  look := lookup
  get_eq {s} hs _ := ⟨s, rfl, hs, rfl⟩
  has_eq {s} hs _ := ⟨s, rfl, hs, rfl⟩
  put_eq {s} hs k v := by
    obtain ⟨m, hm, hcount⟩ := hs.counted
    refine ⟨_, rfl, hs.write (m := m.insert k v) k ?_ ?_, ?_⟩
    · intro k'
      rw [FiniteMap.lookup_insert, Record.readAt_present, hm]
    · rw [FiniteMap.card_insert, hm, hcount]
    · funext k'
      rw [Function.update_apply, ← Record.readAt_present v]
      exact lookup_write hs k k' _ _
  delete_eq {s} hs k := by
    obtain ⟨m, hm, hcount⟩ := hs.counted
    refine ⟨s.delete k, rfl, ?_⟩
    unfold FileSegment.delete
    by_cases hsome : (s.lookup k).isSome = true
    · rw [if_pos hsome]
      refine ⟨hs.write (m := m.erase k) k ?_ ?_, ?_⟩
      · intro k'
        rw [FiniteMap.lookup_erase, Record.readAt_absent, hm]
      · rw [FiniteMap.card_erase, hm, if_pos hsome, hcount]
      · funext k'
        rw [Function.update_apply, ← Record.readAt_absent]
        exact lookup_write hs k k' _ _
    · rw [if_neg hsome]
      refine ⟨hs, ?_⟩
      funext k'
      rw [Function.update_apply]
      split
      · rename_i heq
        rw [heq]
        exact Option.not_isSome_iff_eq_none.mp hsome
      · rfl
  entries_eq {s} hs m hm := by
    obtain ⟨m', hm', hcount⟩ := hs.counted
    have heq : m = m' := Finmap.ext_lookup fun k => (hm k).trans (hm' k).symm
    rw [heq]
    exact hcount

theorem models_empty : (counted V).Models {} ∅ := by
  have hlookup : ∀ k, ({} : FileSegment V).lookup k = none := fun _ => rfl
  refine ⟨⟨?_, ∅, ?_, ?_⟩, ?_⟩
  · intro k record hrecord
    rw [show ({} : FileSegment V).file.written[k]? = none from Std.TreeMap.getElem?_emptyc] at hrecord
    cases hrecord
  · intro k
    rw [hlookup]
    exact Finmap.lookup_empty k
  · rw [Finmap.keys_empty, Finset.card_empty]
  · intro k
    exact Finmap.lookup_empty k

end FileSegment

end DedupImage
