import DedupImage.Proofs.Codec.Objects
import DedupImage.Proofs.Index.Buckets

/-!
# The open bucket and the stored ones stay coherent

A bucket is stored, open, both or neither. If it is both, the stored form may be out of date, and only if
the open one was changed. `BucketSegment.Tidy` is what holds between two calls: every absent record is
zero throughout, what is stored gives back records of which one is present, and an open bucket that was
not changed is stored.

Everything turns on the moment when the open bucket is put away (`Tidy.putAway_stored`). It is dropped if
it is blank, and as absent records are zero that is to say that no record is present
(`WellFormed.exists_present`). So apart from the open one exactly those buckets are stored in which a key
has a value (`Tidy.isSome_stored_iff`).

With the map that the segment means this is `BucketSegment.Coherent`, and all calls keep it
(`buckets_stay_coherent`).
-/

namespace DedupImage

theorem isBlank_of_zeros {b : ByteArray} (h : ∀ i < b.size, byteAt b i = 0) : isBlank b = true := by
  have hbelow : ∀ n ≤ b.size, blankBelow b n = true := by
    intro n
    induction n with
    | zero => exact fun _ => rfl
    | succ n ih =>
      intro hn
      unfold blankBelow
      rw [Bool.and_eq_true, beq_iff_eq]
      exact ⟨h n (by omega), ih (by omega)⟩
  exact hbelow b.size (Nat.le_refl _)

theorem exists_of_map_eq_ok {ε α β : Type} {f : α → β} {x : Except ε α} {y : β}
    (h : x.map f = .ok y) : ∃ a, x = .ok a ∧ f a = y := by
  cases x with
  | error e => cases h
  | ok a => exact ⟨a, rfl, Except.ok.inj h⟩

/-- Sets that agree but for one number differ by one at most. -/
theorem card_le_of_agree {A B : Finset Nat} {a : Nat} (h : ∀ n, n ≠ a → (n ∈ A ↔ n ∈ B)) :
    A.card ≤ B.card + 1 := by
  have hsame : A.erase a = B.erase a := by
    ext n
    rw [Finset.mem_erase, Finset.mem_erase]
    exact and_congr_right (h n)
  have hfew := Finset.card_le_card (Finset.erase_subset a B)
  have hmost := Finset.pred_card_le_card_erase (s := A) (a := a)
  rw [hsame] at hmost
  omega

namespace BucketSegment

variable {V : Type} {codec : Codec} {s t : BucketSegment V} {content : Nat → ByteArray}
  {records : ByteArray} {b : Bucket} {n : Nat} {make : Bool} {k : UInt32}

/-! ## Which buckets there are -/

/-- The bucket is the open one. -/
def IsOpen (s : BucketSegment V) (n : Nat) : Prop := ∃ b, s.opened = some b ∧ b.number = n

theorem not_isOpen (h : s.opened = none) : ¬ s.IsOpen n := by
  rintro ⟨b, hb, -⟩
  rw [h] at hb
  cases hb

theorem isOpen_iff (h : s.opened = some b) : s.IsOpen n ↔ b.number = n := by
  constructor
  · rintro ⟨b', hb', rfl⟩
    obtain rfl := Option.some.inj (h.symm.trans hb')
    rfl
  · exact fun hn => ⟨b, h, hn⟩

theorem mem_keys_stored : n ∈ s.stored.keys.toFinset ↔ s.stored[n]?.isSome = true := by
  rw [List.mem_toFinset, Std.TreeMap.mem_keys, Std.TreeMap.mem_iff_isSome_getElem?]

theorem storedBuckets_eq (s : BucketSegment V) :
    s.storedBuckets = s.stored.keys.toFinset.card := by
  rw [List.toFinset_card_of_nodup Std.TreeMap.nodup_keys, Std.TreeMap.length_keys]
  rfl

variable [RecordValue V]

/-! ## Numbers and places -/

/-- Some keys are in the bucket. -/
def InRange (n : Nat) : Prop := n * slots < UInt32.size

theorem inRange_bucketOf (k : UInt32) : InRange (bucketOf k) :=
  Nat.lt_of_le_of_lt (Nat.div_mul_le_self _ _) k.toNat_lt

/-- A bucket has keys at all places. -/
theorem InRange.exists_key (h : InRange n) (V : Type) [RecordValue V] (k : UInt32) :
    ∃ k', bucketOf k' = n ∧ placeOf V k' = placeOf V k := by
  have hslot : k.toNat % slots < slots := Nat.mod_lt _ (by decide)
  have hbuckets : UInt32.size = 1048576 * slots := rfl
  have hn : n < 1048576 := by
    rw [InRange, hbuckets] at h
    exact Nat.lt_of_mul_lt_mul_right h
  have hlast : n * slots + k.toNat % slots < UInt32.size := calc
    n * slots + k.toNat % slots < n * slots + slots := Nat.add_lt_add_left hslot _
    _ = (n + 1) * slots := (Nat.succ_mul n slots).symm
    _ ≤ 1048576 * slots := Nat.mul_le_mul_right slots hn
    _ = UInt32.size := hbuckets.symm
  have hkey : (UInt32.ofNat (n * slots + k.toNat % slots)).toNat = n * slots + k.toNat % slots :=
    UInt32.toNat_ofNat_of_lt hlast
  refine ⟨UInt32.ofNat (n * slots + k.toNat % slots), ?_, ?_⟩
  · unfold bucketOf
    rw [hkey, Nat.mul_comm, Nat.mul_add_div (Nat.zero_lt_of_lt hslot), Nat.div_eq_of_lt hslot,
      Nat.add_zero]
  · unfold placeOf
    rw [hkey, Nat.mul_comm n slots, Nat.mul_add_mod, Nat.mod_mod]

/-- Every byte of a bucket belongs to the record of some key. -/
theorem exists_place (V : Type) [RecordValue V] {i : Nat} (hi : i < bucketSize V) :
    ∃ k : UInt32, ∃ r < Record.size V, i = placeOf V k + r := by
  have hpos : 0 < Record.size V := Nat.lt_of_lt_of_le Nat.zero_lt_one (Nat.le_add_right _ _)
  have hslot : i / Record.size V < slots := Nat.div_lt_of_lt_mul (by rwa [Nat.mul_comm])
  have hkey : (UInt32.ofNat (i / Record.size V)).toNat = i / Record.size V :=
    UInt32.toNat_ofNat_of_lt (Nat.lt_trans hslot (by decide))
  refine ⟨UInt32.ofNat (i / Record.size V), i % Record.size V, Nat.mod_lt _ hpos, ?_⟩
  unfold placeOf
  rw [hkey, Nat.mod_eq_of_lt hslot, Nat.mul_comm]
  exact (Nat.div_add_mod _ _).symm

/-! ## Records -/

/-- The records of a bucket, all of them there. Those that are absent are zero throughout. -/
structure WellFormed (V : Type) [RecordValue V] (records : ByteArray) : Prop where
  size : records.size = bucketSize V
  absent : ∀ k : UInt32, byteAt records (placeOf V k) = 0 →
    ∀ i < Record.size V, byteAt records (placeOf V k + i) = 0

theorem wellFormed_zeros : WellFormed V (zeros (bucketSize V)) where
  size := size_zeros _
  absent _ _ _ _ := byteAt_zeros _ _

/-- **A bucket that is not blank has a present record.** -/
theorem WellFormed.exists_present (h : WellFormed V records) (hblank : ¬ isBlank records = true) :
    ∃ k, byteAt records (placeOf V k) ≠ 0 := by
  by_contra hnone
  push Not at hnone
  refine hblank (isBlank_of_zeros fun i hi => ?_)
  obtain ⟨k, r, hr, rfl⟩ := exists_place V (h.size ▸ hi)
  exact h.absent k (hnone k) r hr

/-- A record that is put in place leaves the others as they are. -/
theorem WellFormed.overwrite (h : WellFormed V records) {piece : ByteArray}
    (hpiece : piece.size = Record.size V)
    (habsent : byteAt piece 0 = 0 → ∀ i < Record.size V, byteAt piece i = 0) (k : UInt32) :
    WellFormed V (overwrite records (placeOf V k) piece) := by
  have hplace := placeOf_le V k
  have hsize := h.size
  refine ⟨by rw [size_overwrite (by omega)]; omega, ?_⟩
  intro k' hzero i hi
  -- the key at the same place in the bucket of `k`
  obtain ⟨k'', hbucket, hk''⟩ := (inRange_bucketOf k).exists_key V k'
  rw [← hk''] at hzero ⊢
  rw [byteAt_overwrite (by omega)] at hzero ⊢
  by_cases hne : k'' = k
  · subst hne
    rw [if_pos (by omega)] at hzero ⊢
    rw [Nat.sub_self] at hzero
    rw [Nat.add_sub_cancel_left]
    exact habsent hzero i hi
  · rcases placeOf_apart V hne hbucket with hbefore | hbehind
    · rw [if_neg (by omega)] at hzero ⊢
      exact h.absent k'' hzero i hi
    · rw [if_neg (by omega)] at hzero ⊢
      exact h.absent k'' hzero i hi

theorem byteAt_absent (i : Nat) : byteAt (Record.absent V) i = 0 := byteAt_zeros _ i

theorem byteAt_present (v : V) : byteAt (Record.present v) 0 ≠ 0 := by
  rw [Record.present, byteAt_append_left (by decide)]
  decide

/-! ## What is stored -/

/-- A bucket as it is stored: it gives back records of which one is present at least. -/
structure PackedBucket (V : Type) [RecordValue V] (codec : Codec) (n : Nat) (packed : ByteArray) :
    Prop where
  inRange : InRange n
  unpacks : ∃ records, codec.decompressInto packed (bucketSize V) = .ok records ∧
    WellFormed V records ∧ ∃ k, byteAt records (placeOf V k) ≠ 0

/-- What holds between two calls, of the buckets and of where they are. -/
structure Tidy (s : BucketSegment V) (codec : Codec) (content : Nat → ByteArray) : Prop
    extends s.Shows content where
  codec_eq : s.codec = codec
  wellFormed : ∀ n, WellFormed V (content n)
  inRange : ∀ n, s.IsOpen n → InRange n
  stored : ∀ n packed, s.stored[n]? = some packed → PackedBucket V codec n packed
  clean : ∀ b, s.opened = some b → b.changed = false → ∃ packed, s.stored[b.number]? = some packed

theorem tidy_empty (h : codec.Lossless) :
    ({ codec := codec } : BucketSegment V).Tidy codec fun _ => zeros (bucketSize V) where
  lossless := h
  size _ := size_zeros _
  recordsOf n := fetch_of_none (s := { codec := codec }) (n := n) Std.TreeMap.getElem?_emptyc
  unchanged _ hb := nomatch hb
  codec_eq := rfl
  wellFormed _ := wellFormed_zeros
  inRange _ hn := nomatch hn
  stored n packed hpacked := by
    rw [show ({ codec := codec } : BucketSegment V).stored[n]? = none from
      Std.TreeMap.getElem?_emptyc] at hpacked
    cases hpacked
  clean _ hb := nomatch hb

namespace Tidy

/-- **What is stored after the open bucket was put away.** A bucket is only dropped if no record in it is
present. -/
theorem putAway_stored (h : s.Tidy codec content) (hput : s.putAway = .ok t) :
    (∀ n packed, t.stored[n]? = some packed → PackedBucket V codec n packed) ∧
      ∀ n, ¬ s.IsOpen n → t.stored[n]? = s.stored[n]? := by
  unfold putAway at hput
  cases hopened : s.opened with
  | none =>
    rw [hopened] at hput
    obtain rfl := Except.ok.inj hput
    exact ⟨h.stored, fun _ _ => rfl⟩
  | some b =>
    have hother (n : Nat) (hn : ¬ s.IsOpen n) : b.number ≠ n := hn ∘ (isOpen_iff hopened).mpr
    have hrecords : WellFormed V b.records := h.toShows.opened hopened ▸ h.wellFormed b.number
    simp only [hopened] at hput
    split at hput
    · obtain rfl := Except.ok.inj hput
      exact ⟨h.stored, fun _ _ => rfl⟩
    · split at hput
      · obtain rfl := Except.ok.inj hput
        refine ⟨fun n packed hpacked => ?_, fun n hn => ?_⟩
        · rw [Std.TreeMap.getElem?_erase] at hpacked
          split at hpacked
          · cases hpacked
          · exact h.stored n packed hpacked
        · simp [Std.TreeMap.getElem?_erase, hother n hn]
      · rename_i hblank
        obtain ⟨packed', hpacked', hback⟩ := h.lossless b.records
        rw [h.codec_eq] at hback
        simp only [hpacked'] at hput
        obtain rfl := Except.ok.inj hput
        refine ⟨fun n packed hpacked => ?_, fun n hn => ?_⟩
        · rw [Std.TreeMap.getElem?_insert] at hpacked
          split at hpacked
          · rename_i hn
            obtain rfl := Std.compare_eq_iff_eq.mp hn
            obtain rfl := Option.some.inj hpacked
            exact ⟨h.inRange _ ⟨b, hopened, rfl⟩, b.records, hback _ (Nat.le_of_eq hrecords.size),
              hrecords, hrecords.exists_present hblank⟩
          · exact h.stored n packed hpacked
        · simp [Std.TreeMap.getElem?_insert, hother n hn]

/-- What is stored under a number gives back records with a present one for a key of that bucket. -/
theorem unpacks (h : s.Tidy codec content) {packed : ByteArray}
    (hpacked : s.stored[n]? = some packed) :
    ∃ records, codec.decompressInto packed (bucketSize V) = .ok records ∧ WellFormed V records ∧
      (∃ k, bucketOf k = n ∧ byteAt records (placeOf V k) ≠ 0) ∧ s.fetch n = .ok records := by
  obtain ⟨hrange, records, hunpack, hrecords, k, hk⟩ := h.stored n packed hpacked
  obtain ⟨k', hbucket, hplace⟩ := hrange.exists_key V k
  exact ⟨records, hunpack, hrecords, ⟨k', hbucket, hplace ▸ hk⟩,
    fetch_of_some hpacked hrecords.size (h.codec_eq ▸ hunpack)⟩

theorem fetch_of_not_open (h : s.Tidy codec content) (hn : ¬ s.IsOpen n) :
    s.fetch n = .ok (content n) :=
  h.toShows.fetch fun b hb hnumber => hn ⟨b, hb, hnumber⟩

/-- Keys of buckets that are neither open nor stored have no values. -/
theorem look_of_missing (h : s.Tidy codec content) (hstored : s.stored[bucketOf k]? = none)
    (hopen : ¬ s.IsOpen (bucketOf k)) : s.look k = none := by
  have hcontent := (h.fetch_of_not_open hopen).symm.trans (fetch_of_none hstored)
  rw [h.toShows.look, Except.ok.inj hcontent, Record.readAt_zeros]

/-- **A bucket that is not open is stored exactly if a key in it has a value.** -/
theorem isSome_stored_iff (h : s.Tidy codec content) (hn : ¬ s.IsOpen n) :
    s.stored[n]?.isSome = true ↔ ∃ k, bucketOf k = n ∧ (s.look k).isSome = true := by
  constructor
  · intro hstored
    obtain ⟨packed, hpacked⟩ := Option.isSome_iff_exists.mp hstored
    obtain ⟨records, -, -, ⟨k, rfl, hk⟩, hfetch⟩ := h.unpacks hpacked
    refine ⟨k, rfl, ?_⟩
    rw [h.toShows.look, ← Except.ok.inj (hfetch.symm.trans (h.fetch_of_not_open hn)),
      Option.isSome_iff_ne_none]
    exact fun hnone => hk (Record.readAt_eq_none.mp hnone)
  · rintro ⟨k, rfl, hk⟩
    by_contra hnone
    rw [h.look_of_missing (Option.not_isSome_iff_eq_none.mp hnone) hn] at hk
    cases hk

end Tidy

/-! ## Taking out a bucket -/

/-- A bucket that is neither open nor stored is not taken out if it is not to be made. -/
theorem take_of_missing (hstored : s.stored[n]? = none) (hopen : ¬ s.IsOpen n) :
    s.take n false = .ok none := by
  have hcontains : s.stored.contains n = false := by
    rw [Std.TreeMap.contains_eq_isSome_getElem?, hstored]
    rfl
  have hother : take.other s n false = .ok none := by
    unfold take.other
    rw [hcontains]
    rfl
  unfold take
  cases hopened : s.opened with
  | none => exact hother
  | some b =>
    dsimp only
    rw [if_neg (hopen ∘ (isOpen_iff hopened).mpr)]
    exact hother

/-- **What taking out a bucket can do.** The open bucket is taken as it is. Any other one is taken from the
store, or made, after the open bucket was put away. -/
theorem take_eq_some (htake : s.take n make = .ok (some (b, t))) :
    (s.opened = some b ∧ b.number = n ∧ t = { s with opened := none }) ∨
      (¬ s.IsOpen n ∧ s.putAway = .ok t ∧ (make = false → ∃ packed, s.stored[n]? = some packed)) := by
  have hother (htake : take.other s n make = .ok (some (b, t))) :
      s.putAway = .ok t ∧ (make = false → ∃ packed, s.stored[n]? = some packed) := by
    unfold take.other at htake
    split at htake
    · cases htake
    · rename_i hstored
      split at htake
      · cases htake
      · rename_i s' hput
        split at htake
        · cases htake
        · have heq := Except.ok.inj htake
          simp only [Option.some.injEq, Prod.mk.injEq] at heq
          obtain ⟨-, rfl⟩ := heq
          refine ⟨hput, ?_⟩
          rintro rfl
          have hcontains : s.stored.contains n = true := by simpa using hstored
          exact ⟨_, Std.TreeMap.getElem?_eq_some_getElem hcontains⟩
  unfold take at htake
  cases hopened : s.opened with
  | none =>
    rw [hopened] at htake
    exact .inr ⟨not_isOpen hopened, hother htake⟩
  | some b' =>
    rw [hopened] at htake
    dsimp only at htake
    split at htake
    · rename_i hn
      have heq := Except.ok.inj htake
      simp only [Option.some.injEq, Prod.mk.injEq] at heq
      obtain ⟨rfl, rfl⟩ := heq
      exact .inl ⟨rfl, hn, rfl⟩
    · rename_i hn
      exact .inr ⟨hn ∘ (isOpen_iff hopened).mp, hother htake⟩

namespace Tidy

/-- A bucket that is taken out leaves what is stored in order. Unless it was made for the purpose, it is
stored itself if it was not changed. -/
theorem take (h : s.Tidy codec content) (htake : s.take n make = .ok (some (b, t))) :
    Taken s content n b t ∧
      (∀ n packed, t.stored[n]? = some packed → PackedBucket V codec n packed) ∧
      (make = false → b.changed = false → ∃ packed, t.stored[n]? = some packed) := by
  refine ⟨?_, ?_⟩
  · rcases h.toShows.take n make with ⟨b', t', htake', htaken⟩ | ⟨-, htake', -⟩
    · rw [htake] at htake'
      have heq := Except.ok.inj htake'
      simp only [Option.some.injEq, Prod.mk.injEq] at heq
      obtain ⟨rfl, rfl⟩ := heq
      exact htaken
    · rw [htake] at htake'
      cases htake'
  · rcases take_eq_some htake with ⟨hopened, rfl, rfl⟩ | ⟨hn, hput, hmake⟩
    · exact ⟨h.stored, fun _ hsame => h.clean b hopened hsame⟩
    · obtain ⟨hstored, hsame⟩ := h.putAway_stored hput
      exact ⟨hstored, fun hfalse _ => by rw [hsame n hn]; exact hmake hfalse⟩

/-- A bucket that was taken out is open again, with the records that it has now. -/
theorem reopen (h : s.Tidy codec content) (htake : s.take n make = .ok (some (b, t)))
    (hn : InRange n) {changed : Bool} (hrecords : WellFormed V records)
    (hclean : changed = false → make = false ∧ b.changed = false ∧ records = b.records)
    (present : Nat) :
    (t.withOpen ⟨b.number, records, changed⟩ present).Tidy codec
      (Function.update content n records) := by
  obtain ⟨htaken, hstored, hsame⟩ := h.take htake
  have hunchanged (hchanged : changed = false) : t.fetch n = .ok records := by
    obtain ⟨-, hb, rfl⟩ := hclean hchanged
    rw [htaken.records]
    exact htaken.unchanged hb
  refine ⟨htaken.reopen h.toShows hrecords.size hunchanged present, htaken.codec.trans h.codec_eq,
    fun n' => ?_, ?_, hstored, fun b' hb' hchanged => ?_⟩
  · rw [Function.update_apply]
    split
    · exact hrecords
    · exact h.wellFormed n'
  · rintro n' ⟨b', hb', rfl⟩
    obtain rfl := Option.some.inj hb'
    rw [htaken.number]
    exact hn
  · obtain rfl := Option.some.inj hb'
    obtain ⟨hmake, hb, -⟩ := hclean hchanged
    rw [htaken.number]
    exact hsame hmake hb

/-- Taking out a bucket to look at it and opening it again. -/
theorem putBack (h : s.Tidy codec content) (htake : s.take n false = .ok (some (b, t)))
    (hn : InRange n) : (t.withOpen b t.present).Tidy codec content := by
  obtain ⟨htaken, -⟩ := h.take htake
  have hrecords : WellFormed V b.records := htaken.records ▸ h.wellFormed n
  have hback := h.reopen htake hn hrecords (fun hchanged => ⟨rfl, hchanged, rfl⟩) t.present
  rwa [htaken.records, Function.update_eq_self, ← htaken.records] at hback

/-- Putting a record in place. -/
theorem store (h : s.Tidy codec content) (htake : s.take (bucketOf k) make = .ok (some (b, t)))
    {piece : ByteArray} (hpiece : piece.size = Record.size V)
    (habsent : byteAt piece 0 = 0 → ∀ i < Record.size V, byteAt piece i = 0) (present : Nat) :
    ∃ content', (t.withOpen ⟨b.number, overwrite b.records (placeOf V k) piece, true⟩ present).Tidy
      codec content' := by
  obtain ⟨htaken, -⟩ := h.take htake
  have hrecords : WellFormed V b.records := htaken.records ▸ h.wellFormed (bucketOf k)
  exact ⟨_, h.reopen htake (inRange_bucketOf k) (hrecords.overwrite hpiece habsent k)
    (fun hchanged : true = false => nomatch hchanged) present⟩

/-! ## Calls -/

theorem get (h : s.Tidy codec content) {found : Option V} (hget : s.get k = .ok (found, t)) :
    t.Tidy codec content := by
  unfold BucketSegment.get at hget
  split at hget
  · cases hget
  · obtain ⟨-, rfl⟩ := Prod.mk.inj (Except.ok.inj hget)
    exact h
  · rename_i b t' htake
    obtain ⟨-, rfl⟩ := Prod.mk.inj (Except.ok.inj hget)
    exact h.putBack htake (inRange_bucketOf k)

theorem delete (h : s.Tidy codec content) (hdelete : s.delete k = .ok t) :
    ∃ content', t.Tidy codec content' := by
  unfold BucketSegment.delete at hdelete
  split at hdelete
  · cases hdelete
  · obtain rfl := Except.ok.inj hdelete
    exact ⟨content, h⟩
  · rename_i b t' htake
    dsimp only at hdelete
    split at hdelete
    · obtain rfl := Except.ok.inj hdelete
      exact ⟨content, h.putBack htake (inRange_bucketOf k)⟩
    · obtain rfl := Except.ok.inj hdelete
      exact h.store htake Record.size_absent (fun _ i _ => byteAt_absent i) _

variable [LawfulRecordValue V]

theorem put (h : s.Tidy codec content) {v : V} (hput : s.put k v = .ok t) :
    ∃ content', t.Tidy codec content' := by
  unfold BucketSegment.put at hput
  split at hput
  · cases hput
  · obtain rfl := Except.ok.inj hput
    exact ⟨content, h⟩
  · rename_i b t' htake
    obtain rfl := Except.ok.inj hput
    exact h.store htake (Record.size_present v) (fun hzero => absurd hzero (byteAt_present v)) _

/-- **A call leaves the segment tidy.** -/
theorem perform (h : s.Tidy codec content) {c : SegmentCall V} {answer : SegmentAnswer V}
    (hcall : c.perform s = .ok (answer, t)) : ∃ content', t.Tidy codec content' := by
  cases c with
  | get k =>
    obtain ⟨⟨found, t'⟩, hget, heq⟩ := exists_of_map_eq_ok hcall
    obtain ⟨-, rfl⟩ := Prod.mk.inj heq
    exact ⟨content, h.get hget⟩
  | has k =>
    obtain ⟨⟨present, t'⟩, hhas, heq⟩ := exists_of_map_eq_ok hcall
    obtain ⟨-, rfl⟩ := Prod.mk.inj heq
    obtain ⟨⟨found, t''⟩, hget, heq'⟩ := exists_of_map_eq_ok hhas
    obtain ⟨-, rfl⟩ := Prod.mk.inj heq'
    exact ⟨content, h.get hget⟩
  | put k v =>
    obtain ⟨t', hput, heq⟩ := exists_of_map_eq_ok hcall
    obtain ⟨-, rfl⟩ := Prod.mk.inj heq
    exact h.put hput
  | delete k =>
    obtain ⟨t', hdelete, heq⟩ := exists_of_map_eq_ok hcall
    obtain ⟨-, rfl⟩ := Prod.mk.inj heq
    exact h.delete hdelete

end Tidy

/-! ## Coherence -/

/-- The buckets of a segment, and what they hold of a map from keys to values. -/
structure Coherent (s : BucketSegment V) (codec : Codec) (m : FiniteMap V) : Prop where
  /-- What is stored gives back all records of its bucket, of which one is present. Unless the bucket is
  open, they are those of the map. -/
  stored : ∀ n packed, s.stored[n]? = some packed →
    ∃ records, codec.decompressInto packed (bucketSize V) = .ok records ∧ WellFormed V records ∧
      (∃ k, bucketOf k = n ∧ byteAt records (placeOf V k) ≠ 0) ∧
      (¬ s.IsOpen n → ∀ k, bucketOf k = n → Record.readAt records (placeOf V k) = m.lookup k)
  /-- The open bucket has the records of the map. -/
  opened : ∀ b, s.opened = some b →
    WellFormed V b.records ∧
      ∀ k, bucketOf k = b.number → Record.readAt b.records (placeOf V k) = m.lookup k
  /-- If it was not changed, it is stored. -/
  clean : ∀ b, s.opened = some b → b.changed = false →
    ∃ packed, s.stored[b.number]? = some packed ∧
      codec.decompressInto packed (bucketSize V) = .ok b.records
  /-- Keys of other buckets have no values. -/
  missing : ∀ k, s.stored[bucketOf k]? = none → ¬ s.IsOpen (bucketOf k) → m.lookup k = none
  /-- The present records are counted. -/
  present : s.present = m.keys.card
  /-- The number of stored buckets and the number of those in which keys have values differ by one at
  most. -/
  storedBuckets : s.storedBuckets ≤ (m.keys.image bucketOf).card + 1 ∧
    (m.keys.image bucketOf).card ≤ s.storedBuckets + 1

variable [LawfulRecordValue V] {m : FiniteMap V}

/-- A segment is tidy and means a map. -/
def TidilyModels (s : BucketSegment V) (codec : Codec) (m : FiniteMap V) : Prop :=
  (counted V).Models s m ∧ ∃ content, s.Tidy codec content

namespace TidilyModels

theorem call (h : s.TidilyModels codec m) (c : SegmentCall V) :
    (c.apply s).1 = (c.apply m).1 ∧ (c.apply s).2.TidilyModels codec (c.apply m).2 := by
  obtain ⟨hmodels, content, htidy⟩ := h
  obtain ⟨hanswer, hmodels'⟩ := hmodels.call c
  refine ⟨hanswer, hmodels', ?_⟩
  obtain ⟨answer, t, -, hperform, -, -⟩ := hmodels.perform c
  unfold SegmentCall.apply
  rw [hperform]
  exact htidy.perform hperform

/-- The open bucket is the only one about which the store and the map may differ. -/
theorem agree (h : s.TidilyModels codec m) : ∃ a, ∀ n, n ≠ a →
    (n ∈ s.stored.keys.toFinset ↔ n ∈ m.keys.image bucketOf) := by
  obtain ⟨hmodels, content, htidy⟩ := h
  have hclosed (n : Nat) (hn : ¬ s.IsOpen n) :
      n ∈ s.stored.keys.toFinset ↔ n ∈ m.keys.image bucketOf := by
    rw [mem_keys_stored, htidy.isSome_stored_iff hn, Finset.mem_image]
    refine exists_congr fun k => ?_
    rw [FiniteMap.mem_keys_iff, hmodels.lookup, and_comm]
    rfl
  cases hopened : s.opened with
  | none => exact ⟨0, fun n _ => hclosed n (not_isOpen hopened)⟩
  | some b =>
    exact ⟨b.number, fun n hn => hclosed n fun hopen => hn ((isOpen_iff hopened).mp hopen).symm⟩

theorem coherent (h : s.TidilyModels codec m) : s.Coherent codec m := by
  obtain ⟨a, hagree⟩ := h.agree
  obtain ⟨hmodels, content, htidy⟩ := h
  have hread (k : UInt32) : Record.readAt (content (bucketOf k)) (placeOf V k) = m.lookup k :=
    (htidy.toShows.look k).symm.trans (hmodels.lookup k).symm
  refine ⟨fun n packed hpacked => ?_, fun b hb => ?_, fun b hb hchanged => ?_,
    fun k hstored hopen => ?_, hmodels.entries, ?_⟩
  · obtain ⟨records, hunpack, hrecords, hpresent, hfetch⟩ := htidy.unpacks hpacked
    refine ⟨records, hunpack, hrecords, hpresent, ?_⟩
    rintro hn k rfl
    rw [Except.ok.inj (hfetch.symm.trans (htidy.fetch_of_not_open hn))]
    exact hread k
  · have hrecords := htidy.toShows.opened hb
    refine ⟨hrecords ▸ htidy.wellFormed _, fun k hk => ?_⟩
    rw [hrecords, ← hk]
    exact hread k
  · obtain ⟨packed, hpacked⟩ := htidy.clean b hb hchanged
    obtain ⟨records, hunpack, -, -, hfetch⟩ := htidy.unpacks hpacked
    rw [← Except.ok.inj (hfetch.symm.trans (htidy.unchanged b hb hchanged))]
    exact ⟨packed, hpacked, hunpack⟩
  · rw [hmodels.lookup]
    exact htidy.look_of_missing hstored hopen
  · rw [storedBuckets_eq]
    exact ⟨card_le_of_agree hagree, card_le_of_agree fun n hn => (hagree n hn).symm⟩

/-- A removed value is one that was counted. -/
theorem present_delete (h : s.TidilyModels codec m) (hdelete : s.delete k = .ok t) :
    s.present = t.present + if (m.lookup k).isSome then 1 else 0 := by
  obtain ⟨t', hdelete', hmodels⟩ := h.1.delete k
  obtain rfl := Except.ok.inj (hdelete.symm.trans hdelete')
  have hbefore : s.present = m.keys.card := h.1.entries
  have hafter : t.present = (m.erase k).keys.card := hmodels.entries
  rw [hbefore, hafter, FiniteMap.card_erase]
  split
  · rename_i hsome
    have hpos := Finset.card_pos.mpr ⟨k, FiniteMap.mem_keys_iff.mpr hsome⟩
    omega
  · rfl

end TidilyModels

/-- **The buckets stay coherent.** With a lossless codec, after any calls the segment has answered as a
finite map; its stored buckets and the open one are coherent with that map; what is asked about a bucket
that is neither stored nor open, or deleted from it, leaves the segment as it is; and a value that is
removed was counted. -/
theorem buckets_stay_coherent (h : codec.Lossless) (calls : List (SegmentCall V)) :
    let run := runCalls SegmentCall.apply ({ codec := codec } : BucketSegment V) calls
    let map := runCalls SegmentCall.apply (∅ : FiniteMap V) calls
    run.1 = map.1 ∧ run.2.Coherent codec map.2 ∧
      (∀ k, run.2.stored[bucketOf k]? = none → ¬ run.2.IsOpen (bucketOf k) →
        run.2.get k = .ok (none, run.2) ∧ Segment.has run.2 k = .ok (false, run.2) ∧
          run.2.delete k = .ok run.2) ∧
      ∀ k t, run.2.delete k = .ok t →
        run.2.present = t.present + if (map.2.lookup k).isSome then 1 else 0 := by
  intro run map
  have hstart : ({ codec := codec } : BucketSegment V).TidilyModels codec ∅ :=
    ⟨models_empty h, _, tidy_empty h⟩
  have hcall (s : BucketSegment V) (m : FiniteMap V) (c : SegmentCall V)
      (h : s.TidilyModels codec m) :
      (c.apply s).1 = (c.apply m).1 ∧ (c.apply s).2.TidilyModels codec (c.apply m).2 := h.call c
  obtain ⟨hanswers, hlast⟩ := runCalls_alike hcall hstart calls
  refine ⟨hanswers, hlast.coherent, fun k hstored hopen => ?_, fun k t => hlast.present_delete⟩
  have htake := take_of_missing hstored hopen
  have hget : run.2.get k = .ok (none, run.2) := by simp only [BucketSegment.get, htake]
  exact ⟨hget, congrArg (Except.map _) hget, by simp only [BucketSegment.delete, htake]⟩

/-- The second bucket is dropped when the first one is needed again. -/
theorem emptied_bucket_is_dropped :
    let calls : List (SegmentCall BlockNum) := [.put 1 ⟨10⟩, .put 12288 ⟨11⟩, .delete 12288, .get 1]
    let run := runCalls SegmentCall.apply ({ codec := Zlib.codec } : BucketSegment BlockNum) calls
    Zlib.codec.Lossless ∧
      run.1 = [(.ok .done, 1), (.ok .done, 2), (.ok .done, 1), (.ok (.value (some ⟨10⟩)), 1)] ∧
      run.2.present = 1 := by
  intro calls run
  obtain ⟨hanswers, hcoherent, -⟩ := buckets_stay_coherent Codec.lossless_zlib calls
  exact ⟨Codec.lossless_zlib, hanswers.trans (by rfl), hcoherent.present.trans (by rfl)⟩

end BucketSegment

end DedupImage
