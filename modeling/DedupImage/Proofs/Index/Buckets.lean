import DedupImage.Index.BucketSegment
import DedupImage.Proofs.Index.FiniteMap

/-!
# Segments of compressed buckets as finite maps

A segment of buckets keeps one bucket open and all others compressed. What counts is what each bucket
holds, wherever it is (`BucketSegment.Shows`): the open bucket is as it is, every other one is what its
compressed form gives back, and a bucket that is not stored holds nothing. An open bucket that was not
changed has the same records stored under its number, so it can be put away by forgetting it.

Putting the open bucket away changes no bucket (`BucketSegment.Shows.putAway`), nor does taking one out
(`BucketSegment.Shows.take`), and the record of a key is put in place without touching the records of
other keys (`BucketSegment.Taken.store`). With a lossless codec a segment of buckets therefore means a
finite map (`BucketSegment.counted`).
-/

namespace DedupImage

/-- A string of zero bytes is as long as it is. -/
theorem eq_zeros_of_isBlank {b : ByteArray} (h : isBlank b = true) : b = zeros b.size := by
  have hbelow : ∀ n, blankBelow b n = true → ∀ i < n, byteAt b i = 0 := by
    intro n
    induction n with
    | zero => exact fun _ i hi => absurd hi (Nat.not_lt_zero i)
    | succ n ih =>
      intro hn i hi
      unfold blankBelow at hn
      rw [Bool.and_eq_true, beq_iff_eq] at hn
      by_cases heq : i = n
      · rw [heq]
        exact hn.1
      · exact ih hn.2 i (by omega)
  apply eq_of_byteAt (size_zeros _).symm
  intro i hi
  rw [byteAt_zeros]
  exact hbelow _ h i hi

namespace BucketSegment

variable {V : Type} [RecordValue V] {s t : BucketSegment V} {content : Nat → ByteArray}
  {b : Bucket} {n : Nat} {k k' : UInt32}

/-! ## What buckets hold -/

/-- The records of a bucket, open or not. -/
def recordsOf (s : BucketSegment V) (n : Nat) : Except StorageFailure ByteArray :=
  match s.opened with
  | some b => if b.number = n then .ok b.records else s.fetch n
  | none => s.fetch n

/-- The buckets of a segment hold these records. -/
structure Shows (s : BucketSegment V) (content : Nat → ByteArray) : Prop where
  lossless : s.codec.Lossless
  size : ∀ n, (content n).size = bucketSize V
  recordsOf : ∀ n, s.recordsOf n = .ok (content n)
  /-- What is open and was not changed is stored. -/
  unchanged : ∀ b, s.opened = some b → b.changed = false → s.fetch b.number = .ok b.records

/-- What is stored under another number does not matter. -/
theorem fetch_congr (hcodec : t.codec = s.codec) (hstored : t.stored[n]? = s.stored[n]?) :
    t.fetch n = s.fetch n := by
  unfold fetch
  rw [hstored, hcodec]

/-- A bucket that is not stored holds nothing. -/
theorem fetch_of_none (h : s.stored[n]? = none) : s.fetch n = .ok (zeros (bucketSize V)) := by
  unfold fetch
  rw [h]

/-- A bucket that was compressed is stored with its records. -/
theorem fetch_of_some {packed records : ByteArray} (hstored : s.stored[n]? = some packed)
    (hsize : records.size = bucketSize V)
    (hback : s.codec.decompressInto packed (bucketSize V) = .ok records) :
    s.fetch n = .ok records := by
  unfold fetch
  rw [hstored]
  simp only [hback, if_pos hsize]

/-- A bucket that is not open holds what is stored. -/
theorem Shows.fetch (h : s.Shows content) (hn : ∀ b, s.opened = some b → b.number ≠ n) :
    s.fetch n = .ok (content n) := by
  have hrecords := h.recordsOf n
  unfold BucketSegment.recordsOf at hrecords
  cases hopened : s.opened with
  | none =>
    rw [hopened] at hrecords
    exact hrecords
  | some b =>
    rw [hopened] at hrecords
    simpa only [if_neg (hn b hopened)] using hrecords

/-- The open bucket holds its records. -/
theorem Shows.opened (h : s.Shows content) (hb : s.opened = some b) :
    b.records = content b.number := by
  have hrecords := h.recordsOf b.number
  unfold BucketSegment.recordsOf at hrecords
  rw [hb] at hrecords
  simpa only [if_true, Except.ok.injEq] using hrecords

/-- **Putting the open bucket away changes no bucket.** -/
theorem Shows.putAway (h : s.Shows content) :
    ∃ t, s.putAway = .ok t ∧ t.codec = s.codec ∧ t.present = s.present ∧ t.opened = none ∧
      ∀ n, t.fetch n = .ok (content n) := by
  unfold BucketSegment.putAway
  cases hopened : s.opened with
  | none => exact ⟨s, rfl, rfl, rfl, hopened, fun n => h.fetch fun b hb => by simp [hopened] at hb⟩
  | some b =>
    have hother : ∀ n, n ≠ b.number → s.fetch n = .ok (content n) := by
      intro n hn
      apply h.fetch
      rintro b' hb' rfl
      obtain rfl := Option.some.inj (hopened.symm.trans hb')
      exact hn rfl
    have hrecords := h.opened hopened
    have hsize : b.records.size = bucketSize V := by
      rw [hrecords]
      exact h.size _
    dsimp only
    by_cases hchanged : b.changed = true
    · rw [if_neg (by simp [hchanged])]
      by_cases hblank : isBlank b.records = true
      · -- nothing is stored of a bucket without values
        rw [if_pos hblank]
        refine ⟨_, rfl, rfl, rfl, rfl, fun n => ?_⟩
        by_cases hn : n = b.number
        · rw [hn, fetch_of_none (by simp), ← hrecords, eq_zeros_of_isBlank hblank, hsize]
        · rw [← hother n hn]
          exact fetch_congr rfl (by simp [Std.TreeMap.getElem?_erase, Ne.symm hn])
      · obtain ⟨packed, hpacked, hback⟩ := h.lossless b.records
        simp only [if_neg hblank, hpacked]
        refine ⟨_, rfl, rfl, rfl, rfl, fun n => ?_⟩
        by_cases hn : n = b.number
        · rw [hn, ← hrecords]
          exact fetch_of_some (by simp) hsize (hback _ (Nat.le_of_eq hsize))
        · rw [← hother n hn]
          exact fetch_congr rfl (by simp [Std.TreeMap.getElem?_insert, Ne.symm hn])
    · rw [if_pos (by simpa using hchanged)]
      refine ⟨_, rfl, rfl, rfl, rfl, fun n => ?_⟩
      by_cases hn : n = b.number
      · rw [hn, ← hrecords]
        exact h.unchanged b hopened (by simpa using hchanged)
      · exact hother n hn

/-! ## Values -/

/-- The value of a key. -/
def look (s : BucketSegment V) (k : UInt32) : Option V :=
  match s.recordsOf (bucketOf k) with
  | .error _ => none
  | .ok records => Record.readAt records (placeOf V k)

theorem Shows.look (h : s.Shows content) (k : UInt32) :
    s.look k = Record.readAt (content (bucketOf k)) (placeOf V k) := by
  unfold BucketSegment.look
  rw [h.recordsOf]

/-- Segments whose buckets hold the same have the same values. -/
theorem Shows.look_eq (h : s.Shows content) (ht : t.Shows content) : t.look = s.look := by
  funext k
  rw [ht.look, h.look]

/-! ## Taking out a bucket -/

/-- A bucket was taken out of a segment. -/
structure Taken (s : BucketSegment V) (content : Nat → ByteArray) (n : Nat) (b : Bucket)
    (t : BucketSegment V) : Prop where
  number : b.number = n
  records : b.records = content n
  codec : t.codec = s.codec
  present : t.present = s.present
  others : ∀ n', n' ≠ n → t.fetch n' = .ok (content n')
  unchanged : b.changed = false → t.fetch n = .ok (content n)

/-- **A bucket is taken out with its records**, unless it is not stored and is not to be made; then it
holds nothing. -/
theorem Shows.take (h : s.Shows content) (n : Nat) (make : Bool) :
    (∃ b t, s.take n make = .ok (some (b, t)) ∧ Taken s content n b t) ∨
      (make = false ∧ s.take n make = .ok none ∧ content n = zeros (bucketSize V)) := by
  have hother (hn : ∀ b, s.opened = some b → b.number ≠ n) :
      (∃ b t, take.other s n make = .ok (some (b, t)) ∧ Taken s content n b t) ∨
        (make = false ∧ take.other s n make = .ok none ∧ content n = zeros (bucketSize V)) := by
    unfold take.other
    by_cases hmissing : (!make && !s.stored.contains n) = true
    · rw [Bool.and_eq_true, Bool.not_eq_true', Bool.not_eq_true'] at hmissing
      have hnone : s.stored[n]? = none := Std.TreeMap.getElem?_eq_none_of_contains_eq_false hmissing.2
      have hcontent := h.fetch hn
      rw [fetch_of_none hnone] at hcontent
      refine .inr ⟨hmissing.1, ?_, (Except.ok.inj hcontent).symm⟩
      simp [hmissing]
    · obtain ⟨t, hput, hcodec, hpresent, -, hfetch⟩ := h.putAway
      refine .inl ⟨⟨n, content n, false⟩, t, ?_, rfl, rfl, hcodec, hpresent,
        fun n' _ => hfetch n', fun _ => hfetch n⟩
      simp only [if_neg hmissing, hput, hfetch n]
  unfold BucketSegment.take
  cases hopened : s.opened with
  | none => exact hother fun b hb => by simp [hopened] at hb
  | some b =>
    dsimp only
    by_cases hb : b.number = n
    · rw [if_pos hb]
      refine .inl ⟨b, _, rfl, hb, hb ▸ h.opened hopened, rfl, rfl, fun n' hn' => ?_, fun hsame => ?_⟩
      · refine (fetch_congr rfl rfl).trans (h.fetch ?_)
        rintro b' hb' rfl
        obtain rfl := Option.some.inj (hopened.symm.trans hb')
        exact hn' hb
      · rw [← hb, ← h.opened hopened]
        exact h.unchanged b hopened hsame
    · rw [if_neg hb]
      apply hother
      rintro b' hb' rfl
      obtain rfl := Option.some.inj (hopened.symm.trans hb')
      exact hb rfl

/-- The segment with an open bucket and another count. -/
def withOpen (s : BucketSegment V) (b : Bucket) (present : Nat) : BucketSegment V :=
  { s with opened := some b, present := present }

/-- A bucket that was taken out and is open again, with the records that it has now. -/
theorem Taken.reopen (ht : Taken s content n b t) (h : s.Shows content) {records : ByteArray}
    {changed : Bool} (hsize : records.size = bucketSize V)
    (hunchanged : changed = false → t.fetch n = .ok records) (present : Nat) :
    (t.withOpen ⟨b.number, records, changed⟩ present).Shows (Function.update content n records) where
  lossless := ht.codec ▸ h.lossless
  size n' := by
    rw [Function.update_apply]
    split
    · exact hsize
    · exact h.size n'
  recordsOf n' := by
    unfold BucketSegment.recordsOf withOpen
    dsimp only
    rw [ht.number, Function.update_apply]
    by_cases hn : n' = n
    · rw [if_pos hn.symm, if_pos hn]
    · rw [if_neg (Ne.symm hn), if_neg hn]
      exact ht.others n' hn
  unchanged b' hb' hsame := by
    obtain rfl := Option.some.inj hb'
    rw [ht.number]
    exact hunchanged hsame

/-- If it is as it was, nothing has changed. -/
theorem Taken.putBack (ht : Taken s content n b t) (h : s.Shows content) :
    (t.withOpen b t.present).Shows content := by
  have hsize : b.records.size = bucketSize V := by
    rw [ht.records]
    exact h.size n
  have hback := ht.reopen h hsize (fun hsame => ht.records ▸ ht.unchanged hsame) t.present
  rwa [ht.records, Function.update_eq_self, ← ht.records] at hback

/-! ## Places -/

/-- The record of a key lies in its bucket. -/
theorem placeOf_le (V : Type) [RecordValue V] (k : UInt32) :
    placeOf V k + Record.size V ≤ bucketSize V := by
  have hslot : k.toNat % slots + 1 ≤ slots := Nat.mod_lt _ (by decide)
  unfold placeOf bucketSize
  rw [← Nat.succ_mul]
  exact Nat.mul_le_mul_right _ hslot

/-- The records of two keys of a bucket are apart. -/
theorem placeOf_apart (V : Type) [RecordValue V] (hne : k' ≠ k) (hbucket : bucketOf k' = bucketOf k) :
    placeOf V k' + Record.size V ≤ placeOf V k ∨ placeOf V k + Record.size V ≤ placeOf V k' := by
  have hslots : k'.toNat % slots ≠ k.toNat % slots := by
    intro hslot
    apply hne
    rw [← UInt32.toNat_inj, ← Nat.div_add_mod k'.toNat slots, hslot]
    unfold bucketOf at hbucket
    rw [hbucket, Nat.div_add_mod]
  unfold placeOf
  rw [← Nat.succ_mul, ← Nat.succ_mul]
  rcases Nat.lt_or_gt_of_ne hslots with hlt | hlt
  · exact .inl (Nat.mul_le_mul_right _ hlt)
  · exact .inr (Nat.mul_le_mul_right _ hlt)

variable [LawfulRecordValue V]

/-- A record that is put in place is read there, and the records of other keys are read as before. -/
theorem readAt_overwrite {records piece : ByteArray} (hrecords : records.size = bucketSize V)
    (hpiece : piece.size = Record.size V) (hbucket : bucketOf k' = bucketOf k) :
    (Record.readAt (overwrite records (placeOf V k) piece) (placeOf V k') : Option V) =
      if k' = k then Record.readAt piece 0 else Record.readAt records (placeOf V k') := by
  have hplace := placeOf_le V k
  split
  · rename_i heq
    apply Record.readAt_congr
    intro i hi
    rw [heq, byteAt_overwrite (by omega), if_pos (by omega), Nat.zero_add]
    congr 1
    omega
  · rename_i hne
    apply Record.readAt_congr
    intro i hi
    rcases placeOf_apart V hne hbucket with hbefore | hbehind
    · rw [byteAt_overwrite (by omega), if_neg (by omega)]
    · rw [byteAt_overwrite (by omega), if_neg (by omega)]

/-- **Storing a record changes the record of its key only.** -/
theorem Taken.store (ht : Taken s content (bucketOf k) b t) (h : s.Shows content) {piece : ByteArray}
    (hpiece : piece.size = Record.size V) (present : Nat) :
    let t' := t.withOpen ⟨b.number, overwrite b.records (placeOf V k) piece, true⟩ present
    (∃ content', t'.Shows content') ∧
      ∀ k', t'.look k' = if k' = k then Record.readAt piece 0 else s.look k' := by
  have hplace := placeOf_le V k
  have hsize : b.records.size = bucketSize V := by
    rw [ht.records]
    exact h.size _
  have hwritten : (overwrite b.records (placeOf V k) piece).size = bucketSize V := by
    rw [size_overwrite (by omega)]
    omega
  have hunchanged : true = false → t.fetch (bucketOf k) =
      .ok (overwrite b.records (placeOf V k) piece) := nofun
  have hreopened := ht.reopen h hwritten hunchanged present
  refine ⟨⟨_, hreopened⟩, fun k' => ?_⟩
  rw [hreopened.look, h.look, Function.update_apply]
  by_cases hbucket : bucketOf k' = bucketOf k
  · rw [if_pos hbucket, readAt_overwrite hsize hpiece hbucket, hbucket, ht.records]
  · have hne : k' ≠ k := by
      rintro rfl
      exact hbucket rfl
    rw [if_neg hbucket, if_neg hne]

/-! ## The finite map -/

/-- The buckets hold records, and the present ones are counted. -/
def Sound (s : BucketSegment V) : Prop :=
  ∃ content, s.Shows content ∧
    ∃ m : FiniteMap V, (∀ k, m.lookup k = s.look k) ∧ s.present = m.keys.card

omit [LawfulRecordValue V] in
/-- Looking up a value finds it, and changes none. -/
theorem get_eq (h : s.Sound) (k : UInt32) :
    ∃ t, s.get k = .ok (s.look k, t) ∧ t.Sound ∧ t.look = s.look := by
  obtain ⟨content, hshows, m, hm, hpresent⟩ := h
  unfold get
  rcases hshows.take (bucketOf k) false with ⟨b, t, htake, ht⟩ | ⟨-, htake, hnone⟩
  · have hback := ht.putBack hshows
    have hlook := hshows.look_eq hback
    refine ⟨t.withOpen b t.present, ?_, ⟨content, hback, m, ?_, ht.present.trans hpresent⟩, hlook⟩
    · simp only [htake, hshows.look, ← ht.records]
      rfl
    · rw [hlook]
      exact hm
  · refine ⟨s, ?_, ⟨content, hshows, m, hm, hpresent⟩, rfl⟩
    simp only [htake, hshows.look, hnone, Record.readAt_zeros]

/-- Storing a value stores it, and changes no other. -/
theorem put_eq (h : s.Sound) (k : UInt32) (v : V) :
    ∃ t, s.put k v = .ok t ∧ t.Sound ∧ t.look = Function.update s.look k (some v) := by
  obtain ⟨content, hshows, m, hm, hpresent⟩ := h
  unfold put
  rcases hshows.take (bucketOf k) true with ⟨b, t, htake, ht⟩ | ⟨hmake, -⟩
  · obtain ⟨⟨content', hshows'⟩, hlook⟩ := ht.store hshows (Record.size_present v)
      (t.present + if byteAt b.records (placeOf V k) = 0 then 1 else 0)
    rw [Record.readAt_present] at hlook
    simp only [htake]
    refine ⟨_, rfl, ⟨content', hshows', m.insert k v, ?_, ?_⟩, ?_⟩
    · intro k'
      rw [FiniteMap.lookup_insert, hm]
      exact (hlook k').symm
    · rw [FiniteMap.card_insert, ← hpresent, ← ht.present, hm, hshows.look, ← ht.records]
      refine congrArg (t.present + ·) ?_
      rw [if_congr (Record.readAt_eq_none (V := V)).symm rfl rfl]
      cases (Record.readAt b.records (placeOf V k) : Option V) <;> simp
    · funext k'
      rw [Function.update_apply]
      exact hlook k'
  · cases hmake

/-- Removing a value removes it, and changes no other. -/
theorem delete_eq (h : s.Sound) (k : UInt32) :
    ∃ t, s.delete k = .ok t ∧ t.Sound ∧ t.look = Function.update s.look k none := by
  obtain ⟨content, hshows, m, hm, hpresent⟩ := h
  have hsame (hnone : s.look k = none) : s.look = Function.update s.look k none := by
    rw [← hnone, Function.update_eq_self]
  unfold delete
  rcases hshows.take (bucketOf k) false with ⟨b, t, htake, ht⟩ | ⟨-, htake, hblank⟩
  · simp only [htake]
    by_cases habsent : byteAt b.records (placeOf V k) = 0
    · rw [if_pos habsent]
      have hback := ht.putBack hshows
      have hlook := hshows.look_eq hback
      have hnone : s.look k = none := by
        rw [hshows.look, ← ht.records]
        exact Record.readAt_eq_none.mpr habsent
      refine ⟨t.withOpen b t.present, rfl, ⟨content, hback, m, ?_, ht.present.trans hpresent⟩,
        hlook.trans (hsame hnone)⟩
      rw [hlook]
      exact hm
    · rw [if_neg habsent]
      obtain ⟨⟨content', hshows'⟩, hlook⟩ :=
        ht.store hshows (Record.size_absent (V := V)) (t.present - 1)
      rw [Record.readAt_absent] at hlook
      have hsome : (m.lookup k).isSome = true := by
        rw [hm, hshows.look, ← ht.records, Option.isSome_iff_ne_none]
        exact fun hnone => habsent (Record.readAt_eq_none.mp hnone)
      refine ⟨_, rfl, ⟨content', hshows', m.erase k, ?_, ?_⟩, ?_⟩
      · intro k'
        rw [FiniteMap.lookup_erase, hm]
        exact (hlook k').symm
      · rw [FiniteMap.card_erase, ← hpresent, ← ht.present, if_pos hsome]
      · funext k'
        rw [Function.update_apply]
        exact hlook k'
  · have hnone : s.look k = none := by
      rw [hshows.look, hblank, Record.readAt_zeros]
    refine ⟨s, by simp only [htake], ⟨content, hshows, m, hm, hpresent⟩, hsame hnone⟩

/-- **A segment of buckets means a finite map**, if its codec is lossless. -/
def counted (V : Type) [RecordValue V] [LawfulRecordValue V] : CountedView (BucketSegment V) V where
  Valid := Sound
  look := look
  get_eq hs k := get_eq hs k
  has_eq hs k := by
    obtain ⟨t, hget, ht, hlook⟩ := get_eq hs k
    exact ⟨t, congrArg (Except.map _) hget, ht, hlook⟩
  put_eq hs k v := put_eq hs k v
  delete_eq hs k := delete_eq hs k
  entries_eq {s} hs m hm := by
    obtain ⟨content, -, m', hm', hpresent⟩ := hs
    have heq : m = m' := Finmap.ext_lookup fun k => (hm k).trans (hm' k).symm
    rw [heq]
    exact hpresent

theorem models_empty {codec : Codec} (h : codec.Lossless) :
    (counted V).Models { codec := codec } ∅ := by
  have hshows : ({ codec := codec } : BucketSegment V).Shows fun _ => zeros (bucketSize V) :=
    ⟨h, fun _ => size_zeros _,
      fun n => fetch_of_none (s := { codec := codec }) (n := n) Std.TreeMap.getElem?_emptyc, nofun⟩
  have hlook : ∀ k, ({ codec := codec } : BucketSegment V).look k = none := by
    intro k
    rw [hshows.look, Record.readAt_zeros]
  have hmap : ∀ k, (∅ : FiniteMap V).lookup k = ({ codec := codec } : BucketSegment V).look k := by
    intro k
    rw [hlook]
    exact Finmap.lookup_empty k
  exact ⟨⟨_, hshows, ∅, hmap, by rw [Finmap.keys_empty, Finset.card_empty]⟩, hmap⟩

end BucketSegment

end DedupImage
