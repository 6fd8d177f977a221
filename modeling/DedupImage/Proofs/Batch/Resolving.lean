import DedupImage.Proofs.Batch.Deduplication
import DedupImage.Proofs.Batch.FirstSightings

/-!
# Repeats are safe to use

Placing a batch looks up the number of the position that the next one is said to repeat. The look-up is
safe whatever the sources deliver by then, because every repeat is of an earlier position
(`Repeats.LooksBack`), and the numbers of all earlier positions are known. It is stated of a placing that
has no result when it looks up a number that is not there (`BatchState.placeAllInRange`), and it holds of
what a pass finds and of any checkpoint that is accepted.

A batch places its blocks as one run, whatever items they are of (`BatchState.placeEach`,
`placeAll_eq_placeEach`), and at every moment the numbers so far stand for the blocks so far. So if the
repeats are those of the very blocks that are placed, and a pass does not take two different blocks for
one, then the earlier number stands for the block at hand: it is found there, and all that changes is what
is counted (`placeNext_of_repeat`, `repeats_are_found_and_resolved`).
-/

namespace DedupImage

namespace Repeats

variable {identity : ByteArray → UInt64} {r : Repeats}

/-- Every repeat is of an earlier position. -/
def LooksBack (r : Repeats) : Prop :=
  ∀ later earlier, r.earlier? later = some earlier → earlier < later

theorem looksBack_of_find {items : List ScheduledItem} (h : find identity items = .ok r) :
    r.LooksBack := by
  intro later earlier hpair
  have hmem : (later, earlier) ∈ r.toList := Std.TreeMap.mem_toList_iff_getElem?_eq_some.mpr hpair
  exact ((forward_of_find h).ordered _ hmem).1

theorem looksBack_of_parse {data : ByteArray} {n : Nat} (h : Checkpoint.parse data n = .ok r) :
    r.LooksBack := by
  obtain ⟨taken, pairs, hlaid⟩ := Checkpoint.exists_layout_of_parse h
  obtain ⟨-, hfits, rfl⟩ := hlaid.of_parse h
  intro later earlier hpair
  exact (Checkpoint.fits_of_enterAll (p := (later, earlier)) hfits hpair).1

end Repeats

namespace BatchState

open Placement

variable {ι : Type} [Catalog ι] {s t : BatchState ι} {repeats : Repeats} {data : ByteArray}

/-! ## Look-ups in range -/

omit [Catalog ι] in
/-- The batch after a call, and the call's answer. -/
def accept (s : BatchState ι) : Except Failure BlockNum × Placement ι →
    Except Failure BlockNum × BatchState ι
  | (.error e, p) => (.error e, { s with placement := p })
  | (.ok b, p) => (.ok b, { s with placement := p, placed := s.placed.push b })

/-- Place the block at the next position. Looking up a number that is not there has no result. -/
def placeNextInRange (s : BatchState ι) (repeats : Repeats) (data : ByteArray) :
    Option (Except Failure BlockNum × BatchState ι) :=
  match repeats.earlier? s.placed.size with
  | none => some (s.accept (s.placement.place data))
  | some position =>
    s.placed[position]?.map fun earlier => s.accept (s.placement.placeRepeat data earlier)

/-- `placeBlocks` with checked look-ups. -/
def placeBlocksInRange (s : BatchState ι) (repeats : Repeats) (list : Array BlockNum) :
    List ByteArray → Option (Except Failure (Array BlockNum) × BatchState ι)
  | [] => some (.ok list, s)
  | data :: rest =>
    match s.placeNextInRange repeats data with
    | none => none
    | some (.error e, s) => some (.error e, s)
    | some (.ok b, s) => placeBlocksInRange s repeats (list.push b) rest

/-- `placeItem` with checked look-ups. -/
def placeItemInRange (s : BatchState ι) (repeats : Repeats) (opening : Nat) (item : ScheduledItem) :
    Option (Except Failure Unit × BatchState ι) :=
  match item.delivery opening with
  | .error e => some (.error (.storage e), s)
  | .ok (blocks, ending) =>
    match s.placeBlocksInRange repeats #[] blocks.toList with
    | none => none
    | some (.error e, s) => some (.error e, s)
    | some (.ok list, s) =>
      match ending with
      | some e => some (.error (.storage e), s)
      | none => some (.ok (), { s with lists := s.lists.setIfInBounds item.slot list })

/-- `placeAll` with checked look-ups. -/
def placeAllInRange (s : BatchState ι) (repeats : Repeats) (opening : Nat) :
    List ScheduledItem → Option (Except Failure Unit × BatchState ι)
  | [] => some (.ok (), s)
  | item :: rest =>
    match s.placeItemInRange repeats opening item with
    | none => none
    | some (.error e, s) => some (.error e, s)
    | some (.ok (), s) => placeAllInRange s repeats opening rest

theorem placeNextInRange_eq (h : repeats.LooksBack) (s : BatchState ι) (data : ByteArray) :
    s.placeNextInRange repeats data = some (s.placeNext repeats data) := by
  unfold placeNextInRange placeNext
  cases hpair : repeats.earlier? s.placed.size with
  | none => rfl
  | some position =>
    have hlt : position < s.placed.size := h _ _ hpair
    simp only [Option.bind_some, Array.getElem?_eq_getElem hlt, Option.map_some]
    rfl

theorem placeBlocksInRange_eq (h : repeats.LooksBack) (s : BatchState ι) (list : Array BlockNum)
    (datas : List ByteArray) :
    s.placeBlocksInRange repeats list datas = some (s.placeBlocks repeats list datas) := by
  induction datas generalizing s list with
  | nil => rfl
  | cons data rest ih =>
    rw [placeBlocksInRange, placeBlocks, placeNextInRange_eq h]
    rcases s.placeNext repeats data with ⟨e | b, t⟩
    · rfl
    · exact ih t (list.push b)

theorem placeItemInRange_eq (h : repeats.LooksBack) (s : BatchState ι) (opening : Nat)
    (item : ScheduledItem) :
    s.placeItemInRange repeats opening item = some (s.placeItem repeats opening item) := by
  rw [placeItemInRange, placeItem_eq]
  rcases item.delivery opening with e | ⟨blocks, ending⟩
  · rfl
  · dsimp only
    rw [placeBlocksInRange_eq h]
    rcases s.placeBlocks repeats #[] blocks.toList with ⟨e | list, t⟩
    · rfl
    · cases ending <;> rfl

/-- **No look-up is out of range**, whatever is delivered. -/
theorem placeAllInRange_eq (h : repeats.LooksBack) (s : BatchState ι) (opening : Nat)
    (items : List ScheduledItem) :
    s.placeAllInRange repeats opening items = some (s.placeAll repeats opening items) := by
  induction items generalizing s with
  | nil => rfl
  | cons item rest ih =>
    rw [placeAllInRange, placeAll, placeItemInRange_eq h]
    rcases s.placeItem repeats opening item with ⟨e | ⟨⟩, t⟩
    · rfl
    · exact ih t

/-! ## A batch as one run of blocks -/

/-- Place blocks in order until one fails, whatever items they are of. -/
def placeEach (s : BatchState ι) (repeats : Repeats) :
    List ByteArray → Except Failure Unit × BatchState ι
  | [] => (.ok (), s)
  | data :: rest =>
    match s.placeNext repeats data with
    | (.error e, s) => (.error e, s)
    | (.ok _, s) => placeEach s repeats rest

theorem placeEach_append (s : BatchState ι) (repeats : Repeats) (first rest : List ByteArray) :
    s.placeEach repeats (first ++ rest) =
      match s.placeEach repeats first with
      | (.error e, t) => (.error e, t)
      | (.ok (), t) => t.placeEach repeats rest := by
  induction first generalizing s with
  | nil => rfl
  | cons data first ih =>
    rw [List.cons_append, placeEach, placeEach]
    rcases s.placeNext repeats data with ⟨e | b, t⟩
    · rfl
    · exact ih t

/-- Placing a block does not look at the lists. -/
theorem placeNext_withLists (s : BatchState ι) (repeats : Repeats) (data : ByteArray)
    (lists : Array (Array BlockNum)) :
    { s with lists }.placeNext repeats data =
      ((s.placeNext repeats data).1, { (s.placeNext repeats data).2 with lists }) := by
  rw [placeNext, placeNext]
  dsimp only
  split <;> rfl

theorem placeEach_withLists (s : BatchState ι) (repeats : Repeats) (datas : List ByteArray)
    (lists : Array (Array BlockNum)) :
    { s with lists }.placeEach repeats datas =
      ((s.placeEach repeats datas).1, { (s.placeEach repeats datas).2 with lists }) := by
  induction datas generalizing s with
  | nil => rfl
  | cons data rest ih =>
    rw [placeEach, placeEach, placeNext_withLists]
    rcases s.placeNext repeats data with ⟨e | b, t⟩
    · rfl
    · exact ih t

/-- The blocks of an item are a run. -/
theorem placeBlocks_eq_placeEach (s : BatchState ι) (repeats : Repeats) (list : Array BlockNum)
    (datas : List ByteArray) :
    (s.placeBlocks repeats list datas).1.map (fun _ => ()) = (s.placeEach repeats datas).1 ∧
      (s.placeBlocks repeats list datas).2 = (s.placeEach repeats datas).2 := by
  induction datas generalizing s list with
  | nil => exact ⟨rfl, rfl⟩
  | cons data rest ih =>
    rw [placeBlocks, placeEach]
    rcases s.placeNext repeats data with ⟨e | b, t⟩
    · exact ⟨rfl, rfl⟩
    · exact ih t (list.push b)

theorem placeEach_calls (s : BatchState ι) (repeats : Repeats) (datas : List ByteArray) :
    Calls s.placement (s.placeEach repeats datas).2.placement :=
  (s.placeBlocks_eq_placeEach repeats #[] datas).2 ▸ s.placeBlocks_calls repeats #[] datas

/-- **A batch is one run of its blocks**, apart from the lists that it delivers. -/
theorem placeAll_eq_placeEach {opening : Nat} {items : List ScheduledItem} {blocks : List ByteArray}
    (h : batchBlocks opening items = .ok blocks) (s : BatchState ι) (repeats : Repeats) :
    ∃ lists, s.placeAll repeats opening items =
      ((s.placeEach repeats blocks).1, { (s.placeEach repeats blocks).2 with lists }) := by
  induction items generalizing s blocks with
  | nil =>
    obtain rfl := Except.ok.inj h
    exact ⟨s.lists, rfl⟩
  | cons item rest ih =>
    rw [batchBlocks] at h
    rw [placeAll, placeItem_eq]
    rcases hdelivery : item.delivery opening with e | ⟨datas, _ | e⟩ <;> rw [hdelivery] at h
    · cases h
    · dsimp only at h ⊢
      cases hrest : batchBlocks opening rest with
      | error e =>
        rw [hrest] at h
        cases h
      | ok more =>
        rw [hrest] at h
        obtain rfl := Except.ok.inj h
        obtain ⟨hanswer, hstate⟩ := s.placeBlocks_eq_placeEach repeats #[] datas.toList
        rw [placeEach_append]
        rcases hblocks : s.placeBlocks repeats #[] datas.toList with ⟨e | list, t⟩ <;>
          rcases heach : s.placeEach repeats datas.toList with ⟨e' | ⟨⟩, t'⟩ <;>
          rw [hblocks, heach] at hanswer hstate <;> cases hanswer <;> obtain rfl : t = t' := hstate
        · exact ⟨t.lists, rfl⟩
        · obtain ⟨lists, hlists⟩ := ih hrest { t with lists := t.lists.setIfInBounds item.slot list }
          refine ⟨lists, hlists.trans ?_⟩
          rw [placeEach_withLists]
    · cases h

/-! ## Numbers so far -/

/-- The numbers so far stand for these blocks. -/
def StandsFor (s : BatchState ι) (blocks : List ByteArray) : Prop :=
  List.Forall₂ s.placement.Resolves s.placed.toList blocks

/-- After another block the numbers stand for one block more. -/
theorem StandsFor.next {blocks : List ByteArray} (h : s.StandsFor blocks) (hp : s.placement.Consistent)
    {b : BlockNum} (hnext : s.placeNext repeats data = (.ok b, t)) (hfit : t.placement.Addressable) :
    t.StandsFor (blocks ++ [data]) ∧ t.placement.Consistent := by
  have hcalls := s.placeNext_calls repeats data
  have hlast := placeNext_resolves hp hnext hfit
  have hplaced : t.placed = s.placed.push b := by
    rcases s.placeNext_cases repeats data with ⟨e, p, -, heq⟩ | ⟨b', p, -, heq⟩ <;> rw [heq] at hnext
    · cases (Prod.mk.inj hnext).1
    · obtain ⟨hb, rfl⟩ := Prod.mk.inj hnext
      obtain rfl := Except.ok.inj hb
      rfl
  rw [hnext] at hcalls
  refine ⟨?_, hcalls.consistent hp hfit⟩
  unfold StandsFor
  rw [hplaced, Array.toList_push]
  exact List.rel_append (h.imp fun _ _ hb => hcalls.extends.resolves hb) (.cons hlast .nil)

theorem StandsFor.each {blocks datas : List ByteArray} (h : s.StandsFor blocks)
    (hp : s.placement.Consistent) (heach : s.placeEach repeats datas = (.ok (), t))
    (hfit : t.placement.Addressable) : t.StandsFor (blocks ++ datas) := by
  induction datas generalizing s blocks with
  | nil =>
    obtain ⟨-, rfl⟩ := Prod.mk.inj heach
    rwa [List.append_nil]
  | cons data rest ih =>
    rw [placeEach] at heach
    rcases hnext : s.placeNext repeats data with ⟨e | b, s'⟩ <;> rw [hnext] at heach
    · cases (Prod.mk.inj heach).1
    · have hlater := s'.placeEach_calls repeats rest
      dsimp only at heach
      rw [heach] at hlater
      obtain ⟨hstands, hconsistent⟩ := h.next hp hnext (hlater.extends.addressable hfit)
      have hrest := ih hstands hconsistent heach
      rwa [List.append_assoc] at hrest

/-! ## Resolving a repeat -/

omit [Catalog ι] in
/-- The batch after a repeat: the number is noted, and of the placement only the counts change. -/
def afterRepeat (s : BatchState ι) (b : BlockNum) : BatchState ι :=
  { s with
    placement :=
      { s.placement with
        stats :=
          { s.placement.stats with
            placed := s.placement.stats.placed + 1
            reused := s.placement.stats.reused + 1 } }
    placed := s.placed.push b }

/-- A block that is the one its position repeats gets that block's number. -/
theorem placeNext_of_repeat {e : Nat} {b : BlockNum} (hpair : repeats.earlier? s.placed.size = some e)
    (hb : s.placed[e]? = some b) (hdata : s.placement.Resolves b data) :
    s.placeNext repeats data = (.ok b, s.afterRepeat b) := by
  obtain ⟨record, hrecord, hstores⟩ := hdata
  have hfound : (repeats.earlier? s.placed.size).bind (s.placed[·]?) = some b := by
    rw [hpair, Option.bind_some, hb]
  unfold placeNext
  rw [hfound]
  simp only [placeRepeat, hrecord, hstores, if_true]
  rfl

/-- Numbers that were noted stay. -/
theorem placeEach_placed (s : BatchState ι) (repeats : Repeats) (datas : List ByteArray) :
    ∃ new, (s.placeEach repeats datas).2.placed = s.placed ++ new := by
  induction datas generalizing s with
  | nil => exact ⟨#[], by rw [placeEach, Array.append_empty]⟩
  | cons data rest ih =>
    rw [placeEach]
    rcases s.placeNext_cases repeats data with ⟨e, p, -, h⟩ | ⟨b, p, -, h⟩ <;> rw [h]
    · exact ⟨#[], by rw [Array.append_empty]⟩
    · obtain ⟨new, hnew⟩ := ih { s with placement := p, placed := s.placed.push b }
      exact ⟨#[b] ++ new, by rw [hnew, Array.push_eq_append, Array.append_assoc]⟩

theorem size_placed_of_placeEach {datas : List ByteArray}
    (h : s.placeEach repeats datas = (.ok (), t)) : t.placed.size = s.placed.size + datas.length := by
  induction datas generalizing s with
  | nil =>
    obtain ⟨-, rfl⟩ := Prod.mk.inj h
    rfl
  | cons data rest ih =>
    rw [placeEach] at h
    rcases s.placeNext_cases repeats data with ⟨e, p, -, hnext⟩ | ⟨b, p, -, hnext⟩ <;> rw [hnext] at h
    · cases (Prod.mk.inj h).1
    · rw [ih h, Array.size_push, List.length_cons]
      omega

theorem size_placed_of_take {blocks : List ByteArray} {p : Nat} (hplaced : s.placed = #[])
    (hp : p ≤ blocks.length) (h : s.placeEach repeats (blocks.take p) = (.ok (), t)) :
    t.placed.size = p := by
  rw [size_placed_of_placeEach h, hplaced, List.length_take_of_le hp]
  exact Nat.zero_add p

/-- What a pass found of the very blocks that are placed is resolved when its position comes, unless two
different blocks were taken for one. -/
theorem placeNext_of_found {identity : ByteArray → UInt64} {blocks : List ByteArray} {p e : Nat}
    (hinjective : ∀ a ∈ blocks, ∀ b ∈ blocks, identity a = identity b → a.size = b.size → a = b)
    (hpair : repeats.earlier? p = some e) (hlt : e < p) (halike : Repeats.Alike identity blocks e p)
    (hplaced : s.placed = #[]) (hp : s.placement.Consistent)
    (heach : s.placeEach repeats (blocks.take p) = (.ok (), t)) (hfit : t.placement.Addressable) :
    ∃ b data, t.placed[e]? = some b ∧ blocks[p]? = some data ∧
      t.placeNext repeats data = (.ok b, t.afterRepeat b) := by
  obtain ⟨data', data, hdata', hdata, hidentity, hsize⟩ := halike
  obtain rfl : data' = data := hinjective data' (List.mem_of_getElem? hdata') data
    (List.mem_of_getElem? hdata) hidentity hsize
  have hstart : s.StandsFor [] := by
    unfold StandsFor
    rw [hplaced]
    exact .nil
  have hstands : t.StandsFor (blocks.take p) := hstart.each hp heach hfit
  have hcount : t.placed.size = p :=
    size_placed_of_take hplaced (List.getElem?_eq_some_iff.mp hdata).1.le heach
  have hearlier : e < t.placed.size := by omega
  have hresolves : t.placement.Resolves t.placed[e] data' := by
    have hat := hstands.get (i := e) (by rwa [Array.length_toList])
      (by rw [← hstands.length_eq]; rwa [Array.length_toList])
    rw [List.get_eq_getElem, List.get_eq_getElem, List.getElem_take, Array.getElem_toList] at hat
    rwa [(List.getElem?_eq_some_iff.mp hdata').2] at hat
  refine ⟨t.placed[e], data', Array.getElem?_eq_getElem hearlier, hdata, ?_⟩
  exact placeNext_of_repeat (hcount.symm ▸ hpair) (Array.getElem?_eq_getElem hearlier) hresolves

/-- Once the batch is placed, both positions have one number. -/
theorem placed_of_found {identity : ByteArray → UInt64} {blocks : List ByteArray} {p e : Nat}
    (hinjective : ∀ a ∈ blocks, ∀ b ∈ blocks, identity a = identity b → a.size = b.size → a = b)
    (hpair : repeats.earlier? p = some e) (hlt : e < p) (halike : Repeats.Alike identity blocks e p)
    (hplaced : s.placed = #[]) (hp : s.placement.Consistent)
    (heach : s.placeEach repeats blocks = (.ok (), t)) (hfit : t.placement.Addressable) :
    ∃ b, t.placed[p]? = some b ∧ t.placed[e]? = some b := by
  have hsplit := s.placeEach_append repeats (blocks.take p) (blocks.drop p)
  rw [List.take_append_drop, heach] at hsplit
  rcases hbefore : s.placeEach repeats (blocks.take p) with ⟨e' | ⟨⟩, u⟩ <;> rw [hbefore] at hsplit
  · cases (Prod.mk.inj hsplit).1
  · dsimp only at hsplit
    have hlater := u.placeEach_calls repeats (blocks.drop p)
    rw [← hsplit] at hlater
    obtain ⟨b, data, hb, hdata, hnext⟩ := placeNext_of_found hinjective hpair hlt halike hplaced hp hbefore
      (hlater.extends.addressable hfit)
    obtain ⟨hlength, hget⟩ := List.getElem?_eq_some_iff.mp hdata
    rw [List.drop_eq_getElem_cons hlength, hget, placeEach, hnext] at hsplit
    dsimp only at hsplit
    obtain ⟨new, hnew⟩ := (u.afterRepeat b).placeEach_placed repeats (blocks.drop (p + 1))
    rw [← hsplit] at hnew
    have hsize : u.placed.size = p := size_placed_of_take hplaced hlength.le hbefore
    have hfinal : t.placed = (u.placed.push b) ++ new := hnew
    have hb' : e < u.placed.size := by omega
    refine ⟨b, ?_, ?_⟩
    · rw [hfinal, Array.getElem?_append_left (by rw [Array.size_push]; omega), ← hsize,
        Array.getElem?_push_size]
    · rw [hfinal, Array.getElem?_append_left (by rw [Array.size_push]; omega),
        Array.getElem?_push, if_neg (by omega), hb]

end BatchState

open BatchState Placement

/-- **A pass finds exactly the repeats, and they are safe to use.** -/
theorem repeats_are_found_and_resolved {ι : Type} [Catalog ι] (identity : ByteArray → UInt64)
    (items : List ScheduledItem) :
    -- the blocks are numbered in order, and a position repeats the first block alike
    (∀ blocks, batchBlocks 0 items = .ok blocks →
      ∃ r, Repeats.find identity items = .ok r ∧ r.blockCount = blocks.length ∧
        (∀ p, (∃ e, r.earlier? p = some e) ↔ ∃ i < p, Repeats.Alike identity blocks i p) ∧
        ∀ p e, r.earlier? p = some e →
          e < p ∧ IsLeast {i | Repeats.Alike identity blocks i p} e ∧ r.earlier? e = none) ∧
    -- repeats that a pass found or that were read look back
    (∀ r, Repeats.find identity items = .ok r → r.LooksBack) ∧
    (∀ data n r, Checkpoint.parse data n = .ok r → r.LooksBack) ∧
    -- with repeats that look back no number is looked up that is not there
    (∀ (s : BatchState ι) (r : Repeats) (opening : Nat) (items : List ScheduledItem), r.LooksBack →
      s.placeAllInRange r opening items = some (s.placeAll r opening items)) ∧
    -- of the same blocks, none taken for another, every repeat is resolved
    (∀ (s : BatchState ι) (r : Repeats) (opening : Nat) (blocks : List ByteArray),
      Repeats.find identity items = .ok r →
      batchBlocks 0 items = .ok blocks → batchBlocks opening items = .ok blocks →
      (∀ a ∈ blocks, ∀ b ∈ blocks, identity a = identity b → a.size = b.size → a = b) →
      s.placed = #[] → s.placement.Consistent →
      (∃ lists, s.placeAll r opening items =
        ((s.placeEach r blocks).1, { (s.placeEach r blocks).2 with lists })) ∧
      (∀ p e t, r.earlier? p = some e → s.placeEach r (blocks.take p) = (.ok (), t) →
        t.placement.Addressable →
        ∃ b data, t.placed[e]? = some b ∧ blocks[p]? = some data ∧
          t.placeNext r data = (.ok b, t.afterRepeat b)) ∧
      ∀ p e t, r.earlier? p = some e → s.placeAll r opening items = (.ok (), t) →
        t.placement.Addressable → ∃ b, t.placed[p]? = some b ∧ t.placed[e]? = some b) := by
  refine ⟨fun blocks => Repeats.find_eq_ok identity, fun r => Repeats.looksBack_of_find,
    fun data n r => Repeats.looksBack_of_parse,
    fun s r opening items h => placeAllInRange_eq h s opening items, ?_⟩
  · intro s r opening blocks hr hblocks hagain hinjective hplaced hp
    obtain ⟨r', hr', -, -, hfirst⟩ := Repeats.find_eq_ok identity hblocks
    obtain rfl := Except.ok.inj (hr.symm.trans hr')
    obtain ⟨lists, hrun⟩ := placeAll_eq_placeEach hagain s r
    refine ⟨⟨lists, hrun⟩, fun p e t hpair heach hfit => ?_, fun p e t hpair hall hfit => ?_⟩ <;>
      obtain ⟨hlt, hleast, -⟩ := hfirst p e hpair
    · exact placeNext_of_found hinjective hpair hlt hleast.1 hplaced hp heach hfit
    · rw [hrun] at hall
      obtain ⟨hanswer, rfl⟩ := Prod.mk.inj hall
      exact placed_of_found (t := (s.placeEach r blocks).2) hinjective hpair hlt hleast.1 hplaced hp
        (Prod.ext hanswer rfl) hfit

set_option maxRecDepth 1000000 in
/-- The blocks `1 2`, `2 3` and `1 2`, of which the last repeats the first: it gets its number, and only the
counts change. -/
theorem repeated_pair_is_resolved :
    let identity : ByteArray → UInt64 := fun b => (numberAt b 0 2).toUInt64
    let items : List ScheduledItem := [⟨.ofBytes ⟨#[97]⟩ ⟨#[1, 2, 2, 3, 1, 2]⟩, 0, 2, 0⟩]
    let s : BatchState _ := { placement := collidingPlacement .prepass, lists := #[#[]] }
    let r : Repeats := ⟨3, (∅ : Std.TreeMap Nat Nat).insert 2 0⟩
    let t := (s.placeEach r [⟨#[1, 2]⟩, ⟨#[2, 3]⟩]).2
    Repeats.find identity items = .ok r ∧ r.LooksBack ∧
      s.placeAllInRange r 1 items = some (s.placeAll r 1 items) ∧
      ∃ b data, t.placed[0]? = some b ∧ t.placeNext r data = (.ok b, t.afterRepeat b) := by
  intro identity items s r t
  obtain ⟨-, hback, -, hrange, hresolved⟩ := repeats_are_found_and_resolved
    (ι := BlockIndex (TableSegment BlockNum) (TableSegment Location)) identity items
  have hfind : Repeats.find identity items = .ok r := by cbv
  have hblocks (opening : Nat) :
      batchBlocks opening items = .ok [⟨#[1, 2]⟩, ⟨#[2, 3]⟩, ⟨#[1, 2]⟩] := by cbv
  have hanswer : (s.placeEach r [⟨#[1, 2]⟩, ⟨#[2, 3]⟩]).1 = .ok () := by cbv
  obtain ⟨-, hearlier, -⟩ := hresolved s r 1 _ hfind (hblocks 0) (hblocks 1) (by decide) rfl
    (collidingPlacement_begins .prepass).consistent
  have hfit : t.placement.Addressable := ⟨by decide +kernel, by decide +kernel⟩
  obtain ⟨b, data, hb, -, hnext⟩ := hearlier 2 0 t (by cbv) (Prod.ext hanswer rfl) hfit
  exact ⟨hfind, hback r hfind, hrange s r 1 items (hback r hfind), b, data, hb, hnext⟩

end DedupImage
