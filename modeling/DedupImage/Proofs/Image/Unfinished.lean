import DedupImage.Proofs.Image.Agreement
import DedupImage.Proofs.Image.Flushing

/-!
# An unfinished image does not open

The writes that a run makes are the first ones of its script, up to one that fails (`Medium.made`), and
they determine what an empty medium holds afterwards. All records start behind the place of the
superblock, however the script ends (`ImageScript.records_behind`). So as long as the superblock is not
written, its place reads as zeros, or the medium has not even as many bytes, and a reader looks at nothing
else (`ImageReader.openImage_blank`).

Whatever stops a build before it writes the superblock, the medium therefore holds nothing that opens
(`unfinished_image_does_not_open`).
-/

namespace DedupImage

/-! ## The writes that are made -/

namespace Medium

variable {m : Medium} {bytes : ByteArray}

/-- Put the bytes of writes in order; a write of no bytes does nothing. -/
def putAll (bytes : ByteArray) (ws : List PositionedWrite) : ByteArray :=
  ws.foldl (fun bytes w => if w.data.size = 0 then bytes else put bytes w) bytes

/-- Those of some writes that are made in order before one of them fails. -/
def made (m : Medium) : List PositionedWrite → List PositionedWrite
  | [] => []
  | w :: rest =>
    match m.writeAll w with
    | .error _ => []
    | .ok m => w :: m.made rest

theorem made_prefix (m : Medium) (ws : List PositionedWrite) : m.made ws <+: ws := by
  induction ws generalizing m with
  | nil => exact List.prefix_rfl
  | cons w rest ih =>
    unfold made
    cases m.writeAll w with
    | error e => exact List.nil_prefix
    | ok next => exact (List.prefix_cons_inj w).mpr (ih next)

theorem bytes_writeAll {m' : Medium} {w : PositionedWrite} (h : m.writeAll w = .ok m') :
    m'.bytes = (if w.data.size = 0 then m.bytes else put m.bytes w) ∧
      m'.flushFailure = m.flushFailure := by
  by_cases hempty : w.data.size = 0
  · rw [writeAll, if_pos hempty] at h
    obtain rfl := Except.ok.inj h
    exact ⟨(if_pos hempty).symm, rfl⟩
  · rcases writeAll_cases h with ⟨hno, -⟩ | ⟨-, rfl⟩
    · exact absurd hno hempty
    · exact ⟨(if_neg hempty).symm, rfl⟩

/-- What is on the medium comes from the writes that were made. -/
theorem bytes_writeEach (m : Medium) (ws : List PositionedWrite) :
    (m.writeEach ws).2.bytes = putAll m.bytes (m.made ws) := by
  induction ws generalizing m with
  | nil => rfl
  | cons w rest ih =>
    unfold writeEach made
    cases hwrite : m.writeAll w with
    | error e => rfl
    | ok next =>
      dsimp only
      rw [ih next, (bytes_writeAll hwrite).1]
      rfl

theorem flushFailure_writeEach (m : Medium) (ws : List PositionedWrite) :
    (m.writeEach ws).2.flushFailure = m.flushFailure := by
  induction ws generalizing m with
  | nil => rfl
  | cons w rest ih =>
    unfold writeEach
    cases hwrite : m.writeAll w with
    | error e => rfl
    | ok next => exact (ih next).trans (bytes_writeAll hwrite).2

theorem writeEach_append (m : Medium) (ws vs : List PositionedWrite) :
    m.writeEach (ws ++ vs) =
      match m.writeEach ws with
      | (.error e, m) => (.error e, m)
      | (.ok (), m) => m.writeEach vs := by
  induction ws generalizing m with
  | nil => rfl
  | cons w rest ih =>
    rw [List.cons_append, writeEach, writeEach]
    cases m.writeAll w with
    | error e => rfl
    | ok next => exact ih next

/-- All writes are made if none of them fails. -/
theorem made_eq_self_iff {ws : List PositionedWrite} :
    m.made ws = ws ↔ (m.writeEach ws).1 = .ok () := by
  induction ws generalizing m with
  | nil => exact ⟨fun _ => rfl, fun _ => rfl⟩
  | cons w rest ih =>
    unfold writeEach made
    cases m.writeAll w with
    | error e => simp
    | ok next => simpa using ih

/-- Writes behind a position leave what is before it. -/
theorem byteAt_putAll {low i : Nat} {ws : List PositionedWrite} (hws : ∀ w ∈ ws, low ≤ w.position)
    (hi : i < low) : byteAt (putAll bytes ws) i = byteAt bytes i := by
  induction ws generalizing bytes with
  | nil => rfl
  | cons w rest ih =>
    have hlow := hws w List.mem_cons_self
    refine (ih fun v hv => hws v (List.mem_cons_of_mem w hv)).trans ?_
    dsimp only
    split
    · rfl
    · rw [byteAt_put, if_neg (by omega)]

end Medium

/-! ## The writes of an image -/

namespace ImageScript

open Medium

/-- Records start where they are told to or behind it, also if not all of them can be made. -/
theorem containerRecords_behind (layout : ImageLayout) (codec : Codec) (id : Nat) {position : Nat}
    (hposition : containerTableStart ≤ position) (datas : List ByteArray) :
    (∀ w ∈ (containerRecords layout codec id position datas).writes,
      containerTableStart ≤ w.position) ∧
      containerTableStart ≤ (containerRecords layout codec id position datas).stop := by
  induction datas generalizing id position with
  | nil => exact ⟨fun w hw => absurd hw List.not_mem_nil, hposition⟩
  | cons data rest ih =>
    unfold containerRecords
    cases codec.compressInto data with
    | error e => exact ⟨fun w hw => absurd hw List.not_mem_nil, hposition⟩
    | ok packed =>
      dsimp only
      split
      · exact ⟨fun w hw => absurd hw List.not_mem_nil, hposition⟩
      · have hstart : containerTableStart ≤ recordStart layout id position := by
          unfold recordStart
          split
          · exact Nat.le_add_right _ _
          · exact hposition
        have hnext := ih (id + 1)
          (show containerTableStart ≤ recordStart layout id position + recordHeaderSize + packed.size by
            omega)
        refine ⟨?_, hnext.2⟩
        intro w hw
        rcases List.mem_append.mp hw with hw | hw
        · exact hstart.trans ((recordWrites_ascending _ packed).mem hw).1
        · exact hnext.1 w hw

/-- **All records are behind the place of the superblock**, whatever the layout, and however the script
ends. -/
theorem records_behind (layout : ImageLayout) (codec : Codec) (containers : List ByteArray)
    (locations : List Location) :
    ∀ w ∈ (of layout codec containers locations).records, Superblock.size ≤ w.position := by
  obtain ⟨hwrites, hstop⟩ :=
    containerRecords_behind layout codec 0 (Nat.le_refl containerTableStart) containers
  unfold of
  dsimp only
  split
  · exact hwrites
  · split
    · exact hwrites
    · split
      · exact hwrites
      · rename_i packed _
        intro w hw
        rcases List.mem_append.mp hw with hw | hw
        · exact hwrites w hw
        · have htable := ((recordWrites_ascending _ packed).mem hw).1
          split at htable
          · exact Nat.le_trans (Nat.le_add_right _ _) htable
          · exact Nat.le_trans hstop htable

/-- A run makes the writes of its script until one fails, and flushes if there are all of them. -/
theorem run_eq (s : ImageScript) (m : Medium) :
    s.run m =
      match m.writeEach s.writes with
      | (.error e, m) => (.error (.storage e), m)
      | (.ok (), m) =>
        match s.closing with
        | .error e => (.error e, m)
        | .ok (_, written) =>
          match m.flush with
          | .error e => (.error (.storage e), m)
          | .ok () => (.ok written, m) := by
  unfold run writes
  cases s.closing with
  | error e => rfl
  | ok closing =>
    obtain ⟨superblock, written⟩ := closing
    dsimp only
    rw [writeEach_append]
    rcases m.writeEach s.records with ⟨e | ⟨⟩, before⟩
    · rfl
    · dsimp only
      unfold writeEach
      cases before.writeAll ⟨0, superblock.bytes⟩ <;> rfl

/-- The superblock is the last write. -/
theorem made_cases (s : ImageScript) (m : Medium) :
    m.made s.writes <+: s.records ∨
      ∃ superblock written, s.closing = .ok (superblock, written) ∧
        m.made s.writes = s.records ++ [⟨0, superblock.bytes⟩] := by
  have hfirst := m.made_prefix s.writes
  unfold writes at hfirst ⊢
  cases hclosing : s.closing with
  | error e =>
    rw [hclosing] at hfirst
    exact .inl hfirst
  | ok closing =>
    obtain ⟨superblock, written⟩ := closing
    rw [hclosing] at hfirst
    rcases List.prefix_concat_iff.mp hfirst with hall | hsome
    · exact .inr ⟨superblock, written, rfl, hall⟩
    · exact .inl hsome

/-- A run that succeeds has written the superblock. If one fails after that, it is flushing that failed. -/
theorem closes_of_run {s : ImageScript} {m : Medium}
    (hbehind : ∀ w ∈ s.records, Superblock.size ≤ w.position) :
    (∀ written, (s.run m).1 = .ok written →
      ∃ superblock : Superblock, ⟨0, superblock.bytes⟩ ∈ m.made s.writes) ∧
    ∀ e, (s.run m).1 = .error e →
      (∃ superblock : Superblock, ⟨0, superblock.bytes⟩ ∈ m.made s.writes) →
      ∃ f, m.flushFailure = some f ∧ e = .storage f := by
  have hflush := m.flushFailure_writeEach s.writes
  constructor
  · intro written hrun
    rcases hall : m.writeEach s.writes with ⟨e | ⟨⟩, m'⟩
    · simp only [run_eq, hall] at hrun
      cases hrun
    · have hmade : m.made s.writes = s.writes := made_eq_self_iff.mpr (by rw [hall])
      rw [hmade]
      unfold writes
      cases hclosing : s.closing with
      | error e =>
        simp only [run_eq, hall, hclosing] at hrun
        cases hrun
      | ok closing =>
        exact ⟨closing.1, List.mem_append_right _ (List.mem_singleton.mpr rfl)⟩
  · intro e hrun hcloses
    obtain ⟨superblock, hsuperblock⟩ := hcloses
    rcases s.made_cases m with hfirst | ⟨last, written, hclosing, hmade⟩
    · exact absurd (hbehind _ (hfirst.mem hsuperblock)) (show ¬ Superblock.size ≤ 0 by decide)
    · have hwrites : s.writes = s.records ++ [⟨0, last.bytes⟩] := by
        unfold writes
        rw [hclosing]
      have hok : (m.writeEach s.writes).1 = .ok () :=
        made_eq_self_iff.mp (hmade.trans hwrites.symm)
      rcases hall : m.writeEach s.writes with ⟨e' | ⟨⟩, m'⟩
      · rw [hall] at hok
        cases hok
      · rw [hall] at hflush
        rw [← hflush]
        simp only [run_eq, hall, hclosing, Medium.flush] at hrun
        cases hfailure : m'.flushFailure with
        | none =>
          simp only [hfailure] at hrun
          cases hrun
        | some f =>
          simp only [hfailure] at hrun
          exact ⟨f, rfl, (Except.error.inj hrun).symm⟩

end ImageScript

/-! ## What does not open -/

namespace ImageReader

/-- Where the place of the superblock reads as zeros, nothing opens, whatever stands behind it. -/
theorem openImage_blank (codecs : Scheme → Codec) (bytes : ByteArray)
    (h : ∀ i < Superblock.size, byteAt bytes i = 0) :
    openImage codecs bytes =
      .error (if bytes.size < Superblock.size then .storage .unexpectedEof else .badMagic 0) := by
  unfold openImage exactly
  rw [if_neg (by decide), Nat.zero_add]
  by_cases hshort : bytes.size < Superblock.size
  · rw [if_neg (Nat.not_le.mpr hshort), if_pos hshort]
  · have hmagic : (Superblock.read (slice bytes 0 Superblock.size)).magic = 0 := by
      have hzero : numberAt (slice bytes 0 Superblock.size) 0 4 = numberAt (zeros 4) 0 4 := by
        apply numberAt_congr
        intro k hk
        rw [Nat.zero_add, byteAt_slice (show k < Superblock.size by unfold Superblock.size; omega),
          Nat.zero_add, h k (show k < Superblock.size by unfold Superblock.size; omega), zeros,
          byteAt_pushCopies_zero]
        rfl
      unfold Superblock.read
      rw [hzero]
      rfl
    have hbad : checkSuperblock (Superblock.read (slice bytes 0 Superblock.size)) =
        .error (.badMagic 0) := by
      unfold checkSuperblock
      rw [hmagic, if_pos (by decide)]
    rw [if_pos (Nat.not_lt.mp hshort), if_neg hshort]
    simp only [hbad]

end ImageReader

/-! ## Builds -/

open Medium ImageReader

namespace ImageBuild

/-- The writes that a build would make if none of them failed; none if its batch cannot be placed. -/
def writes (b : ImageBuild) : List PositionedWrite :=
  match b.placed with
  | .error _ => []
  | .ok p =>
    match p.outcome with
    | .error _ => []
    | .ok () => (b.script p.state.placement).writes

/-- The writes that a build makes. -/
def made (b : ImageBuild) : List PositionedWrite := b.medium.made b.writes

/-- A build writes its superblock. -/
def Closes (b : ImageBuild) : Prop := ∃ superblock : Superblock, ⟨0, superblock.bytes⟩ ∈ b.made

/-- A build has not come to its writes, or makes those of a script. -/
theorem flush_cases (b : ImageBuild) :
    (b.flush.medium = b.medium ∧ b.writes = [] ∧ ∃ e, b.flush.outcome = .error e) ∨
      ∃ p : Placed, b.writes = (b.script p.state.placement).writes ∧
        b.flush.medium = ((b.script p.state.placement).run b.medium).2 ∧
        b.flush.outcome = ((b.script p.state.placement).run b.medium).1.map
          (summary p.state.placement p.state.placed.size) := by
  rw [flush_eq_close]
  unfold writes
  cases b.placed with
  | error e => exact .inl ⟨rfl, rfl, e, rfl⟩
  | ok p =>
    obtain ⟨e | ⟨⟩, state, checkpoint⟩ := p
    · exact .inl ⟨rfl, rfl, e, rfl⟩
    · exact .inr ⟨⟨.ok (), state, checkpoint⟩, rfl, rfl, rfl⟩

/-- What is on the medium comes from the writes that were made. -/
theorem bytes_flush (b : ImageBuild) : b.flush.medium.bytes = putAll b.medium.bytes b.made := by
  unfold made
  rcases b.flush_cases with ⟨hmedium, hwrites, -⟩ | ⟨p, hwrites, hmedium, -⟩
  · rw [hmedium, hwrites]
    rfl
  · rw [hmedium, hwrites, ← bytes_writeEach, ImageScript.run_eq]
    rcases b.medium.writeEach (b.script p.state.placement).writes with ⟨e | ⟨⟩, m⟩
    · rfl
    · dsimp only
      rcases (b.script p.state.placement).closing with e | ⟨superblock, written⟩
      · rfl
      · dsimp only
        cases m.flush <;> rfl

/-- The writes that are made are records, all of them behind the place of the superblock, and at most the
superblock after them. -/
theorem made_eq (b : ImageBuild) :
    ∃ records last, b.made = records ++ last ∧ (∀ w ∈ records, Superblock.size ≤ w.position) ∧
      (last = [] ∨ ∃ superblock : Superblock, last = [⟨0, superblock.bytes⟩]) := by
  unfold made
  rcases b.flush_cases with ⟨-, hwrites, -⟩ | ⟨p, hwrites, -, -⟩
  · rw [hwrites]
    exact ⟨[], [], rfl, fun w hw => absurd hw List.not_mem_nil, .inl rfl⟩
  · have hbehind : ∀ w ∈ (b.script p.state.placement).records, Superblock.size ≤ w.position :=
      ImageScript.records_behind _ _ _ _
    rw [hwrites]
    rcases (b.script p.state.placement).made_cases b.medium with hfirst | ⟨superblock, -, -, hall⟩
    · exact ⟨_, [], (List.append_nil _).symm, fun w hw => hbehind w (hfirst.mem hw), .inl rfl⟩
    · exact ⟨_, _, hall, hbehind, .inr ⟨superblock, rfl⟩⟩

/-- What a build left without its superblock does not open. -/
theorem openImage_of_not_closes {b : ImageBuild} (hempty : b.medium.bytes = ByteArray.empty)
    (h : ¬ b.Closes) (codecs : Scheme → Codec) :
    openImage codecs b.flush.medium.bytes = .error (.badMagic 0) ∨
      openImage codecs b.flush.medium.bytes = .error (.storage .unexpectedEof) := by
  obtain ⟨records, last, hmade, hbehind, hlast⟩ := b.made_eq
  obtain rfl : last = [] := by
    refine hlast.resolve_right ?_
    rintro ⟨superblock, rfl⟩
    exact h ⟨superblock, hmade ▸ List.mem_append_right _ List.mem_cons_self⟩
  rw [List.append_nil] at hmade
  have hblank := openImage_blank codecs b.flush.medium.bytes fun i hi => by
    rw [b.bytes_flush, hmade, byteAt_putAll hbehind hi, hempty]
    rfl
  rw [hblank]
  split
  · exact .inr rfl
  · exact .inl rfl

theorem closes_of_ok {b : ImageBuild} {total : ImageSummary} (h : b.flush.outcome = .ok total) :
    b.Closes := by
  obtain ⟨p, written, hplaced, hdone, hrun, -⟩ := flush_ok_cases h
  unfold Closes made writes
  rw [hplaced]
  dsimp only
  rw [hdone]
  exact (ImageScript.closes_of_run (ImageScript.records_behind _ _ _ _)).1 written hrun

/-- A build that fails after its superblock was written fails in flushing the medium. -/
theorem flushFailure_of_closes {b : ImageBuild} {e : Failure} (h : b.flush.outcome = .error e)
    (hcloses : b.Closes) : ∃ f, b.medium.flushFailure = some f ∧ e = .storage f := by
  unfold Closes made at hcloses
  rcases b.flush_cases with ⟨-, hwrites, -⟩ | ⟨p, hwrites, -, houtcome⟩
  · rw [hwrites] at hcloses
    obtain ⟨superblock, hmem⟩ := hcloses
    exact absurd hmem List.not_mem_nil
  · rw [houtcome] at h
    rw [hwrites] at hcloses
    cases hrun : ((b.script p.state.placement).run b.medium).1 with
    | ok written =>
      rw [hrun] at h
      cases h
    | error e' =>
      rw [hrun] at h
      obtain rfl := Except.error.inj h
      exact (ImageScript.closes_of_run (ImageScript.records_behind _ _ _ _)).2 e' hrun hcloses

/-! ## Main result -/

/-- **An unfinished image does not open.** Take any image, however its batch ends, and any medium that is
empty at first, whichever of its writes fails. All that is on the medium after flushing comes from the
writes that were made; these are records, which are behind the place of the superblock, and last, if at
all, the superblock. If it was not written, then opening what is on the medium fails: the first word is
zero, or there are too few bytes. That is so whenever flushing ends in a failure, unless the superblock was
the last write and it is the medium that could not keep what was written; and if flushing ends well, the
superblock was written. -/
theorem unfinished_image_does_not_open (b : ImageBuild)
    (hempty : b.medium.bytes = ByteArray.empty) :
    b.made <+: b.writes ∧ b.flush.medium.bytes = putAll ByteArray.empty b.made ∧
    (∃ records last, b.made = records ++ last ∧ (∀ w ∈ records, Superblock.size ≤ w.position) ∧
      (last = [] ∨ ∃ superblock : Superblock, last = [⟨0, superblock.bytes⟩])) ∧
    (¬ b.Closes → ∀ codecs,
      openImage codecs b.flush.medium.bytes = .error (.badMagic 0) ∨
        openImage codecs b.flush.medium.bytes = .error (.storage .unexpectedEof)) ∧
    (∀ total, b.flush.outcome = .ok total → b.Closes) ∧
    ∀ e, b.flush.outcome = .error e →
      ¬ b.Closes ∨ ∃ f, b.medium.flushFailure = some f ∧ e = .storage f := by
  refine ⟨b.medium.made_prefix _, hempty ▸ b.bytes_flush, b.made_eq,
    openImage_of_not_closes hempty, fun _ => closes_of_ok, ?_⟩
  intro e herror
  by_cases hcloses : b.Closes
  · exact .inr (flushFailure_of_closes herror hcloses)
  · exact .inl hcloses

/-- A build on a medium that refuses its third write, the length of the block table. -/
def cutOffBuild : ImageBuild :=
  { collidingBuild with
    medium := { refuses := fun n _ _ => if n = 2 then some .connectionReset else none } }

set_option maxRecDepth 1000000 in
/-- The only container was written with its length. What is on the medium has 80 bytes, and does not
open. -/
theorem cut_off_image_does_not_open :
    cutOffBuild.flush.medium.bytes.size = 80 ∧ ¬ cutOffBuild.Closes ∧
      ∀ codecs, openImage codecs cutOffBuild.flush.medium.bytes = .error (.badMagic 0) ∨
        openImage codecs cutOffBuild.flush.medium.bytes = .error (.storage .unexpectedEof) := by
  obtain ⟨-, -, -, hopen, -, herror⟩ := unfinished_image_does_not_open cutOffBuild rfl
  have houtcome : cutOffBuild.flush.outcome = .error (.storage .connectionReset) := by cbv
  have hcloses : ¬ cutOffBuild.Closes := by
    refine (herror _ houtcome).resolve_right ?_
    rintro ⟨f, hf, -⟩
    cases hf
  exact ⟨by cbv, hcloses, hopen hcloses⟩

end ImageBuild

end DedupImage
