import DedupImage.Image.Reading
import DedupImage.Image.Script
import DedupImage.Proofs.Image.Medium
import DedupImage.Proofs.Layout.Locator
import DedupImage.Proofs.Layout.Superblock
import Mathlib.Data.List.Forall2

/-!
# Records, from the writer to the reader

The writer of an image and its reader walk along the records in the same steps, dense or sparse, so each
follows the other: the writes of the records are in order (`containerRecords_ascending`), and once they
are stored, the reader finds each record where it was put (`readRecords_eq`).
-/

namespace DedupImage

open Medium ImageReader

variable {bytes : ByteArray}

/-! ## One record -/

/-- What is stored is read. -/
theorem exactly_of_stored {position : Nat} {data : ByteArray} (h : Stored bytes ⟨position, data⟩) :
    exactly bytes position data.size = .ok data := by
  unfold exactly
  by_cases hempty : data.size = 0
  · rw [if_pos hempty]
    have hsize : ByteArray.empty.size = data.size := hempty.symm
    congr 1
    apply eq_of_byteAt hsize
    intro i hi
    exact absurd hi (Nat.not_lt_zero i)
  · obtain ⟨hfits, hslice⟩ := holdsAt_iff_slice.mp (h.resolve_left hempty)
    rw [if_neg hempty, if_pos hfits, hslice]

/-- A record is found with its length. -/
theorem recordLength_of_stored {position : Nat} {data : ByteArray}
    (h : ∀ w ∈ recordWrites position data, Stored bytes w) (hsize : data.size < 2 ^ 32) :
    recordLength bytes position = .ok data.size := by
  have hheader := exactly_of_stored (h _ List.mem_cons_self)
  rw [size_numberBytes] at hheader
  have hnumber := numberAt_pushNumber ByteArray.empty recordHeaderSize data.size
  rw [ByteArray.size_empty, Nat.mod_eq_of_lt (show data.size < 256 ^ recordHeaderSize from hsize)]
    at hnumber
  unfold recordLength
  rw [hheader]
  exact congrArg Except.ok hnumber

/-- A record is found with its bytes. -/
theorem exactly_of_record {position : Nat} {data : ByteArray}
    (h : ∀ w ∈ recordWrites position data, Stored bytes w) :
    exactly bytes (position + recordHeaderSize) data.size = .ok data :=
  exactly_of_stored (h _ (List.mem_cons_of_mem _ List.mem_cons_self))

theorem recordWrites_ascending (position : Nat) (data : ByteArray) :
    Ascending position (recordWrites position data) (position + recordHeaderSize + data.size) := by
  refine ⟨Nat.le_refl _, ?_, Nat.le_refl _⟩
  simp [PositionedWrite.stop]

/-! ## The records of containers -/

variable {layout : ImageLayout} {codec : Codec}

/-- Where the next record starts: at its place in a sparse image, else behind the one before. -/
def recordStart (layout : ImageLayout) (id position : Nat) : Nat :=
  if layout.sparse then containerTableStart + id * sparseStride layout.containerSize else position

/-- The first record starts where the container table does. -/
theorem recordStart_zero (layout : ImageLayout) :
    recordStart layout 0 containerTableStart = containerTableStart := by
  unfold recordStart
  by_cases hsparse : layout.sparse = true <;> simp [hsparse]

/-- The record of a container that could be compressed, and the records after it. -/
theorem containerRecords_cons {id position : Nat} {data : ByteArray} {datas : List ByteArray}
    (h : (containerRecords layout codec id position (data :: datas)).failure = none) :
    ∃ packed, codec.compressInto data = .ok packed ∧
      (layout.sparse = true → packed.size ≤ layout.containerSize) ∧
      let first := containerRecords layout codec id position (data :: datas)
      let rest := containerRecords layout codec (id + 1)
        (recordStart layout id position + recordHeaderSize + packed.size) datas
      first.writes = recordWrites (recordStart layout id position) packed ++ rest.writes ∧
        first.stop = rest.stop ∧ rest.failure = none := by
  rw [containerRecords] at h ⊢
  cases hpacked : codec.compressInto data with
  | error e =>
    rw [hpacked] at h
    cases h
  | ok packed =>
    rw [hpacked] at h
    by_cases hlarge : layout.sparse = true ∧ layout.containerSize < packed.size
    · simp [hlarge] at h
    · simp only [if_neg hlarge] at h ⊢
      refine ⟨packed, rfl, ?_, rfl, rfl, h⟩
      intro hsparse
      exact Nat.not_lt.mp fun hlt => hlarge ⟨hsparse, hlt⟩

/-- A record ends before the next one starts. -/
theorem recordStart_succ {id position size : Nat}
    (h : layout.sparse = true → size ≤ layout.containerSize) :
    recordStart layout id position + recordHeaderSize + size ≤
      recordStart layout (id + 1) (recordStart layout id position + recordHeaderSize + size) := by
  unfold recordStart
  by_cases hsparse : layout.sparse = true
  · have := h hsparse
    rw [if_pos hsparse, if_pos hsparse, Nat.succ_mul, sparseStride]
    omega
  · simp [hsparse]

/-- The records are written in order. -/
theorem containerRecords_ascending {id position : Nat} {datas : List ByteArray}
    (h : (containerRecords layout codec id position datas).failure = none) :
    Ascending (recordStart layout id position) (containerRecords layout codec id position datas).writes
      (recordStart layout (id + datas.length)
        (containerRecords layout codec id position datas).stop) := by
  induction datas generalizing id position with
  | nil => exact Nat.le_refl _
  | cons data datas ih =>
    obtain ⟨packed, -, hsparse, hwrites, hstop, hrest⟩ := containerRecords_cons h
    rw [hwrites, hstop, show id + (data :: datas).length = id + 1 + datas.length by simp; omega]
    exact ((recordWrites_ascending _ packed).mono (recordStart_succ hsparse)).append (ih hrest)

/-! ## Batches -/

/-- Records, and behind them, if all of them could be made, those that follow at their end. -/
def RecordScript.andThen (r : RecordScript) (next : Nat → RecordScript) : RecordScript :=
  match r.failure with
  | some _ => r
  | none =>
    { next r.stop with
      writes := r.writes ++ (next r.stop).writes
      compressedBytes := r.compressedBytes + (next r.stop).compressedBytes }

/-- The records of containers that are compressed batch by batch. -/
def batchRecords (layout : ImageLayout) (codec : Codec) (id position : Nat) :
    List (List ByteArray) → RecordScript
  | [] => ⟨[], position, 0, none⟩
  | batch :: rest =>
    (containerRecords layout codec id position batch).andThen fun stop =>
      batchRecords layout codec (id + batch.length) stop rest

theorem containerRecords_append (id position : Nat) (datas datas' : List ByteArray) :
    containerRecords layout codec id position (datas ++ datas') =
      (containerRecords layout codec id position datas).andThen fun stop =>
        containerRecords layout codec (id + datas.length) stop datas' := by
  induction datas generalizing id position with
  | nil => simp [containerRecords, RecordScript.andThen]
  | cons data datas ih =>
    rw [List.cons_append, containerRecords, containerRecords]
    cases codec.compressInto data with
    | error e => rfl
    | ok packed =>
      by_cases hlarge : layout.sparse = true ∧ layout.containerSize < packed.size
      · simp only [if_pos hlarge, RecordScript.andThen]
      · simp only [if_neg hlarge, ih, RecordScript.andThen]
        rw [show id + (data :: datas).length = id + 1 + datas.length by simp; omega]
        generalize containerRecords layout codec (id + 1) _ datas = rest
        cases hfailure : rest.failure with
        | some e => simp only [hfailure]
        | none => simp only [List.append_assoc, Nat.add_assoc]

/-- **How containers are divided into batches makes no difference.** -/
theorem batchRecords_eq (id position : Nat) (batches : List (List ByteArray)) :
    batchRecords layout codec id position batches =
      containerRecords layout codec id position batches.flatten := by
  induction batches generalizing id position with
  | nil => rfl
  | cons batch rest ih =>
    rw [List.flatten_cons, containerRecords_append, batchRecords]
    simp only [ih]

/-! ## Reading the records -/

/-- The record of a container can be read, and has its compressed bytes. -/
def RecordOf (codec : Codec) (bytes : ByteArray) (record : ContainerRecord) (data : ByteArray) : Prop :=
  ∃ packed, codec.compressInto data = .ok packed ∧
    exactly bytes record.position record.size = .ok packed

/-- **The reader follows the writer.** Once the writes are stored, every record is found. -/
theorem readRecords_eq {id position : Nat} {datas : List ByteArray} {s : Superblock}
    (h : (containerRecords layout codec id position datas).failure = none)
    (hstored : ∀ w ∈ (containerRecords layout codec id position datas).writes,
      Stored bytes w ∧ w.data.size < 2 ^ 32)
    (hsize : s.containerSize.toNat = layout.containerSize)
    (hstart : s.containerTableStart.toNat = containerTableStart)
    (htable : recordStart layout (id + datas.length)
      (containerRecords layout codec id position datas).stop ≤ s.blockTableStart.toNat)
    (out : Array ContainerRecord) :
    ∃ records : List ContainerRecord,
      readRecords bytes s layout.sparse id position out datas.length = .ok (out ++ records) ∧
      List.Forall₂ (RecordOf codec bytes) records datas := by
  induction datas generalizing id position out with
  | nil => exact ⟨[], by simp [readRecords], .nil⟩
  | cons data datas ih =>
    obtain ⟨packed, hpacked, hsparse, hwrites, hstop, hrest⟩ := containerRecords_cons h
    rw [hwrites] at hstored
    rw [hstop, show id + (data :: datas).length = id + 1 + datas.length by simp; omega] at htable
    have hrecord : ∀ w ∈ recordWrites (recordStart layout id position) packed, Stored bytes w :=
      fun w hw => (hstored w (List.mem_append_left _ hw)).1
    have hpackedSize : packed.size < 2 ^ 32 :=
      (hstored ⟨_, packed⟩ (List.mem_append_left _ (List.mem_cons_of_mem _ List.mem_cons_self))).2
    have hend : recordStart layout id position + recordHeaderSize + packed.size ≤
        s.blockTableStart.toNat := by
      have hlast := (containerRecords_ascending hrest).low_le
      exact Nat.le_trans (recordStart_succ hsparse) (Nat.le_trans hlast htable)
    obtain ⟨records, hread, hall⟩ := ih hrest (fun w hw => hstored w (List.mem_append_right _ hw)) htable
      (out.push ⟨recordStart layout id position + recordHeaderSize, packed.size⟩)
    refine ⟨⟨recordStart layout id position + recordHeaderSize, packed.size⟩ :: records, ?_,
      .cons ⟨packed, hpacked, exactly_of_record hrecord⟩ hall⟩
    have hplace : (if layout.sparse = true then
        s.containerTableStart.toNat + id * sparseStride s.containerSize.toNat else position) =
        recordStart layout id position := by
      rw [hstart, hsize, recordStart]
    have hfits : ¬ ((layout.sparse = true ∧ s.containerSize.toNat < packed.size) ∨
        s.blockTableStart.toNat < recordStart layout id position + recordHeaderSize + packed.size) := by
      rw [hsize]
      rintro (⟨hs, hlt⟩ | hlt)
      · exact absurd hlt (Nat.not_lt.mpr (hsparse hs))
      · omega
    rw [List.length_cons, readRecords, hplace]
    simp only [recordLength_of_stored hrecord hpackedSize, if_neg hfits]
    rw [hread]
    simp

end DedupImage
