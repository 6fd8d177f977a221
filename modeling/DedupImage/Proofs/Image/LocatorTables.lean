import DedupImage.Proofs.Image.Acceptance
import DedupImage.Proofs.Image.Opening

/-!
# Locators there and back

Locators lose nothing in either direction. A location that has a locator is found again behind its bytes,
whatever stands before and behind them, and every stretch as long as an entry is the locator of exactly one
location (`readAt_canonical`). So a table of locators, once it could be written, is read as the locations
that it was written from, and no other table has its bytes.
-/

namespace DedupImage

open ImageReader

/-- The bytes of a locator do not depend on what stands before them. -/
theorem Locator.push_eq (locator : Locator) (out : ByteArray) :
    locator.push out = out ++ locator.push ByteArray.empty := by
  cases locator with
  | packed value => exact pushNumber_eq out 4 value.toNat
  | unpacked container offset =>
    rw [push, push, pushNumber_eq, pushNumber_eq out, pushNumber_eq (pushNumber ByteArray.empty _ _),
      pushNumber_eq ByteArray.empty, ByteArray.empty_append, ByteArray.append_assoc]

namespace LocatorFormat

variable {f : LocatorFormat} {l l' : Location} {locator : Locator} {ls ls' : List Location}
  {data table : ByteArray} {start : Nat}

/-! ## One locator -/

/-- Only in the packed format does a location have no locator. -/
theorem encode_eq_none_iff :
    f.encode l = none ↔ ∃ containerSize, f = packed containerSize ∧
      (containerSize ≤ l.offset ∨
        2 ^ 32 ≤ l.container.toNat * containerSize.toNat + l.offset.toNat) := by
  cases f with
  | packed containerSize =>
    rw [← Option.not_isSome_iff_eq_none, packed_encode_isSome_iff, not_and_or, UInt32.not_lt,
      Nat.not_lt]
    constructor
    · intro h
      exact ⟨containerSize, rfl, h⟩
    · rintro ⟨_, heq, h⟩
      obtain rfl := packed.inj heq
      exact h
  | unpacked =>
    constructor
    · intro h
      cases h
    · rintro ⟨_, heq, -⟩
      cases heq

/-- There is a locator to read wherever there are the bytes of an entry. -/
theorem readAt_isSome_iff (f : LocatorFormat) (data : ByteArray) (start : Nat) :
    (f.readAt data start).isSome = true ↔ start + f.entrySize ≤ data.size := by
  cases f <;>
  · unfold readAt entrySize
    dsimp only
    split
    · exact ⟨fun _ => ‹_›, fun _ => rfl⟩
    · exact ⟨fun h => (nomatch h), fun h => absurd h ‹_›⟩

/-- A number of four bytes is a word. -/
theorem toNat_numberAt (data : ByteArray) (start : Nat) :
    (numberAt data start 4).toUInt32.toNat = numberAt data start 4 :=
  toNat_toUInt32 (numberAt_lt data start 4)

/-- A word is the packed locator of the place that it is decoded to. -/
theorem encode_decode_packed {containerSize : UInt32} (hsize : containerSize ≠ 0) (value : UInt32) :
    (packed containerSize).encode ((packed containerSize).decode (.packed value)) =
      some (.packed value) := by
  have hpos : 0 < containerSize := UInt32.pos_iff_ne_zero.mpr hsize
  have hvalue : (value / containerSize).toNat * containerSize.toNat +
      (value % containerSize).toNat = value.toNat := by
    rw [UInt32.toNat_div, UInt32.toNat_mod, Nat.mul_comm]
    exact Nat.div_add_mod value.toNat containerSize.toNat
  unfold encode decode
  dsimp only
  rw [hvalue, if_pos ⟨UInt32.mod_lt value hpos, value.toNat_lt⟩]
  exact congrArg (some ∘ Locator.packed) UInt32.ofNat_toNat

/-- **What is read as a locator is the locator of a location**, and is written as it was. -/
theorem readAt_canonical (hf : f ≠ packed 0) (h : f.readAt data start = some locator) :
    f.encode (f.decode locator) = some locator ∧
      locator.push ByteArray.empty = slice data start f.entrySize := by
  have hfits : start + f.entrySize ≤ data.size := by
    rw [← readAt_isSome_iff, h]
    rfl
  cases f with
  | packed containerSize =>
    have hsize : containerSize ≠ 0 := fun hzero => hf (congrArg packed hzero)
    unfold entrySize at hfits
    rw [readAt, if_pos hfits] at h
    obtain rfl := Option.some.inj h
    refine ⟨encode_decode_packed hsize _, ?_⟩
    show numberBytes 4 (numberAt data start 4).toUInt32.toNat = _
    rw [toNat_numberAt]
    exact numberBytes_numberAt hfits
  | unpacked =>
    have hwhole : start + 8 ≤ data.size := hfits
    rw [readAt, if_pos hwhole] at h
    obtain rfl := Option.some.inj h
    refine ⟨rfl, ?_⟩
    show pushNumber (numberBytes 4 (numberAt data start 4).toUInt32.toNat) 4
      (numberAt data (start + 4) 4).toUInt32.toNat = slice data start 8
    rw [toNat_numberAt, toNat_numberAt, pushNumber_eq, numberBytes_numberAt (by omega),
      numberBytes_numberAt (by omega), slice_add]

/-- Where the bytes of a location's locator stand, that locator is read. -/
theorem readAt_entry (h : f.encode l = some locator) (before tail : ByteArray) :
    f.readAt (before ++ locator.push ByteArray.empty ++ tail) before.size = some locator := by
  rw [← Locator.push_eq]
  exact readAt_push h before tail

/-- Locations with the same bytes are the same. -/
theorem eq_of_push_eq {locator' : Locator} (h : f.encode l = some locator)
    (h' : f.encode l' = some locator')
    (hbytes : locator.push ByteArray.empty = locator'.push ByteArray.empty) : l = l' := by
  have hread := readAt_entry h ByteArray.empty ByteArray.empty
  rw [hbytes, readAt_entry h' ByteArray.empty ByteArray.empty] at hread
  rw [← decode_encode h, ← decode_encode h', Option.some.inj hread]

/-! ## Tables -/

/-- A table is read as the locations that it was written from if and only if the containers that they
name are there. -/
theorem decodeTable_pushAll_iff (h : f.pushAll ByteArray.empty ls = some table) (count : Nat) :
    decodeTable f count table 0 #[] ls.length = .ok ls.toArray ↔
      ∀ l ∈ ls, l.container.toNat < count := by
  constructor
  · intro hread l hl
    have hall := (decodeTable_eq_ok hread).2 fun l' hl' => absurd hl' (Array.not_mem_empty l')
    exact hall l (List.mem_toArray.mpr hl)
  · intro hcontainers
    have hread := decodeTable_eq h hcontainers #[]
    rw [ByteArray.size_empty] at hread
    simpa using hread

/-- A table has one entry for each location. -/
theorem size_of_pushAll (h : f.pushAll ByteArray.empty ls = some table) :
    table.size = ls.length * f.entrySize := by
  obtain ⟨tail, rfl, hsize⟩ := pushAll_append h
  rw [ByteArray.empty_append, hsize]

theorem entrySize_pos (f : LocatorFormat) : 0 < f.entrySize := by
  cases f <;> exact Nat.succ_pos _

/-- Locations whose tables have the same bytes are the same. -/
theorem eq_of_pushAll_eq (h : f.pushAll ByteArray.empty ls = some table)
    (h' : f.pushAll ByteArray.empty ls' = some table) : ls = ls' := by
  have hlength : ls.length = ls'.length := by
    apply Nat.eq_of_mul_eq_mul_right f.entrySize_pos
    rw [← size_of_pushAll h, ← size_of_pushAll h']
  -- with as many containers as there are words, every table can be read
  have hread := (decodeTable_pushAll_iff h (2 ^ 32)).mpr fun l _ => l.container.toNat_lt
  have hread' := (decodeTable_pushAll_iff h' (2 ^ 32)).mpr fun l _ => l.container.toNat_lt
  rw [hlength, hread'] at hread
  exact (List.toArray_inj (Except.ok.inj hread)).symm

/-- **Locators lose nothing**, one by one and in tables, from locations to bytes and back. -/
theorem locators_round_trip (f : LocatorFormat) (hf : f ≠ packed 0) :
    -- a location that has a locator is found again behind its bytes
    (∀ l locator, f.encode l = some locator → ∃ entry : ByteArray, entry.size = f.entrySize ∧
      (∀ out, locator.push out = out ++ entry) ∧
      (∀ before tail, f.readAt (before ++ entry ++ tail) before.size = some locator) ∧
      f.decode locator = l) ∧
    -- it has none in the packed format only
    (∀ l, f.encode l = none ↔ ∃ containerSize, f = packed containerSize ∧
      (containerSize ≤ l.offset ∨
        2 ^ 32 ≤ l.container.toNat * containerSize.toNat + l.offset.toNat)) ∧
    -- the bytes of an entry are the locator of a location, and fewer bytes are none
    (∀ data start, start + f.entrySize ≤ data.size → ∃ locator,
      f.readAt data start = some locator ∧ f.encode (f.decode locator) = some locator ∧
        locator.push ByteArray.empty = slice data start f.entrySize) ∧
    (∀ data start, data.size < start + f.entrySize → f.readAt data start = none) ∧
    -- a table can be written if all of its locations have locators, and is read as it was written
    (∀ ls, (∃ table, f.pushAll ByteArray.empty ls = some table) ↔
      ∀ l ∈ ls, ∃ locator, f.encode l = some locator) ∧
    (∀ ls table, f.pushAll ByteArray.empty ls = some table →
      table.size = ls.length * f.entrySize ∧
      ∀ count, decodeTable f count table 0 #[] ls.length = .ok ls.toArray ↔
        ∀ l ∈ ls, l.container.toNat < count) ∧
    -- different locations have different bytes, also in tables
    (∀ l l' locator locator', f.encode l = some locator → f.encode l' = some locator' →
      locator.push ByteArray.empty = locator'.push ByteArray.empty → l = l') ∧
    (∀ ls ls' table, f.pushAll ByteArray.empty ls = some table →
      f.pushAll ByteArray.empty ls' = some table → ls = ls') := by
  refine ⟨?_, fun l => encode_eq_none_iff, ?_, ?_, ?_, ?_, ?_, ?_⟩
  · intro l locator h
    refine ⟨locator.push ByteArray.empty, ?_, locator.push_eq, readAt_entry h, decode_encode h⟩
    rw [size_push h, ByteArray.size_empty, Nat.zero_add]
  · intro data start hfits
    obtain ⟨locator, hread⟩ :=
      Option.isSome_iff_exists.mp ((readAt_isSome_iff f data start).mpr hfits)
    exact ⟨locator, hread, readAt_canonical hf hread⟩
  · intro data start hshort
    rw [← Option.not_isSome_iff_eq_none, readAt_isSome_iff]
    omega
  · intro ls
    have hall := pushAll_isSome f ByteArray.empty ls
    simpa only [Option.isSome_iff_exists] using hall
  · intro ls table h
    exact ⟨size_of_pushAll h, decodeTable_pushAll_iff h⟩
  · intro l l' locator locator' h h' hbytes
    exact eq_of_push_eq h h' hbytes
  · intro ls ls' table h h'
    exact eq_of_pushAll_eq h h'

/-- The locations at both ends of the words: the last one that packs, and the first one that does not. -/
theorem last_words_round_trip :
    packed 0x10001 ≠ packed 0 ∧
    (packed 0x10001).encode ⟨0xFFFF, 0⟩ = some (.packed 0xFFFFFFFF) ∧
    (packed 0x10001).encode ⟨0xFFFF, 1⟩ = none ∧
    (packed 0x10001).decode (.packed 0xFFFFFFFF) = ⟨0xFFFF, 0⟩ ∧
    ∃ table, (packed 0x10001).pushAll ByteArray.empty [⟨0xFFFF, 0⟩, ⟨0, 0x10000⟩] = some table ∧
      decodeTable (packed 0x10001) 0x10000 table 0 #[] 2 = .ok #[⟨0xFFFF, 0⟩, ⟨0, 0x10000⟩] := by
  have hf : packed 0x10001 ≠ packed 0 := by decide
  have hlast : (packed 0x10001).encode ⟨0xFFFF, 0⟩ = some (.packed 0xFFFFFFFF) := by decide
  obtain ⟨hfound, hnone, -, -, hwritten, hread, -⟩ := locators_round_trip (packed 0x10001) hf
  obtain ⟨-, -, -, -, hback⟩ := hfound _ _ hlast
  obtain ⟨table, htable⟩ := (hwritten [⟨0xFFFF, 0⟩, ⟨0, 0x10000⟩]).mpr (by
    intro l hl
    rcases List.mem_pair.mp hl with rfl | rfl
    · exact ⟨_, hlast⟩
    · exact ⟨.packed 0x10000, by decide⟩)
  refine ⟨hf, hlast, ?_, hback, table, htable, ?_⟩
  · exact (hnone ⟨0xFFFF, 1⟩).mpr ⟨0x10001, rfl, .inr (by decide)⟩
  · exact ((hread _ _ htable).2 0x10000).mpr (by decide)

end LocatorFormat

end DedupImage
