import DedupImage.Layout.Locator
import DedupImage.Proofs.Bytes

/-!
# Locators as bytes

A location that has a locator is the one that the locator leads to (`decode_encode`), and a locator that
was added to a table is read where it was added, whatever was added behind it (`readAt_push`). In the
unpacked format every location has a locator (`unpacked_pushAll`), so the writer always has a format to
fall back to.
-/

namespace DedupImage

/-- A locator is added behind what was there before. -/
theorem Locator.push_append (locator : Locator) (out : ByteArray) :
    ∃ entry, locator.push out = out ++ entry := by
  cases locator with
  | packed value => exact ⟨_, pushNumber_eq out 4 _⟩
  | unpacked container offset =>
    refine ⟨numberBytes 4 container.toNat ++ numberBytes 4 offset.toNat, ?_⟩
    rw [push, pushNumber_eq, pushNumber_eq out, ByteArray.append_assoc]

namespace LocatorFormat

variable {f : LocatorFormat} {l : Location} {locator : Locator} {ls : List Location}
  {out table : ByteArray}

/-- A locator leads to the location that it was made from. -/
theorem decode_encode (h : f.encode l = some locator) : f.decode locator = l := by
  cases f with
  | packed containerSize =>
    simp only [encode] at h
    split at h
    · rename_i hfits
      obtain rfl := Option.some.inj h
      obtain ⟨hoffset, hvalue⟩ := hfits
      have hlt : l.offset.toNat < containerSize.toNat := hoffset
      have hword : (l.container.toNat * containerSize.toNat + l.offset.toNat).toUInt32.toNat =
          l.container.toNat * containerSize.toNat + l.offset.toNat :=
        UInt32.toNat_ofNat_of_lt' hvalue
      have hcontainer : (l.container.toNat * containerSize.toNat + l.offset.toNat) /
          containerSize.toNat = l.container.toNat := by
        rw [Nat.mul_comm, Nat.mul_add_div (by omega), Nat.div_eq_of_lt hlt, Nat.add_zero]
      have hrest : (l.container.toNat * containerSize.toNat + l.offset.toNat) %
          containerSize.toNat = l.offset.toNat := Nat.mul_add_mod_of_lt hlt
      obtain ⟨container, offset⟩ := l
      simp only [decode, Location.mk.injEq]
      constructor
      · rw [← UInt32.toNat_inj, UInt32.toNat_div, hword, hcontainer]
      · rw [← UInt32.toNat_inj, UInt32.toNat_mod, hword, hrest]
    · cases h
  | unpacked =>
    obtain rfl := Option.some.inj h
    rfl

/-- A location packs if its offset is below the container size and its number fits a word. -/
theorem packed_encode_isSome_iff (containerSize : UInt32) (l : Location) :
    ((packed containerSize).encode l).isSome = true ↔
      l.offset < containerSize ∧
        l.container.toNat * containerSize.toNat + l.offset.toNat < 2 ^ 32 := by
  unfold encode
  dsimp only
  split
  · exact ⟨fun _ => ‹_›, fun _ => rfl⟩
  · exact ⟨fun h => (nomatch h), fun h => absurd h ‹_›⟩

/-- A locator takes the bytes of an entry. -/
theorem size_push (h : f.encode l = some locator) :
    (locator.push out).size = out.size + f.entrySize := by
  cases f with
  | packed containerSize =>
    simp only [encode] at h
    split at h
    · obtain rfl := Option.some.inj h
      exact size_pushNumber _ _ _
    · cases h
  | unpacked =>
    obtain rfl := Option.some.inj h
    simp [Locator.push, entrySize]

/-- A locator is read where it was added. -/
theorem readAt_push (h : f.encode l = some locator) (out tail : ByteArray) :
    f.readAt (locator.push out ++ tail) out.size = some locator := by
  have hsize : (locator.push out).size = out.size + f.entrySize := size_push h
  have hfits : out.size + f.entrySize ≤ (locator.push out ++ tail).size := by
    rw [ByteArray.size_append]
    omega
  cases f with
  | packed containerSize =>
    simp only [encode] at h
    split at h
    · obtain rfl := Option.some.inj h
      simp only [entrySize] at hsize hfits
      rw [readAt, if_pos hfits, numberAt_append_left (by omega), Locator.push, numberAt_pushNumber,
        toUInt32_mod]
    · cases h
  | unpacked =>
    obtain rfl := Option.some.inj h
    simp only [entrySize] at hsize hfits
    have hoffset := numberAt_pushNumber (pushNumber out 4 l.container.toNat) 4 l.offset.toNat
    rw [size_pushNumber] at hoffset
    rw [readAt, if_pos hfits, numberAt_append_left (by omega), numberAt_append_left (by omega),
      Locator.push, hoffset, numberAt_pushNumber_of_le (by simp), numberAt_pushNumber, toUInt32_mod,
      toUInt32_mod]

/-- Either format may be chosen, the packed one with the container size of the image. -/
theorem choose_cases (packs : Bool) (size count : UInt32) :
    choose packs size count = packed size ∨ choose packs size count = unpacked := by
  unfold choose
  split
  · exact .inl rfl
  · exact .inr rfl

/-! ## Tables -/

/-- The entries of a table are added in order. -/
theorem pushAll_cons (h : f.pushAll out (l :: ls) = some table) :
    ∃ locator, f.encode l = some locator ∧ f.pushAll (locator.push out) ls = some table := by
  unfold pushAll at h
  cases hl : f.encode l with
  | none =>
    rw [hl] at h
    cases h
  | some locator =>
    rw [hl] at h
    exact ⟨locator, rfl, h⟩

/-- A table can be written if every location has a locator. -/
theorem pushAll_isSome (f : LocatorFormat) (out : ByteArray) (ls : List Location) :
    (f.pushAll out ls).isSome = true ↔ ∀ l ∈ ls, (f.encode l).isSome = true := by
  induction ls generalizing out with
  | nil => simp [pushAll]
  | cons l ls ih =>
    rw [List.forall_mem_cons, pushAll]
    cases hl : f.encode l with
    | none => simp
    | some locator => simpa using ih (locator.push out)

/-- A table has one entry for each location, behind what was there before. -/
theorem pushAll_append (h : f.pushAll out ls = some table) :
    ∃ tail, table = out ++ tail ∧ tail.size = ls.length * f.entrySize := by
  induction ls generalizing out with
  | nil =>
    obtain rfl := Option.some.inj h
    exact ⟨ByteArray.empty, ByteArray.append_empty.symm, by simp⟩
  | cons l ls ih =>
    obtain ⟨locator, hl, hrest⟩ := pushAll_cons h
    obtain ⟨tail, rfl, hsize⟩ := ih hrest
    obtain ⟨entry, hentry⟩ := locator.push_append out
    have hfirst : (locator.push out).size = out.size + f.entrySize := size_push hl
    rw [hentry, ByteArray.size_append] at hfirst
    refine ⟨entry ++ tail, by rw [hentry, ByteArray.append_assoc], ?_⟩
    rw [ByteArray.size_append, hsize, List.length_cons, Nat.succ_mul]
    omega

/-- Every table can be written unpacked. -/
theorem unpacked_pushAll (out : ByteArray) (ls : List Location) :
    ∃ table, unpacked.pushAll out ls = some table := by
  induction ls generalizing out with
  | nil => exact ⟨out, rfl⟩
  | cons l ls ih => exact ih _

end LocatorFormat

end DedupImage
