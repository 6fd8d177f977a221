import DedupImage.Proofs.Layout.Locator

/-!
# When packing is safe

The format of the locators is chosen from two sizes, before any location is known. Packing is safe if
every location that an image of these sizes may have does pack (`PacksAll`). The last location of the last
container has the largest number, so that is a question of the product of the two sizes
(`packsAll_iff`).

The choice compares another product, that of the largest offset. It never misses a safe pair of sizes,
but where the product of the sizes is above 2^32 by less than the number of containers it takes an
unsafe one for safe (`packing_is_chosen_when_safe`). Three containers are enough for that
(`unsafe_packing_is_chosen`).
-/

namespace DedupImage.LocatorFormat

variable {size count : UInt32}

/-- Every location inside `count` containers of `size` bytes packs. -/
def PacksAll (size count : UInt32) : Prop :=
  ∀ l : Location, l.container < count → l.offset < size → ((packed size).encode l).isSome = true

/-- All locations pack if the containers have no more bytes than there are words. -/
theorem packsAll_iff (hsize : 0 < size.toNat) :
    PacksAll size count ↔ count.toNat * size.toNat ≤ 2 ^ 32 := by
  constructor
  · intro hall
    rcases Nat.eq_zero_or_pos count.toNat with hnone | hcount
    · rw [hnone, Nat.zero_mul]
      exact Nat.zero_le _
    · -- the last location decides
      have hcontainer : (count - 1).toNat = count.toNat - 1 :=
        UInt32.toNat_sub_of_le count 1 hcount
      have hoffset : (size - 1).toNat = size.toNat - 1 := UInt32.toNat_sub_of_le size 1 hsize
      have hlast := hall ⟨count - 1, size - 1⟩
        (UInt32.lt_iff_toNat_lt.mpr (by rw [hcontainer]; omega))
        (UInt32.lt_iff_toNat_lt.mpr (by rw [hoffset]; omega))
      have hfits := ((packed_encode_isSome_iff _ _).mp hlast).2
      rw [hcontainer, hoffset, Nat.sub_mul, Nat.one_mul] at hfits
      have hrow : size.toNat ≤ count.toNat * size.toNat := Nat.le_mul_of_pos_left _ hcount
      omega
  · intro hproduct l hcontainer hoffset
    have hoffset' : l.offset.toNat < size.toNat := hoffset
    refine (packed_encode_isSome_iff _ _).mpr ⟨hoffset, ?_⟩
    calc l.container.toNat * size.toNat + l.offset.toNat
        < (l.container.toNat + 1) * size.toNat := by
          rw [Nat.succ_mul]
          omega
      _ ≤ count.toNat * size.toNat := Nat.mul_le_mul_right _ hcontainer
      _ ≤ 2 ^ 32 := hproduct

/-- The choice, as a condition on the number of bytes in all containers. -/
theorem choose_eq_packed_iff (hsize : 0 < size.toNat) :
    choose true size count = packed size ↔
      count.toNat * size.toNat < 2 ^ 32 + count.toNat := by
  have hproduct : (size.toNat - 1) * count.toNat = count.toNat * size.toNat - count.toNat := by
    rw [Nat.sub_mul, Nat.one_mul, Nat.mul_comm]
  have hrow : count.toNat ≤ count.toNat * size.toNat := Nat.le_mul_of_pos_right _ hsize
  have hword : UInt32.size = 2 ^ 32 := rfl
  unfold choose
  rw [hproduct, hword, decide_eq_true hsize, Bool.true_and, Bool.true_and]
  by_cases hfits : count.toNat * size.toNat - count.toNat < 2 ^ 32
  · rw [decide_eq_true hfits, if_pos rfl]
    exact ⟨fun _ => by omega, fun _ => rfl⟩
  · rw [decide_eq_false hfits, if_neg (by decide)]
    exact ⟨fun h => (nomatch h), fun h => absurd h (by omega)⟩

/-- **Packing is chosen wherever it is safe.** The converse fails exactly where the containers have more
than 2^32 bytes, but fewer than there are containers besides. -/
theorem packing_is_chosen_when_safe (hsize : 0 < size.toNat) :
    (PacksAll size count → choose true size count = packed size) ∧
      ((choose true size count = packed size ↔ PacksAll size count) ↔
        ¬ (2 ^ 32 < count.toNat * size.toNat ∧
          count.toNat * size.toNat < 2 ^ 32 + count.toNat)) := by
  rw [packsAll_iff hsize, choose_eq_packed_iff hsize]
  have hrow : count.toNat ≤ count.toNat * size.toNat := Nat.le_mul_of_pos_right _ hsize
  have hnone : count.toNat = 0 → count.toNat * size.toNat = 0 := by
    intro hzero
    rw [hzero, Nat.zero_mul]
  constructor
  · omega
  · omega

/-- With 2^32 bytes in all, packing is safe and is chosen. -/
theorem packing_is_chosen_for_all_words :
    0 < (65536 : UInt32).toNat ∧ PacksAll 65536 65536 ∧
      choose true 65536 65536 = packed 65536 := by
  have hsize : 0 < (65536 : UInt32).toNat := by decide
  have hsafe : PacksAll 65536 65536 := (packsAll_iff hsize).mpr (by decide)
  exact ⟨hsize, hsafe, (packing_is_chosen_when_safe hsize).1 hsafe⟩

/-- Three containers with 2^32 + 2 bytes in all: packing is chosen, but the last location does not
pack. -/
theorem unsafe_packing_is_chosen :
    choose true 1431655766 3 = packed 1431655766 ∧
      (packed 1431655766).encode ⟨2, 1431655765⟩ = none ∧
      ¬ ∀ size count : UInt32, 0 < size.toNat →
        (choose true size count = packed size ↔
          ∀ l : Location, l.container < count → l.offset < size →
            ((packed size).encode l).isSome = true) := by
  have hchosen : choose true 1431655766 3 = packed 1431655766 := by decide
  have hlast : (packed 1431655766).encode ⟨2, 1431655765⟩ = none := by decide
  refine ⟨hchosen, hlast, ?_⟩
  intro hclaim
  have hpacks := (hclaim 1431655766 3 (by decide)).mp hchosen ⟨2, 1431655765⟩ (by decide) (by decide)
  rw [hlast] at hpacks
  cases hpacks

end DedupImage.LocatorFormat
