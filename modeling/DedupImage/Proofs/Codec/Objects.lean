import DedupImage.Proofs.Codec.Standard

/-!
# Codecs of a library that keeps its promises

A codec is made from a setting that was accepted (`CodecSetting.Accepted`), so its level is one for which the
library promises something. Whatever its coders have done before, it then compresses every string in the room of
its bound (`CodecLibrary.Documented.compress`), and decompresses what any codec of its scheme has compressed
(`CodecLibrary.Documented.decompress`).

The rest of the library needs less: what was compressed comes back (`CodecLibrary.Documented.restores`).
-/

namespace DedupImage

variable {src packed : ByteArray} {room : Nat}

/-! ## Settings -/

/-- A setting that can be made: the scheme has a codec, and the level is one of the scheme. -/
structure CodecSetting.Accepted (s : CodecSetting) : Prop where
  supported : s.scheme.supported
  least : ((levels s.scheme).least : Int) ≤ s.level
  most : s.level ≤ (levels s.scheme).most

namespace CodecSetting

variable {scheme : Scheme} {options : List (String × String)} {s start : CodecSetting}

/-- A level that is read is one of the range. -/
theorem readLevel_bounds {range : LevelRange} {value : String} {level : Int}
    (h : readLevel range value = .ok level) :
    (range.least : Int) ≤ level ∧ level ≤ range.most := by
  unfold readLevel at h
  split at h
  · cases h
  · split at h
    next hrange =>
      obtain rfl := Except.ok.inj h
      exact hrange
    · cases h

/-- Options change nothing but the level, and that only to another one of the range. -/
theorem accepted_applyOptions (hstart : start.Accepted) (h : applyOptions start options = .ok s) :
    s.scheme = start.scheme ∧ s.Accepted := by
  induction options generalizing start with
  | nil =>
    obtain rfl := Except.ok.inj h
    exact ⟨rfl, hstart⟩
  | cons option rest ih =>
    obtain ⟨field, value⟩ := option
    rw [applyOptions] at h
    split at h
    · split at h
      · cases h
      next level hlevel =>
        obtain ⟨hleast, hmost⟩ := readLevel_bounds hlevel
        have haccepted : CodecSetting.Accepted { start with level := level } := ⟨hstart.supported, hleast, hmost⟩
        have hlater := ih haccepted h
        exact hlater
    · cases h

/-- **Every setting that is made is one of its scheme.** -/
theorem accepted_of_configure (h : configure scheme options = .ok s) : s.scheme = scheme ∧ s.Accepted := by
  unfold configure at h
  split at h
  next hsupported =>
    split at h
    · cases h
    next hoptions =>
      obtain rfl := Except.ok.inj h
      refine accepted_applyOptions ⟨hsupported, ?_, ?_⟩ hoptions
      · cases scheme <;> decide
      · cases scheme <;> decide
  · cases h

end CodecSetting

/-! ## Codecs -/

/-- A string is a compressed form of another one. -/
def Scheme.Encodes : Scheme → ByteArray → ByteArray → Prop
  | .gzip => Zlib.Encodes
  | .zstd => Zstd.Encodes
  | .unknown => fun _ _ => False

namespace CodecObject

variable {lib : CodecLibrary}

/-- Every accepted setting has a codec. -/
theorem exists_ofSetting? (lib : CodecLibrary) {s : CodecSetting} (h : s.Accepted) :
    ∃ o, ofSetting? lib s = some o ∧ o.setting = s := by
  obtain ⟨scheme, level⟩ := s
  have hleast := h.least
  cases scheme with
  | gzip =>
    refine ⟨_, rfl, ?_⟩
    change CodecSetting.mk .gzip (level.toNat : Int) = ⟨.gzip, level⟩
    change ((1 : Nat) : Int) ≤ level at hleast
    rw [Int.toNat_of_nonneg (by omega)]
  | zstd => exact ⟨_, rfl, rfl⟩
  | unknown => cases h.supported

/-- The bound of a string that fits half the words of 64 bits is a word itself. -/
theorem bound_lt (o : CodecObject lib) {n : Nat} (hn : n < UInt64.size / 2) : o.bound n < UInt64.size := by
  have hword : UInt64.size = 18446744073709551616 := rfl
  rw [hword] at hn ⊢
  cases o with
  | gzip =>
    change n + n / 32 + 64 < _
    omega
  | zstd =>
    change n + n / 256 + (if n < 131072 then (131072 - n) / 2048 else 0) < _
    split <;> omega

/-- A zlib stream is shorter than the bound, whatever the string. -/
theorem worst_lt_bound (n : Nat) : Zlib.worst n < n + n / 32 + 64 := by
  unfold Zlib.worst
  omega

end CodecObject

namespace CodecLibrary.Documented

variable {lib : CodecLibrary} {o : CodecObject lib}

/-- The coder that compresses zlib streams for an accepted setting. -/
theorem deflates (h : lib.Documented) {level : Nat} (hlevel : (⟨.gzip, level⟩ : CodecSetting).Accepted) :
    (lib.deflater level).Deflates :=
  h.deflater level (Int.ofNat_le.mp hlevel.least) (Int.ofNat_le.mp hlevel.most)

/-- What a codec writes encodes the string. -/
theorem encodes_of_compress (h : lib.Documented) (hsetting : o.setting.Accepted)
    (hresult : (o.compress src room).1 = .ok packed) : o.setting.scheme.Encodes packed src := by
  cases o with
  | gzip level deflater inflater => exact (h.deflates hsetting).encodes_of_run hresult
  | zstd level packer unpacker => exact (h.packer level hsetting.least hsetting.most).encodes_of_call hresult

/-- **Every string is compressed in the room of the bound.** Zstandard announces its length, which has to be a
word. -/
theorem compress (h : lib.Documented) (src : ByteArray) (hsetting : o.setting.Accepted)
    (hlength : o.setting.scheme = .zstd → src.size < UInt64.size) :
    ∃ packed, (o.compress src (o.bound src.size)).1 = .ok packed ∧ packed.size ≤ o.bound src.size := by
  cases o with
  | gzip level deflater inflater =>
    have hroom := CodecObject.worst_lt_bound src.size
    obtain ⟨packed, hresult, hsize⟩ := (h.deflates hsetting).run deflater hroom
    exact ⟨packed, hresult, Nat.le_of_lt (Nat.lt_of_le_of_lt hsize hroom)⟩
  | zstd level packer unpacker =>
    exact (h.packer level hsetting.least hsetting.most).call packer (hlength rfl)
      (Nat.le_refl (Zstd.worst src.size))

/-- **A compressed string is decompressed if there is room for it**, and otherwise that is a failure. Behind a zlib
stream there may be more. -/
theorem decompress (h : lib.Documented) (hpacked : o.setting.scheme.Encodes packed src) {tail : ByteArray}
    (htail : tail = ByteArray.empty ∨ o.setting.scheme = .gzip) :
    (src.size ≤ room → (o.decompress (packed ++ tail) room).1 = .ok src) ∧
      (room < src.size → ∃ e, (o.decompress (packed ++ tail) room).1 = .error e) := by
  cases o with
  | gzip level deflater inflater => exact h.inflater.run hpacked tail inflater
  | zstd level packer unpacker =>
    obtain rfl : tail = ByteArray.empty := htail.resolve_right (by rintro ⟨⟩)
    rw [ByteArray.append_empty]
    exact h.unpacker.call hpacked unpacker

variable {s : CodecSetting}

/-- The codec of an accepted setting is that of a codec in use. -/
theorem exists_codec_eq (lib : CodecLibrary) (hs : s.Accepted) :
    ∃ o : CodecObject lib, o.setting = s ∧
      lib.codec s = ⟨s.scheme, o.bound, fun src room => (o.compress src room).1,
        fun src room => (o.decompress src room).1⟩ := by
  obtain ⟨o, ho, hsetting⟩ := CodecObject.exists_ofSetting? lib hs
  refine ⟨o, hsetting, ?_⟩
  unfold CodecLibrary.codec
  rw [ho]

/-- **What a codec has compressed comes back.** -/
theorem restores (h : lib.Documented) (hs : s.Accepted) : (lib.codec s).Restores := by
  obtain ⟨o, rfl, hcodec⟩ := exists_codec_eq lib hs
  rw [hcodec]
  intro data packed hpacked most hmost
  have hback := (h.decompress (h.encodes_of_compress hs hpacked) (.inl rfl)).1 hmost
  rwa [ByteArray.append_empty] at hback

/-- **Every string can be made a zlib stream, and comes back.** -/
theorem lossless (h : lib.Documented) (hs : s.Accepted) (hscheme : s.scheme = .gzip) :
    (lib.codec s).Lossless := by
  obtain ⟨o, rfl, hcodec⟩ := exists_codec_eq lib hs
  have hrestores := h.restores hs
  rw [hcodec] at hrestores ⊢
  intro src
  obtain ⟨packed, hpacked, -⟩ := h.compress src hs (by rw [hscheme]; rintro ⟨⟩)
  exact ⟨packed, hpacked, hrestores src packed hpacked⟩

end CodecLibrary.Documented

namespace Codec

/-- The standard level of a scheme is one of its levels. -/
theorem accepted_standard {scheme : Scheme} (h : scheme.supported) :
    (⟨scheme, (CodecSetting.levels scheme).standard⟩ : CodecSetting).Accepted :=
  have hsetting : CodecSetting.configure scheme [] = .ok ⟨scheme, (CodecSetting.levels scheme).standard⟩ :=
    if_pos h
  (CodecSetting.accepted_of_configure hsetting).2

/-- The codecs of this library restore what they have compressed. -/
theorem restores_ofScheme {scheme : Scheme} (h : scheme.supported) : (ofScheme scheme).Restores :=
  CodecLibrary.documented_standard.restores (accepted_standard h)

theorem lossless_zlib : Zlib.codec.Lossless :=
  CodecLibrary.documented_standard.lossless (accepted_standard (rfl : Scheme.supported .gzip = true)) rfl

end Codec

end DedupImage
