import DedupImage.Proofs.Codec.Objects

/-!
# Buffers that are big enough

Both directions of a codec work into a buffer that is used again and again: it is emptied, filled up to its
room with zeros, written from the front, and cut behind the result. What it held before leaves no trace
(`CodecObject.compressInto_eq`, `CodecObject.decompressInto_eq`), and the room is enough for every string
(`Codec.buffers_suffice`).

Too little room is a failure and never a shorter result.
-/

namespace DedupImage

/-- Empty a buffer and fill it up to its room with zeros. -/
def prepare (buffer : ByteArray) (room : Nat) : ByteArray :=
  pushCopies (slice buffer 0 0) 0 room

theorem size_prepare (buffer : ByteArray) (room : Nat) : (prepare buffer room).size = room := by
  rw [prepare, size_pushCopies, slice_zero, ByteArray.size_empty, Nat.zero_add]

namespace CodecObject

variable {lib : CodecLibrary}

/-- Compress a string over a buffer: the buffer, and how much of it is filled. -/
def compressOver (src dst : ByteArray) :
    CodecObject lib → Except StorageFailure (ByteArray × Nat) × CodecObject lib
  | gzip level deflater inflater =>
    let (result, deflater) := (lib.deflater level).runOver deflater src dst
    (result, gzip level deflater inflater)
  | zstd level packer unpacker =>
    let (result, packer) := (lib.packer level).callOver packer src dst
    (result, zstd level packer unpacker)

/-- Decompress a string over a buffer: the buffer, and how much of it is filled. -/
def decompressOver (src dst : ByteArray) :
    CodecObject lib → Except StorageFailure (ByteArray × Nat) × CodecObject lib
  | gzip level deflater inflater =>
    let (result, inflater) := lib.inflater.runOver inflater src dst
    (result, gzip level deflater inflater)
  | zstd level packer unpacker =>
    let (result, unpacker) := lib.unpacker.callOver unpacker src dst
    (result, zstd level packer unpacker)

theorem compressOver_eq (o : CodecObject lib) (src dst : ByteArray) :
    ((o.compressOver src dst).1.map cut, (o.compressOver src dst).2) = o.compress src dst.size := by
  cases o with
  | gzip level deflater inflater =>
    have hrun := (lib.deflater level).runOver_eq deflater src dst
    exact congrArg (fun result => (result.1, gzip level result.2 inflater)) hrun
  | zstd level packer unpacker =>
    have hcall := (lib.packer level).callOver_eq packer src dst
    exact congrArg (fun result => (result.1, zstd level result.2 unpacker)) hcall

theorem decompressOver_eq (o : CodecObject lib) (src dst : ByteArray) :
    ((o.decompressOver src dst).1.map cut, (o.decompressOver src dst).2) = o.decompress src dst.size := by
  cases o with
  | gzip level deflater inflater =>
    have hrun := lib.inflater.runOver_eq inflater src dst
    exact congrArg (fun result => (result.1, gzip level deflater result.2)) hrun
  | zstd level packer unpacker =>
    have hcall := lib.unpacker.callOver_eq unpacker src dst
    exact congrArg (fun result => (result.1, zstd level packer result.2)) hcall

/-- Compress a whole string, replacing what a buffer holds. -/
def compressInto (o : CodecObject lib) (src dst : ByteArray) :
    Except StorageFailure ByteArray × CodecObject lib :=
  let (result, o) := o.compressOver src (prepare dst (o.bound src.size))
  (result.map cut, o)

/-- Decompress a string that must not become longer than `most`, replacing what a buffer holds. -/
def decompressInto (o : CodecObject lib) (src dst : ByteArray) (most : Nat) :
    Except StorageFailure ByteArray × CodecObject lib :=
  let (result, o) := o.decompressOver src (prepare dst most)
  (result.map cut, o)

/-- What the buffer held before leaves no trace. -/
theorem compressInto_eq (o : CodecObject lib) (src dst : ByteArray) :
    o.compressInto src dst = o.compress src (o.bound src.size) := by
  have hover := o.compressOver_eq src (prepare dst (o.bound src.size))
  rwa [size_prepare] at hover

theorem decompressInto_eq (o : CodecObject lib) (src dst : ByteArray) (most : Nat) :
    o.decompressInto src dst most = o.decompress src most := by
  have hover := o.decompressOver_eq src (prepare dst most)
  rwa [size_prepare] at hover

end CodecObject

namespace Codec

/-- **The buffers of a codec are big enough, and nothing is cut off.** The library of this project does what is
promised. With a library that does, and every level that is accepted, a codec in any state compresses every string
in the room of its bound, whatever the buffer held before. Every codec of the scheme gives the string back if
it may become as long as it was; if it may not, that is a failure. What follows a zlib stream does not matter.
Zstandard announces the length of a string, which has to be a word of 64 bits. -/
theorem buffers_suffice :
    CodecLibrary.standard.Documented ∧
    ∀ lib : CodecLibrary, lib.Documented → ∀ scheme options s, CodecSetting.configure scheme options = .ok s →
      ∀ o : CodecObject lib, o.setting = s → ∀ src : ByteArray, (scheme = .zstd → src.size < UInt64.size) →
        ∃ packed : ByteArray,
          packed.size ≤ o.bound src.size ∧
          (src.size < UInt64.size / 2 → o.bound src.size < UInt64.size) ∧
          (∀ dst, (o.compressInto src dst).1 = .ok packed) ∧
          ∀ reader : CodecObject lib, reader.setting.scheme = scheme →
            ∀ tail, tail = ByteArray.empty ∨ scheme = .gzip → ∀ dst most,
              (src.size ≤ most → (reader.decompressInto (packed ++ tail) dst most).1 = .ok src) ∧
              (most < src.size → ∃ e, (reader.decompressInto (packed ++ tail) dst most).1 = .error e) := by
  refine ⟨CodecLibrary.documented_standard, ?_⟩
  intro lib hlib scheme options s hsetting o ho src hlength
  obtain ⟨rfl, haccepted⟩ := CodecSetting.accepted_of_configure hsetting
  subst ho
  obtain ⟨packed, hresult, hsize⟩ := hlib.compress src haccepted hlength
  have hpacked := hlib.encodes_of_compress haccepted hresult
  refine ⟨packed, hsize, o.bound_lt, fun dst => ?_, fun reader hreader tail htail dst most => ?_⟩
  · rw [o.compressInto_eq]
    exact hresult
  · rw [← hreader] at hpacked htail
    rw [reader.decompressInto_eq]
    exact hlib.decompress hpacked htail

/-- Bytes without a pattern, from one state of a generator on. -/
def noiseFrom (x : UInt32) (out : ByteArray) : Nat → ByteArray
  | 0 => out
  | n + 1 =>
    let x := x ^^^ (x <<< 13)
    let x := x ^^^ (x >>> 17)
    let x := x ^^^ (x <<< 5)
    noiseFrom x (out.push x.toUInt8) n

/-- Bytes without a pattern. -/
def noise (n : Nat) : ByteArray := noiseFrom 0x2545F491 ByteArray.empty n

@[simp] theorem size_noise (n : Nat) : (noise n).size = n := by
  have hall (x : UInt32) (out : ByteArray) : (noiseFrom x out n).size = out.size + n := by
    induction n generalizing x out with
    | zero => rfl
    | succ n ih =>
      rw [noiseFrom, ih, ByteArray.size_push]
      omega
  rw [noise, hall, ByteArray.size_empty, Nat.zero_add]

/-- Noise that takes more than one block comes back from both schemes, a stream also if there is another one
behind it. One byte of room less is too little. -/
theorem noise_comes_back :
    let src := noise 140000
    CodecSetting.configure .gzip [("compression_level", "5")] = .ok ⟨.gzip, 5⟩ ∧
    CodecSetting.configure .zstd [("compression_level", "+3")] = .ok ⟨.zstd, 3⟩ ∧
    1 < (Zstd.tokenBlocks 3 src).length ∧
    ∃ (g z : CodecObject CodecLibrary.standard) (stream frame : ByteArray),
      g.setting = ⟨.gzip, 5⟩ ∧ z.setting = ⟨.zstd, 3⟩ ∧ stream.size ≤ 144439 ∧ frame.size ≤ 140546 ∧
      ∀ dst, (g.compressInto src dst).1 = .ok stream ∧ (z.compressInto src dst).1 = .ok frame ∧
        (g.decompressInto (stream ++ stream) dst 140000).1 = .ok src ∧
        (z.decompressInto frame dst 140000).1 = .ok src ∧
        (∃ e, (g.decompressInto stream dst 139999).1 = .error e) ∧
        ∃ e, (z.decompressInto frame dst 139999).1 = .error e := by
  intro src
  have hsize : src.size = 140000 := size_noise 140000
  have hg : CodecSetting.configure .gzip [("compression_level", "5")] = .ok ⟨.gzip, 5⟩ := rfl
  have hz : CodecSetting.configure .zstd [("compression_level", "+3")] = .ok ⟨.zstd, 3⟩ := rfl
  let g : CodecObject CodecLibrary.standard := .gzip 5 none ()
  let z : CodecObject CodecLibrary.standard := .zstd 3 none none
  obtain ⟨hlib, hall⟩ := buffers_suffice
  obtain ⟨stream, hstream, -, hcompress, hback⟩ := hall _ hlib _ _ _ hg g rfl src (by rintro ⟨⟩)
  obtain ⟨frame, hframe, -, hcompress', hback'⟩ := hall _ hlib _ _ _ hz z rfl src (fun _ => by rw [hsize]; decide)
  rw [hsize] at hstream hframe hback hback'
  refine ⟨hg, hz, Zstd.one_lt_length_tokenBlocks 3 (by rw [hsize]; decide), g, z, stream, frame, rfl, rfl,
    hstream, hframe, fun dst => ⟨hcompress dst, hcompress' dst, ?_, ?_, ?_, ?_⟩⟩
  · exact (hback g rfl stream (.inr rfl) dst 140000).1 (Nat.le_refl _)
  · have h := (hback' z rfl ByteArray.empty (.inl rfl) dst 140000).1 (Nat.le_refl _)
    rwa [ByteArray.append_empty] at h
  · have h := (hback g rfl ByteArray.empty (.inl rfl) dst 139999).2 (by decide)
    rwa [ByteArray.append_empty] at h
  · have h := (hback' z rfl ByteArray.empty (.inl rfl) dst 139999).2 (by decide)
    rwa [ByteArray.append_empty] at h

end Codec

end DedupImage
