import DedupImage.Codec.Library
import DedupImage.Codec.Zlib
import DedupImage.Codec.Zstd

/-!
# The compression library of this project

The coders of `CodecLibrary.standard` are the writers and readers of zlib streams and Zstandard frames, made
into coders. All of them have the whole input at once. The one that writes zlib streams keeps what the room was
not enough for; the one that reads them needs room for everything.
-/

namespace DedupImage

namespace Zlib

/-- Hand out what has been made and not been taken. -/
def handOut (pending given : ByteArray) (room : Nat) : Option ByteArray × Option StreamReport :=
  (some (pending.extract room pending.size),
    some
      { taken := given.size
        made := pending.extract 0 room
        status := if pending.size ≤ room then .done else if room = 0 then .stuck else .more })

/-- Compress a string when it is given, and hand it out. The state is what is left to hand out. -/
def deflater (level : Nat) : StreamCoder where
  State := Option ByteArray
  fresh := none
  reset _ := none
  finish pending given room := handOut (pending.getD (pack level given)) given room
  bounded h := by
    obtain ⟨-, hr⟩ := Prod.mk.inj h
    obtain rfl := Option.some.inj hr
    refine ⟨Nat.le_refl _, ?_⟩
    rw [ByteArray.size_extract]
    omega

/-- What can be said of a call that is to read a stream: it has ended, or the input or the room is not enough. -/
def reportOf (given : ByteArray) (room : Nat) : Option StreamReport :=
  match read given room with
  | .ok (out, stop) => if stop ≤ given.size ∧ out.size ≤ room then some ⟨stop, out, .done⟩ else none
  | .error .unexpectedEof => some ⟨0, ByteArray.empty, .stuck⟩
  | .error _ => none

/-- Read a stream that is given whole. -/
def inflater : StreamCoder where
  State := Unit
  fresh := ()
  reset _ := ()
  finish _ given room := ((), reportOf given room)
  bounded h := by
    obtain ⟨-, hr⟩ := Prod.mk.inj h
    unfold reportOf at hr
    split at hr
    · split at hr
      next hbounds =>
        obtain rfl := Option.some.inj hr
        exact hbounds
      · cases hr
    · obtain rfl := Option.some.inj hr
      exact ⟨Nat.zero_le _, Nat.zero_le _⟩
    · cases hr

end Zlib

namespace Zstd

/-- A result, if there is room for it. -/
def fitting (out : ByteArray) (room : Nat) : Option { out : ByteArray // out.size ≤ room } :=
  if h : out.size ≤ room then some ⟨out, h⟩ else none

/-- Write a string as a frame. The frame announces the length of the string, which has to be a word. -/
def packer (level : Int) : BulkCoder where
  State := Unit
  new? := some ()
  run _ src room := ((), if src.size < UInt64.size then fitting (pack level.toNat src) room else none)

/-- Read frames. -/
def unpacker : BulkCoder where
  State := Unit
  new? := some ()
  run _ packed room :=
    ((), match unpack packed room with
      | .ok out => fitting out room
      | .error _ => none)

end Zstd

/-- The library of this project. -/
def CodecLibrary.standard : CodecLibrary := ⟨Zlib.deflater, Zlib.inflater, Zstd.packer, Zstd.unpacker⟩

/-- The codec of a scheme at its standard level. -/
def Codec.ofScheme (scheme : Scheme) : Codec :=
  CodecLibrary.standard.codec ⟨scheme, (CodecSetting.levels scheme).standard⟩

/-- The codec of zlib streams. -/
def Zlib.codec : Codec := Codec.ofScheme .gzip

/-- The codec of Zstandard frames. -/
def Zstd.codec : Codec := Codec.ofScheme .zstd

end DedupImage
