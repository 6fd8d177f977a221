import DedupImage.Codec.Library
import DedupImage.Codec.Zlib
import DedupImage.Codec.Zstd
import DedupImage.Proofs.Codec.Streaming

/-!
# What a compression library promises

A coder that compresses writes a stream that the readers of this project read (`Zlib.Encodes`, `Zstd.Encodes`),
and not a much longer one; a coder that decompresses gives back what a stream encodes. `CodecLibrary.Documented`
says this of all coders of a library, one call at a time, for every state that calls can lead to.

A loop of calls ends with one call: with the one that ends the stream, or with one that was useless
(`StreamCoder.Keeps.run`). So what is promised of every call holds of the whole.
-/

namespace DedupImage

variable {src packed : ByteArray} {room : Nat}

/-- A string is a zlib stream of another one. -/
def Zlib.Encodes (packed src : ByteArray) : Prop :=
  Zlib.unpack packed src.size = .ok src

/-- A string is a sequence of Zstandard frames of another one. -/
def Zstd.Encodes (packed src : ByteArray) : Prop :=
  Zstd.unpack packed src.size = .ok src

/-- The greatest size of a zlib stream: five bytes more for every 16 KiB that are begun, and six. -/
def Zlib.worst (n : Nat) : Nat :=
  n + 5 * (n / 16384 + 1) + 6

/-- Room that is always enough for a Zstandard frame. Short strings have an extra margin. -/
def Zstd.worst (n : Nat) : Nat :=
  n + n / 256 + if n < 131072 then (131072 - n) / 2048 else 0

namespace StreamCoder

variable {c : StreamCoder} {P : ByteArray → Nat → Option StreamReport → Prop}

/-- The states that a stream can be in: how much of the input is dealt with then, and what has been made. The
room may be different for every call. -/
inductive Calls (c : StreamCoder) (src : ByteArray) : c.State → Nat → ByteArray → Prop
  | start (state : c.State) : Calls c src (c.reset state) 0 ByteArray.empty
  | call {state state' : c.State} {taken room : Nat} {out : ByteArray} {r : StreamReport}
      (before : Calls c src state taken out)
      (answer : c.finish state (src.extract taken src.size) room = (state', some r)) (more : r.status = .more) :
      Calls c src state' (taken + r.taken) (out ++ r.made)

/-- Something holds of every call that continues a stream: of what was made before, the room and the answer. -/
structure Keeps (c : StreamCoder) (src : ByteArray) (P : ByteArray → Nat → Option StreamReport → Prop) :
    Prop where
  call : ∀ {state taken out}, c.Calls src state taken out → ∀ {room state' answer},
    c.finish state (src.extract taken src.size) room = (state', answer) → P out room answer

/-- A call that fails or leaves everything as it was. -/
def Useless : Option StreamReport → Prop
  | none => True
  | some r => r.status = .stuck ∨ r.status = .more ∧ r.taken = 0 ∧ r.made.size = 0

/-- What a loop of calls can end with: with the end of the stream, or with a call that is useless. -/
def EndsWith (P : ByteArray → Nat → Option StreamReport → Prop) (room : Nat)
    (result : Except StorageFailure ByteArray) : Prop :=
  (∃ out r, P out (room - out.size) (some r) ∧ r.status = .done ∧ (out ++ r.made).size ≤ room ∧
      result = .ok (out ++ r.made)) ∨
    ∃ out answer e, P out (room - out.size) answer ∧ Useless answer ∧ out.size ≤ room ∧ result = .error e

/-- A loop from a state that a stream can be in ends with one call. -/
theorem Keeps.drive (h : c.Keeps src P) {state : c.State} {taken : Nat} {out : ByteArray}
    (hcalls : c.Calls src state taken out) (hout : out.size ≤ room) :
    EndsWith P room (c.drive src room state taken out).1 := by
  fun_induction c.drive src room state taken out with
  | case1 state taken out state' hcall => exact .inr ⟨_, _, _, h.call hcalls hcall, trivial, hout, rfl⟩
  | case2 state taken out state' r hcall hdone =>
    have hbounds := c.bounded hcall
    refine .inl ⟨_, _, h.call hcalls hcall, hdone, ?_, rfl⟩
    rw [ByteArray.size_append]
    omega
  | case3 state taken out state' r hcall hstuck =>
    exact .inr ⟨_, _, _, h.call hcalls hcall, Or.inl hstuck, hout, rfl⟩
  | case4 state taken out state' r hcall hmore hstill =>
    exact .inr ⟨_, _, _, h.call hcalls hcall, Or.inr ⟨hmore, hstill⟩, hout, rfl⟩
  | case5 state taken out state' r hcall hmore _ ih =>
    have hbounds := c.bounded hcall
    refine ih (hcalls.call hcall hmore) ?_
    rw [ByteArray.size_append]
    omega

/-- **What holds of every call holds of the last one.** -/
theorem Keeps.run (h : c.Keeps src P) (state : c.State) (room : Nat) : EndsWith P room (c.run state src room).1 :=
  h.drive (.start state) (Nat.zero_le room)

/-! ## Zlib streams -/

/-- What a call does that continues to compress `src`. -/
structure DeflateCall (src out : ByteArray) (room : Nat) (answer : Option StreamReport) : Prop where
  useful : Useless answer → room = 0
  short : ∀ r, answer = some r → (out ++ r.made).size ≤ Zlib.worst src.size
  encodes : ∀ r, answer = some r → r.status = .done → Zlib.Encodes (out ++ r.made) src

/-- What a call does that continues to decompress a stream of `src`. -/
structure InflateCall (src out : ByteArray) (room : Nat) (answer : Option StreamReport) : Prop where
  useful : Useless answer → out.size + room < src.size
  restores : ∀ r, answer = some r → r.status = .done → out ++ r.made = src

/-- A coder writes zlib streams. A call is useless only if it has no room. -/
def Deflates (c : StreamCoder) : Prop :=
  ∀ src, c.Keeps src (DeflateCall src)

/-- A coder reads zlib streams, whatever is behind them. A call is useless only if it has not enough room. -/
def Inflates (c : StreamCoder) : Prop :=
  ∀ packed src, Zlib.Encodes packed src → ∀ tail, c.Keeps (packed ++ tail) (InflateCall src)

/-- What has been made is never too long. -/
theorem Deflates.size_le (h : c.Deflates) {state : c.State} {taken : Nat} {out : ByteArray}
    (hcalls : c.Calls src state taken out) : out.size ≤ Zlib.worst src.size := by
  cases hcalls with
  | start => exact Nat.zero_le _
  | call before answer more => exact ((h src).call before answer).short _ rfl

/-- What is written is a stream. -/
theorem Deflates.encodes_of_run (h : c.Deflates) {state : c.State}
    (hresult : (c.run state src room).1 = .ok packed) :
    Zlib.Encodes packed src := by
  rcases (h src).run state room with ⟨out, r, hcall, hdone, -, hrun⟩ | ⟨out, answer, e, -, -, -, hrun⟩
  · rw [hresult] at hrun
    obtain rfl := Except.ok.inj hrun
    exact hcall.encodes r rfl hdone
  · rw [hresult] at hrun
    cases hrun

/-- **With a little more room than a stream takes at most, every string is compressed.** -/
theorem Deflates.run (h : c.Deflates) (state : c.State) (hroom : Zlib.worst src.size < room) :
    ∃ packed, (c.run state src room).1 = .ok packed ∧ packed.size ≤ Zlib.worst src.size := by
  have hkeeps : c.Keeps src fun out room answer =>
      DeflateCall src out room answer ∧ out.size ≤ Zlib.worst src.size :=
    ⟨fun hcalls _ _ _ hanswer => ⟨(h src).call hcalls hanswer, h.size_le hcalls⟩⟩
  rcases hkeeps.run state room with ⟨out, r, ⟨hcall, -⟩, -, -, hresult⟩ |
    ⟨out, answer, e, ⟨hcall, hsize⟩, huseless, -⟩
  · exact ⟨_, hresult, hcall.short r rfl⟩
  · -- there was room for at least one more byte
    have hnone := hcall.useful huseless
    omega

/-- **A stream is decompressed if there is room for what it encodes**, and otherwise that is a failure. -/
theorem Inflates.run (h : c.Inflates) (hpacked : Zlib.Encodes packed src) (tail : ByteArray) (state : c.State) :
    (src.size ≤ room → (c.run state (packed ++ tail) room).1 = .ok src) ∧
      (room < src.size → ∃ e, (c.run state (packed ++ tail) room).1 = .error e) := by
  rcases (h packed src hpacked tail).run state room with
    ⟨out, r, hcall, hdone, hsize, hresult⟩ | ⟨out, answer, e, hcall, huseless, hout, hresult⟩
  · rw [hcall.restores r rfl hdone] at hsize hresult
    exact ⟨fun _ => hresult, fun hroom => absurd hsize (Nat.not_le.mpr hroom)⟩
  · have hshort := hcall.useful huseless
    exact ⟨fun hroom => by omega, fun _ => ⟨e, hresult⟩⟩

end StreamCoder

/-! ## Zstandard frames -/

namespace BulkCoder

variable {c : BulkCoder}

/-- A coder writes Zstandard frames. It does so if a string is announced by a word and there is enough room. -/
structure Packs (c : BulkCoder) : Prop where
  ready : c.new?.isSome
  encodes : ∀ {state src room state' packed}, c.run state src room = (state', some packed) →
    Zstd.Encodes packed.1 src
  works : ∀ {src room}, src.size < UInt64.size → Zstd.worst src.size ≤ room → ∀ state,
    (c.run state src room).2.isSome

/-- A coder reads Zstandard frames. It does so if there is enough room. -/
structure Unpacks (c : BulkCoder) : Prop where
  ready : c.new?.isSome
  restores : ∀ {packed src}, Zstd.Encodes packed src → ∀ {state room state' out},
    c.run state packed room = (state', some out) → out.1 = src
  works : ∀ {packed src room}, Zstd.Encodes packed src → src.size ≤ room → ∀ state,
    (c.run state packed room).2.isSome

/-- A context is there when it is needed. -/
theorem exists_call_eq (hready : c.new?.isSome) (slot : Option c.State) (src : ByteArray) (room : Nat) :
    ∃ state state' answer, c.run state src room = (state', answer) ∧
      (c.call slot src room).1 = match answer with
        | none => .error .other
        | some out => .ok out.1 := by
  obtain ⟨new, hnew⟩ := Option.isSome_iff_exists.mp hready
  have hstate : slot.or c.new? = some (slot.getD new) := by
    rw [hnew]
    cases slot <;> rfl
  cases hrun : c.run (slot.getD new) src room with
  | mk state' answer =>
    refine ⟨_, state', answer, hrun, ?_⟩
    unfold call
    rw [hstate]
    dsimp only
    rw [hrun]
    cases answer <;> rfl

/-- What is written is a frame. -/
theorem Packs.encodes_of_call (h : c.Packs) {slot : Option c.State}
    (hresult : (c.call slot src room).1 = .ok packed) :
    Zstd.Encodes packed src := by
  obtain ⟨state, state', answer, hrun, hcall⟩ := exists_call_eq h.ready slot src room
  rw [hresult] at hcall
  cases answer with
  | none => cases hcall
  | some out =>
    obtain rfl := Except.ok.inj hcall
    exact h.encodes hrun

/-- **With room enough every string is compressed.** -/
theorem Packs.call (h : c.Packs) (slot : Option c.State) (hlength : src.size < UInt64.size)
    (hroom : Zstd.worst src.size ≤ room) :
    ∃ packed, (c.call slot src room).1 = .ok packed ∧ packed.size ≤ room := by
  obtain ⟨state, state', answer, hrun, hcall⟩ := exists_call_eq h.ready slot src room
  have hworks := h.works hlength hroom state
  rw [hrun] at hworks
  obtain ⟨packed, rfl⟩ := Option.isSome_iff_exists.mp hworks
  exact ⟨packed.1, hcall, packed.2⟩

/-- **A frame is decompressed if there is room for what it encodes**, and otherwise that is a failure. -/
theorem Unpacks.call (h : c.Unpacks) (hpacked : Zstd.Encodes packed src) (slot : Option c.State) :
    (src.size ≤ room → (c.call slot packed room).1 = .ok src) ∧
      (room < src.size → ∃ e, (c.call slot packed room).1 = .error e) := by
  obtain ⟨state, state', answer, hrun, hcall⟩ := exists_call_eq h.ready slot packed room
  cases answer with
  | none =>
    refine ⟨fun hroom => ?_, fun _ => ⟨_, hcall⟩⟩
    have hworks := h.works hpacked hroom state
    rw [hrun] at hworks
    cases hworks
  | some out =>
    obtain ⟨out, hout⟩ := out
    obtain rfl : out = src := h.restores hpacked hrun
    exact ⟨fun _ => hcall, fun hroom => absurd hout (Nat.not_le.mpr hroom)⟩

end BulkCoder

/-- A compression library does what is promised, at all levels that are accepted. -/
structure CodecLibrary.Documented (lib : CodecLibrary) : Prop where
  deflater : ∀ level, 1 ≤ level → level ≤ 9 → (lib.deflater level).Deflates
  inflater : lib.inflater.Inflates
  packer : ∀ level : Int, 1 ≤ level → level ≤ 22 → (lib.packer level).Packs
  unpacker : lib.unpacker.Unpacks

end DedupImage
