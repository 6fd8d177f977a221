import DedupImage.Codec.Standard
import DedupImage.Proofs.Codec.Coders
import DedupImage.Proofs.Codec.Zlib
import DedupImage.Proofs.Codec.Zstd

/-!
# The compression library of this project does what is promised

All that `CodecLibrary.Documented` asks of a library holds of `CodecLibrary.standard`
(`CodecLibrary.documented_standard`). For the coders that do everything at once this is what is known of streams and
frames. The coder that hands out a zlib stream bit by bit has one invariant: what it has handed out and what is
left make up the stream.
-/

namespace DedupImage

variable {src out packed : ByteArray} {taken room : Nat}

namespace Zlib

variable {level : Nat}

/-- What is handed out and what is left are what there was. -/
theorem extract_append_extract (pending : ByteArray) (room : Nat) :
    pending.extract 0 room ++ pending.extract room pending.size = pending := by
  rw [ByteArray.extract_append_extract, Nat.min_eq_left (Nat.zero_le room), ← extract_min_size,
    Nat.min_eq_right (Nat.le_max_right ..), ByteArray.extract_zero_size]

/-- What a coder of streams still has to hand out. -/
def pendingOf (level : Nat) (state : (deflater level).State) (given : ByteArray) : ByteArray :=
  Option.getD state (pack level given)

/-- What has been handed out and what is left make up the stream. -/
theorem out_append_pending {state : (deflater level).State}
    (hcalls : (deflater level).Calls src state taken out) :
    out ++ pendingOf level state (src.extract taken src.size) = pack level src := by
  induction hcalls with
  | start state =>
    change ByteArray.empty ++ pack level (src.extract 0 src.size) = _
    rw [ByteArray.empty_append, ByteArray.extract_zero_size]
  | @call state state' taken room out r before answer more ih =>
    obtain ⟨rfl, hr⟩ := Prod.mk.inj answer
    obtain rfl := Option.some.inj hr
    rw [← ih, ByteArray.append_assoc]
    exact congrArg (out ++ ·) (extract_append_extract _ room)

/-- A call that hands out all that there is room for, when these bytes and those before are a stream. -/
theorem deflateCall_handOut {pending : ByteArray} (given : ByteArray) (room : Nat)
    (hpending : out ++ pending = pack level src) :
    StreamCoder.DeflateCall src out room (handOut pending given room).2 := by
  have hsize := size_pack_le level src
  rw [← hpending, ByteArray.size_append] at hsize
  refine ⟨?_, ?_, ?_⟩
  · rintro (hstuck | ⟨hmore, -, hnothing⟩)
    · dsimp only at hstuck
      split at hstuck
      · cases hstuck
      · split at hstuck
        · assumption
        · cases hstuck
    · dsimp only at hmore hnothing
      rw [ByteArray.size_extract] at hnothing
      split at hmore
      · cases hmore
      · omega
  · rintro r hr
    obtain rfl := Option.some.inj hr
    rw [ByteArray.size_append, ByteArray.size_extract]
    unfold worst
    omega
  · rintro r hr hdone
    obtain rfl := Option.some.inj hr
    dsimp only at hdone ⊢
    split at hdone
    next hall =>
      rw [← extract_min_size, Nat.min_eq_right hall, ByteArray.extract_zero_size, hpending]
      exact unpack_pack level src
    · split at hdone <;> cases hdone

theorem deflates_deflater (level : Nat) : (deflater level).Deflates := by
  refine fun src => ⟨fun {state taken out} hcalls {room state' answer} hanswer => ?_⟩
  obtain ⟨rfl, rfl⟩ := Prod.mk.inj hanswer
  exact deflateCall_handOut _ room (out_append_pending hcalls)

theorem reportOf_of_read {given : ByteArray} {stop : Nat} (h : read given room = .ok (out, stop)) :
    reportOf given room = some ⟨stop, out, .done⟩ := by
  unfold reportOf
  rw [h]
  exact if_pos (read_bounds h)

/-- There is never more to do after a call, and a stream that has ended has been read. -/
theorem reportOf_eq_some {given : ByteArray} {r : StreamReport} (h : reportOf given room = some r) :
    r.status ≠ .more ∧ (r.status = .done → read given room = .ok (r.made, r.taken)) := by
  unfold reportOf at h
  split at h
  next hread =>
    split at h
    · obtain rfl := Option.some.inj h
      exact ⟨by simp, fun _ => hread⟩
    · cases h
  · obtain rfl := Option.some.inj h
    exact ⟨by simp, by simp⟩
  · cases h

/-- The coder that reads streams has nothing to continue. -/
theorem inflater_calls {state : inflater.State} (hcalls : inflater.Calls src state taken out) :
    taken = 0 ∧ out = ByteArray.empty := by
  cases hcalls with
  | start => exact ⟨rfl, rfl⟩
  | call before answer more =>
    obtain ⟨-, hr⟩ := Prod.mk.inj answer
    exact absurd more (reportOf_eq_some hr).1

theorem inflates_inflater : inflater.Inflates := by
  refine fun packed src hpacked tail => ⟨fun {state taken out} hcalls {room state' answer} hanswer => ?_⟩
  obtain ⟨rfl, rfl⟩ := inflater_calls hcalls
  obtain ⟨-, rfl⟩ := Prod.mk.inj hanswer
  obtain ⟨stop, hread⟩ := unpack_eq_ok hpacked
  rw [ByteArray.extract_zero_size]
  refine ⟨fun huseless => ?_, fun r hr hdone => ?_⟩
  · -- with room enough the stream is read to its end
    by_contra hroom
    rw [ByteArray.size_empty, Nat.zero_add] at hroom
    rw [reportOf_of_read (read_append hread (Nat.not_lt.mp hroom) tail)] at huseless
    simp [StreamCoder.Useless] at huseless
  · -- with room for both results they would be the same
    have hresult := read_append ((reportOf_eq_some hr).2 hdone) (Nat.le_max_left room src.size) ByteArray.empty
    rw [ByteArray.append_empty, read_append hread (Nat.le_max_right room src.size) tail] at hresult
    rw [ByteArray.empty_append]
    exact (Prod.mk.inj (Except.ok.inj hresult)).1.symm

end Zlib

namespace Zstd

/-- A frame is never longer than what is always enough. -/
theorem size_pack_le_worst (level : Nat) (src : ByteArray) : (pack level src).size ≤ worst src.size := by
  have hsize := size_pack_le level src
  unfold worst
  split <;> omega

theorem fitting_of_le (h : out.size ≤ room) : fitting out room = some ⟨out, h⟩ :=
  dif_pos h

theorem eq_of_fitting {result : { out : ByteArray // out.size ≤ room }} (h : fitting out room = some result) :
    result.1 = out := by
  unfold fitting at h
  split at h
  · obtain rfl := Option.some.inj h
    rfl
  · cases h

theorem packs_packer (level : Int) : (packer level).Packs where
  ready := rfl
  encodes h := by
    obtain ⟨-, hresult⟩ := Prod.mk.inj h
    split at hresult
    next hlength =>
      rw [eq_of_fitting hresult]
      exact unpack_pack level.toNat hlength (Nat.le_refl _)
    · cases hresult
  works {src room} hlength hroom state := by
    have hfits := Nat.le_trans (size_pack_le_worst level.toNat src) hroom
    change (if src.size < UInt64.size then fitting (pack level.toNat src) room else none).isSome = true
    rw [if_pos hlength, fitting_of_le hfits]
    rfl

/-- Whatever frames unpack to is handed over: they are never unpacked past the room. -/
theorem run_unpacker (state : unpacker.State) (packed : ByteArray) (room : Nat) :
    ((unpacker.run state packed room).2).map Subtype.val = (unpack packed room).toOption := by
  unfold unpacker
  cases hout : unpack packed room with
  | error e =>
    dsimp only
    rw [hout]
    rfl
  | ok out =>
    dsimp only
    rw [hout]
    dsimp only
    rw [fitting_of_le (unpack_size_le hout)]
    rfl

theorem unpacks_unpacker : unpacker.Unpacks where
  ready := rfl
  restores {packed src} hpacked {state room state' out} h := by
    have hrun := run_unpacker state packed room
    rw [h, Option.map_some] at hrun
    cases hout : unpack packed room with
    | error e =>
      rw [hout] at hrun
      cases hrun
    | ok text =>
      rw [hout] at hrun
      -- with room for both results they would be the same
      have hboth := unpack_of_le hout (Nat.le_max_left room src.size)
      rw [unpack_of_le hpacked (Nat.le_max_right room src.size)] at hboth
      rw [Option.some.inj hrun, Except.ok.inj hboth]
  works {packed src room} hpacked hroom state := by
    have hrun := run_unpacker state packed room
    rw [unpack_of_le hpacked hroom] at hrun
    exact Option.isSome_map.symm.trans (congrArg Option.isSome hrun)

end Zstd

/-- **The library of this project does what is promised.** -/
theorem CodecLibrary.documented_standard : standard.Documented where
  deflater level _ _ := Zlib.deflates_deflater level
  inflater := Zlib.inflates_inflater
  packer level _ _ := Zstd.packs_packer level
  unpacker := Zstd.unpacks_unpacker

end DedupImage
