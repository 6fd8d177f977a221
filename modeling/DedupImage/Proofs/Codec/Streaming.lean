import DedupImage.Codec.Streaming
import DedupImage.Proofs.Bytes

/-!
# Coders and buffers

A coder works into a buffer of fixed size. After every call the loop looks up how much has been taken and how
much has been made, and goes on from there (`StreamCoder.driveOver`). Nothing is written twice, so what is in the
buffer in the end is what the calls have made, one after the other (`StreamCoder.driveOver_eq`).
-/

namespace DedupImage

variable {src out piece dst : ByteArray} {room taken : Nat}

/-- What is put behind a beginning continues it. -/
theorem slice_overwrite_append (hout : slice dst 0 out.size = out) :
    slice (overwrite dst out.size piece) 0 (out.size + piece.size) = out ++ piece := by
  have hbegin : dst.extract 0 out.size = out := by rwa [slice, Nat.zero_add] at hout
  have hsize : (out ++ piece).size = out.size + piece.size := ByteArray.size_append
  rw [overwrite_eq, hbegin, slice_append _ (by omega), ← hsize, slice_all]

/-- The part of a buffer that is filled. -/
def cut (filled : ByteArray × Nat) : ByteArray :=
  slice filled.1 0 filled.2

namespace StreamCoder

variable {c : StreamCoder} {state : c.State}

/-- Call a coder until the stream has ended, and put what it makes over a buffer. `totalIn` bytes have been taken
and `totalOut` made. The result is the buffer, and how much of it is filled. -/
def driveOver (c : StreamCoder) (src : ByteArray) (state : c.State) (totalIn totalOut : Nat) (dst : ByteArray) :
    Except StorageFailure (ByteArray × Nat) × c.State :=
  match _hcall : c.finish state (src.extract (min totalIn src.size) src.size)
      (dst.size - min totalOut dst.size) with
  | (state, none) => (.error .other, state)
  | (state, some r) =>
    let filled := overwrite dst (min totalOut dst.size) r.made
    match r.status with
    | .done => (.ok (filled, totalOut + r.made.size), state)
    | .stuck => (.error .unexpectedEof, state)
    | .more =>
      if (totalIn, totalOut) = (totalIn + r.taken, totalOut + r.made.size) then
        (.error .unexpectedEof, state)
      else
        driveOver c src state (totalIn + r.taken) (totalOut + r.made.size) filled
termination_by (src.size - totalIn) + (dst.size - totalOut)
decreasing_by
  have hbounds := c.bounded _hcall
  rw [ByteArray.size_extract] at hbounds
  rw [size_overwrite (Nat.min_le_right ..)]
  rename_i hmoved
  rw [Prod.mk.injEq] at hmoved
  omega

/-- What the loop makes of a failure of the library. -/
theorem driveOver_of_none {state' : c.State} (htaken : taken ≤ src.size) (hout : out.size ≤ dst.size)
    (hcall : c.finish state (src.extract taken src.size) (dst.size - out.size) = (state', none)) :
    c.driveOver src state taken out.size dst = (.error .other, state') := by
  rw [driveOver, Nat.min_eq_left htaken, Nat.min_eq_left hout]
  split
  all_goals
    rename_i hresult
    rw [hcall] at hresult
    cases hresult
  rfl

/-- What the loop makes of a report. -/
theorem driveOver_of_some {state' : c.State} {r : StreamReport} (htaken : taken ≤ src.size)
    (hout : out.size ≤ dst.size)
    (hcall : c.finish state (src.extract taken src.size) (dst.size - out.size) = (state', some r)) :
    c.driveOver src state taken out.size dst =
      match r.status with
      | .done => (.ok (overwrite dst out.size r.made, out.size + r.made.size), state')
      | .stuck => (.error .unexpectedEof, state')
      | .more =>
        if r.taken = 0 ∧ r.made.size = 0 then (.error .unexpectedEof, state')
        else c.driveOver src state' (taken + r.taken) (out.size + r.made.size)
          (overwrite dst out.size r.made) := by
  rw [driveOver, Nat.min_eq_left htaken, Nat.min_eq_left hout]
  split
  all_goals
    rename_i hresult
    rw [hcall] at hresult
    cases hresult
  simp

/-- **A buffer that is written in pieces holds what was made.** -/
theorem driveOver_eq (c : StreamCoder) (state : c.State) (htaken : taken ≤ src.size)
    (hout : slice dst 0 out.size = out) (hroom : out.size ≤ dst.size) :
    (c.driveOver src state taken out.size dst).1.map cut = (c.drive src dst.size state taken out).1 ∧
      (c.driveOver src state taken out.size dst).2 = (c.drive src dst.size state taken out).2 := by
  generalize hsize : dst.size = room at *
  fun_induction c.drive src room state taken out generalizing dst
  all_goals subst hsize
  case case1 hcall =>
    rw [driveOver_of_none htaken hroom hcall]
    exact ⟨rfl, rfl⟩
  case case2 hdone hcall =>
    rw [driveOver_of_some htaken hroom hcall, hdone]
    exact ⟨congrArg Except.ok (slice_overwrite_append hout), rfl⟩
  case case3 hstuck hcall =>
    rw [driveOver_of_some htaken hroom hcall, hstuck]
    exact ⟨rfl, rfl⟩
  case case4 hmore hstill hcall =>
    rw [driveOver_of_some htaken hroom hcall, hmore]
    dsimp only
    rw [if_pos hstill]
    exact ⟨rfl, rfl⟩
  case case5 state taken out state' r hmore hmoved hcall ih =>
    have hbounds := c.bounded hcall
    rw [ByteArray.size_extract] at hbounds
    have hsize : (overwrite dst out.size r.made).size = dst.size := by
      rw [size_overwrite hroom]
      omega
    have hjoined : (out ++ r.made).size = out.size + r.made.size := ByteArray.size_append
    rw [driveOver_of_some htaken hroom hcall, hmore]
    dsimp only
    rw [if_neg hmoved, ← hjoined]
    exact ih (by omega) (by rw [hjoined]; exact slice_overwrite_append hout) hsize (by omega)

/-- Turn a whole string into another one, over a buffer. -/
def runOver (c : StreamCoder) (state : c.State) (src dst : ByteArray) :
    Except StorageFailure (ByteArray × Nat) × c.State :=
  c.driveOver src (c.reset state) 0 0 dst

theorem runOver_eq (c : StreamCoder) (state : c.State) (src dst : ByteArray) :
    ((c.runOver state src dst).1.map cut, (c.runOver state src dst).2) = c.run state src dst.size := by
  have hempty : slice dst 0 ByteArray.empty.size = ByteArray.empty := slice_zero dst 0
  have hdrive := c.driveOver_eq (c.reset state) (Nat.zero_le src.size) hempty (Nat.zero_le dst.size)
  rw [ByteArray.size_empty] at hdrive
  unfold runOver run
  exact Prod.ext hdrive.1 hdrive.2

end StreamCoder

namespace BulkCoder

/-- Call a coder that does everything at once, over a buffer. -/
def callOver (c : BulkCoder) (slot : Option c.State) (src dst : ByteArray) :
    Except StorageFailure (ByteArray × Nat) × Option c.State :=
  let (result, slot) := c.call slot src dst.size
  (result.map fun out => (overwrite dst 0 out, out.size), slot)

theorem callOver_eq (c : BulkCoder) (slot : Option c.State) (src dst : ByteArray) :
    ((c.callOver slot src dst).1.map cut, (c.callOver slot src dst).2) = c.call slot src dst.size := by
  unfold callOver
  rcases c.call slot src dst.size with ⟨result, slot'⟩
  cases result with
  | error e => rfl
  | ok out => exact Prod.ext (congrArg Except.ok slice_overwrite_zero) rfl

end BulkCoder

end DedupImage
