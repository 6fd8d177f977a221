import DedupImage.Proofs.Image.Acceptance
import DedupImage.Proofs.Image.RoundTrip

/-!
# Opening an image in machine words

`ImageReader.openImage` counts in natural numbers. A program that opens images adds and multiplies words
of 64 bits, and divides words of 32 bits, while almost all operands come straight out of the image. Here
every such operation is checked: a sum or product that is not a word, or a quotient by zero, has no
value, and an opening that meets one has none either (`openInWords`).

For images shorter than 2^63 bytes that never happens, and both ways to open agree
(`openInWords_eq`). What keeps the words apart from their end is the order of the steps. A record's
place is only used once the length there was read, so it is inside the file, and the next place is at
most a length and a container further; a block table is only looked for where the superblock says, at a
word; and the container size, by which packed locators are divided, was checked before.
-/

namespace DedupImage

namespace ImageReader

/-! ## Checked operations -/

/-- A sum that is a word. -/
def sum? (a b : UInt64) : Option UInt64 :=
  if a.toNat + b.toNat < 2 ^ 64 then some (a + b) else none

/-- A product that is a word. -/
def product? (a b : UInt64) : Option UInt64 :=
  if a.toNat * b.toNat < 2 ^ 64 then some (a * b) else none

theorem sum?_eq {a b : UInt64} (h : a.toNat + b.toNat < 2 ^ 64) :
    ∃ w, sum? a b = some w ∧ w.toNat = a.toNat + b.toNat := by
  refine ⟨a + b, if_pos h, ?_⟩
  rw [UInt64.toNat_add, Nat.mod_eq_of_lt h]

theorem product?_eq {a b : UInt64} (h : a.toNat * b.toNat < 2 ^ 64) :
    ∃ w, product? a b = some w ∧ w.toNat = a.toNat * b.toNat := by
  refine ⟨a * b, if_pos h, ?_⟩
  rw [UInt64.toNat_mul, Nat.mod_eq_of_lt h]

/-! ## The steps of opening -/

/-- The length in front of a record, as a word. -/
def headerWord : UInt64 := recordHeaderSize.toUInt64

/-- Where the next record is. -/
def recordPlaceInWords (s : Superblock) (sparse : Bool) (id : UInt32) (position : UInt64) :
    Option UInt64 :=
  if sparse then do
    let stride ← sum? headerWord s.containerSize.toUInt64
    let distance ← product? id.toUInt64 stride
    sum? s.containerTableStart distance
  else
    some position

/-- `readRecords` in checked words. -/
def recordsInWords (bytes : ByteArray) (s : Superblock) (sparse : Bool) (id : UInt32)
    (position : UInt64) (out : Array ContainerRecord) :
    (n : Nat) → Option (Except Failure (Array ContainerRecord))
  | 0 => some (.ok out)
  | n + 1 => do
    let start ← recordPlaceInWords s sparse id position
    match recordLength bytes start.toNat with
    | .error e => some (.error e)
    | .ok size =>
      let data ← sum? start headerWord
      let stop ← sum? data size.toUInt64
      if (sparse ∧ s.containerSize.toNat < size) ∨ s.blockTableStart < stop then
        some (.error (.corruption (.recordOverruns id.toNat size start.toNat)))
      else
        recordsInWords bytes s sparse (id + 1) stop (out.push ⟨data.toNat, size⟩) n

/-- `LocatorFormat.decode` with checked divisions. -/
def decodeInWords : LocatorFormat → Locator → Option Location
  | .packed containerSize, .packed value =>
    if containerSize = 0 then none else some ⟨value / containerSize, value % containerSize⟩
  | format, locator => some (format.decode locator)

/-- `decodeTable` with checked divisions. -/
def decodeTableInWords (format : LocatorFormat) (containerCount : Nat) (table : ByteArray)
    (start : Nat) (out : Array Location) : (n : Nat) → Option (Except Failure (Array Location))
  | 0 => some (.ok out)
  | n + 1 =>
    match format.readAt table start with
    | none => some (.error (.corruption (.tableSize table.size (start + format.entrySize))))
    | some locator => do
      let l ← decodeInWords format locator
      if containerCount ≤ l.container.toNat then
        some (.error (.corruption (.tableContainer out.size l.container.toNat containerCount)))
      else
        decodeTableInWords format containerCount table (start + format.entrySize) (out.push l) n

/-- `readTable` in checked words. -/
def readTableInWords (bytes : ByteArray) (s : Superblock) (flags : ImageFlags) (codec : Codec)
    (containerCount : Nat) : Option (Except Failure (Array Location)) :=
  match recordLength bytes s.blockTableStart.toNat with
  | .error e => some (.error e)
  | .ok size => do
    let whole ← sum? size.toUInt64 headerWord
    if whole ≠ s.blockTableSize then
      some (.error (.corruption (.tableRecordSize size s.blockTableSize.toNat)))
    else
      let data ← sum? s.blockTableStart headerWord
      match exactly bytes data.toNat size with
      | .error e => some (.error e)
      | .ok packed =>
        let format : LocatorFormat := if flags.packed then .packed s.containerSize else .unpacked
        let expected ← product? s.blockCount.toUInt64 format.entrySize.toUInt64
        match codec.decompressInto packed expected.toNat with
        | .error e => some (.error (.storage e))
        | .ok table =>
          if table.size ≠ expected.toNat then
            some (.error (.corruption (.tableSize table.size expected.toNat)))
          else
            decodeTableInWords format containerCount table 0 #[] s.blockCount.toNat

/-- `openImage` in checked words. It has no value if an operation leaves the words. -/
def openInWords (codecs : Scheme → Codec) (bytes : ByteArray) :
    Option (Except Failure ImageReader) :=
  match exactly bytes 0 Superblock.size with
  | .error e => some (.error e)
  | .ok raw =>
    let s := Superblock.read raw
    match checkSuperblock s with
    | .error e => some (.error e)
    | .ok (flags, scheme) => do
      let codec := codecs scheme
      match ← recordsInWords bytes s flags.sparse 0 s.containerTableStart #[]
          s.containerCount.toNat with
      | .error e => some (.error e)
      | .ok records =>
        match ← readTableInWords bytes s flags codec records.size with
        | .error e => some (.error e)
        | .ok table =>
          some <| .ok
            { bytes := bytes
              codec := codec
              superblock := s
              flags := flags
              records := records
              table := table }

variable {bytes : ByteArray} {s : Superblock}

/-! ## The records -/

theorem headerWord_toNat : headerWord.toNat = recordHeaderSize := rfl

/-- A place that is a word is found in words. -/
theorem recordPlaceInWords_eq {sparse : Bool} {id : UInt32} {position : UInt64}
    (h : recordPlace s sparse id.toNat position.toNat < 2 ^ 64) :
    ∃ w, recordPlaceInWords s sparse id position = some w ∧
      w.toNat = recordPlace s sparse id.toNat position.toNat := by
  unfold recordPlace at *
  cases sparse with
  | false => exact ⟨position, rfl, rfl⟩
  | true =>
    rw [if_pos rfl] at h ⊢
    have hsize := s.containerSize.toNat_lt
    obtain ⟨stride, hstride, hstrideNat⟩ := sum?_eq (a := headerWord) (b := s.containerSize.toUInt64)
      (by rw [headerWord_toNat, UInt32.toNat_toUInt64, recordHeaderSize]; omega)
    rw [headerWord_toNat, UInt32.toNat_toUInt64, ← sparseStride] at hstrideNat
    obtain ⟨distance, hdistance, hdistanceNat⟩ := product?_eq (a := id.toUInt64) (b := stride)
      (by rw [UInt32.toNat_toUInt64, hstrideNat]; omega)
    rw [UInt32.toNat_toUInt64, hstrideNat] at hdistanceNat
    obtain ⟨start, hstart, hstartNat⟩ := sum?_eq (a := s.containerTableStart) (b := distance)
      (by rw [hdistanceNat]; exact h)
    refine ⟨start, ?_, by rw [hstartNat, hdistanceNat]⟩
    simp [recordPlaceInWords, hstride, hdistance, hstart]

/-- The next place is at most a length and a container behind the end of the file. -/
theorem recordPlace_succ_lt {sparse : Bool} {id position size : Nat} (hbytes : bytes.size < 2 ^ 63)
    (hlength : recordLength bytes (recordPlace s sparse id position) = .ok size) :
    recordPlace s sparse (id + 1)
      (recordPlace s sparse id position + recordHeaderSize + size) < 2 ^ 64 := by
  have hread := recordLength_le hlength
  have hword := recordLength_lt hlength
  have hsize := s.containerSize.toNat_lt
  cases sparse with
  | false =>
    unfold recordPlace at *
    simp only [Bool.false_eq_true, if_false] at *
    omega
  | true =>
    unfold recordPlace at *
    simp only [if_true, Nat.succ_mul, sparseStride, recordHeaderSize] at *
    omega

/-- No sum or product of the walk along the records leaves the words. -/
theorem recordsInWords_eq {sparse : Bool} {id : UInt32} {position : UInt64} {n : Nat}
    (hbytes : bytes.size < 2 ^ 63) (hid : id.toNat + n < 2 ^ 32)
    (hplace : recordPlace s sparse id.toNat position.toNat < 2 ^ 64) (out : Array ContainerRecord) :
    recordsInWords bytes s sparse id position out n =
      some (readRecords bytes s sparse id.toNat position.toNat out n) := by
  induction n generalizing id position out with
  | zero => rfl
  | succ n ih =>
    obtain ⟨start, hstart, hstartNat⟩ := recordPlaceInWords_eq hplace
    unfold recordsInWords readRecords
    dsimp only
    rw [← recordPlace, ← hstartNat, hstart, Option.bind_eq_bind, Option.bind_some]
    cases hlength : recordLength bytes start.toNat with
    | error e => rfl
    | ok size =>
      have hread := recordLength_le hlength
      have hword := recordLength_lt hlength
      have hsizeNat : size.toUInt64.toNat = size := toNat_toUInt64 (by omega)
      obtain ⟨data, hdata, hdataNat⟩ := sum?_eq (a := start) (b := headerWord)
        (by rw [headerWord_toNat]; omega)
      rw [headerWord_toNat] at hdataNat
      obtain ⟨stop, hstop, hstopNat⟩ := sum?_eq (a := data) (b := size.toUInt64)
        (by rw [hdataNat, hsizeNat]; omega)
      rw [hdataNat, hsizeNat] at hstopNat
      have hidNat : (id + 1).toNat = id.toNat + 1 := by
        rw [UInt32.toNat_add]
        exact Nat.mod_eq_of_lt (by have : (1 : UInt32).toNat = 1 := rfl; omega)
      have hnext : recordPlace s sparse (id.toNat + 1)
          (recordPlace s sparse id.toNat position.toNat + recordHeaderSize + size) < 2 ^ 64 :=
        recordPlace_succ_lt hbytes (by rw [← hstartNat]; exact hlength)
      rw [← hstartNat, ← hstopNat, ← hidNat] at hnext
      simp only [hdata, hstop, Option.bind_some, UInt64.lt_iff_toNat_lt, hdataNat, hstopNat]
      split
      · rfl
      · rw [ih (by omega) hnext, hidNat, hstopNat]

/-! ## The block table -/

/-- A format by whose container size locators can be divided. -/
def Divides : LocatorFormat → Prop
  | .packed containerSize => 0 < containerSize.toNat
  | .unpacked => True

/-- The size of a container that was checked is not zero. -/
theorem decodeInWords_eq {format : LocatorFormat} (h : Divides format) (locator : Locator) :
    decodeInWords format locator = some (format.decode locator) := by
  cases format with
  | unpacked => rfl
  | packed containerSize =>
    cases locator with
    | unpacked container offset => rfl
    | packed value =>
      have hne : containerSize ≠ 0 := by
        rintro rfl
        exact absurd h (Nat.lt_irrefl 0)
      exact if_neg hne

theorem decodeTableInWords_eq {format : LocatorFormat} (h : Divides format) (count : Nat)
    (table : ByteArray) (start : Nat) (out : Array Location) (n : Nat) :
    decodeTableInWords format count table start out n =
      some (decodeTable format count table start out n) := by
  induction n generalizing start out with
  | zero => rfl
  | succ n ih =>
    unfold decodeTableInWords decodeTable
    cases format.readAt table start with
    | none => rfl
    | some locator =>
      simp only [decodeInWords_eq h, Option.bind_eq_bind, Option.bind_some]
      split
      · rfl
      · exact ih _ _

/-- The flags of a superblock choose a format that divides, if its container size was checked. -/
theorem divides_choice {containerSize : UInt32} (h : 0 < containerSize.toNat) (packed : Bool) :
    Divides (if packed = true then .packed containerSize else .unpacked) := by
  split
  · exact h
  · trivial

/-- The size of a block table is a word, as no locator takes more than eight bytes. -/
theorem tableSizeInWords_eq (count : UInt32) (format : LocatorFormat) :
    ∃ w, product? count.toUInt64 format.entrySize.toUInt64 = some w ∧
      w.toNat = count.toNat * format.entrySize := by
  have hcount := count.toNat_lt
  have hentry : format.entrySize.toUInt64.toNat = format.entrySize := by
    cases format <;> rfl
  have hentryLe : format.entrySize ≤ 8 := by
    cases format <;> simp [LocatorFormat.entrySize]
  have hword : count.toNat * format.entrySize < 2 ^ 64 := by
    calc count.toNat * format.entrySize
        ≤ count.toNat * 8 := Nat.mul_le_mul_left _ hentryLe
      _ < 2 ^ 64 := by omega
  obtain ⟨w, hw, hwNat⟩ := product?_eq (a := count.toUInt64) (b := format.entrySize.toUInt64)
    (by rwa [UInt32.toNat_toUInt64, hentry])
  rw [UInt32.toNat_toUInt64, hentry] at hwNat
  exact ⟨w, hw, hwNat⟩

/-- No sum, product or quotient of reading the block table leaves the words. -/
theorem readTableInWords_eq {flags : ImageFlags} {codec : Codec} (count : Nat)
    (hbytes : bytes.size < 2 ^ 63) (hsize : 0 < s.containerSize.toNat) :
    readTableInWords bytes s flags codec count = some (readTable bytes s flags codec count) := by
  unfold readTableInWords readTable
  dsimp only
  cases hlength : recordLength bytes s.blockTableStart.toNat with
  | error e => rfl
  | ok size =>
    have hread := recordLength_le hlength
    have hword := recordLength_lt hlength
    have hsizeNat : size.toUInt64.toNat = size := toNat_toUInt64 (by omega)
    obtain ⟨whole, hwhole, hwholeNat⟩ := sum?_eq (a := size.toUInt64) (b := headerWord)
      (by rw [hsizeNat, headerWord_toNat, recordHeaderSize]; omega)
    rw [hsizeNat, headerWord_toNat] at hwholeNat
    obtain ⟨data, hdata, hdataNat⟩ := sum?_eq (a := s.blockTableStart) (b := headerWord)
      (by rw [headerWord_toNat]; omega)
    rw [headerWord_toNat] at hdataNat
    have hdivides := divides_choice hsize flags.packed
    generalize (if flags.packed = true then LocatorFormat.packed s.containerSize
      else LocatorFormat.unpacked) = format at hdivides ⊢
    obtain ⟨expected, hexpected, hexpectedNat⟩ := tableSizeInWords_eq s.blockCount format
    simp only [hwhole, hdata, hexpected, Option.bind_eq_bind, Option.bind_some, ne_eq,
      ← UInt64.toNat_inj, hwholeNat, hdataNat, hexpectedNat]
    split
    · rfl
    · cases exactly bytes (s.blockTableStart.toNat + recordHeaderSize) size with
      | error e => rfl
      | ok packed =>
        dsimp only
        cases codec.decompressInto packed (s.blockCount.toNat * format.entrySize) with
        | error e => rfl
        | ok table =>
          dsimp only
          split
          · rfl
          · exact decodeTableInWords_eq hdivides count table 0 #[] _

/-! ## Opening -/

/-- **No operation leaves the words.** -/
theorem openInWords_eq (codecs : Scheme → Codec) (hbytes : bytes.size < 2 ^ 63) :
    openInWords codecs bytes = some (openImage codecs bytes) := by
  unfold openInWords openImage
  cases hraw : exactly bytes 0 Superblock.size with
  | error e => rfl
  | ok raw =>
    dsimp only
    cases hcheck : checkSuperblock (Superblock.read raw) with
    | error e => rfl
    | ok accepted =>
      obtain ⟨flags, scheme⟩ := accepted
      have hsize := (checkSuperblock_eq_ok hcheck).2.2.2.2.1
      have hcount : UInt32.toNat 0 + (Superblock.read raw).containerCount.toNat < 2 ^ 32 := by
        rw [UInt32.toNat_zero, Nat.zero_add]
        exact UInt32.toNat_lt _
      have hplace : recordPlace (Superblock.read raw) flags.sparse (UInt32.toNat 0)
          (Superblock.read raw).containerTableStart.toNat < 2 ^ 64 := by
        rw [UInt32.toNat_zero, recordPlace_zero]
        exact UInt64.toNat_lt _
      have hrecords := recordsInWords_eq hbytes hcount hplace #[]
      rw [UInt32.toNat_zero] at hrecords
      simp only [hrecords, readTableInWords_eq _ hbytes hsize, Option.bind_eq_bind, Option.bind_some]
      cases readRecords bytes (Superblock.read raw) flags.sparse 0
          (Superblock.read raw).containerTableStart.toNat #[]
          (Superblock.read raw).containerCount.toNat with
      | error e => rfl
      | ok records =>
        dsimp only
        cases readTable bytes (Superblock.read raw) flags (codecs scheme) records.size <;> rfl

/-- **Any bytes may be given as an image.** If they are shorter than 2^63, then no sum or product that is
made while they are opened leaves the words of 64 bits, and no locator is divided by zero. Opening ends
in a failure or in an image that is sound. -/
theorem any_bytes_open_soundly (codecs : Scheme → Codec) (bytes : ByteArray)
    (hbytes : bytes.size < 2 ^ 63) :
    openInWords codecs bytes = some (openImage codecs bytes) ∧
      ∀ r, openImage codecs bytes = .ok r → r.bytes = bytes ∧ r.Sound := by
  refine ⟨openInWords_eq codecs hbytes, ?_⟩
  intro r hr
  obtain ⟨-, -, -, -, -, -, hrBytes, -, -⟩ := openImage_eq_ok hr
  exact ⟨hrBytes, openImage_sound hr⟩

/-- A sparse image of two containers and three blocks. -/
def stridedImage : ByteArray :=
  ((ImageScript.of ⟨2, 4, true, true, 0⟩ (storedCodec .zstd) [⟨#[1, 2, 3]⟩, ⟨#[4]⟩]
    [⟨0, 0⟩, ⟨1, 0⟩, ⟨0, 1⟩]).run (.limited 1000)).2.bytes

/-- The second record of this image is eight bytes behind the first, though the first has only three. -/
theorem strided_image_opens_soundly :
    ∃ r, openInWords storedCodec stridedImage = some (.ok r) ∧ r.Sound ∧
      r.records = #[⟨76, 3⟩, ⟨84, 1⟩] := by
  have hsize : stridedImage.size < 2 ^ 63 := by decide +kernel
  obtain ⟨hwords, hsound⟩ := any_bytes_open_soundly storedCodec stridedImage hsize
  have hopen : (openImage storedCodec stridedImage).toOption.map ImageReader.records =
      some #[⟨76, 3⟩, ⟨84, 1⟩] := by decide +kernel
  obtain ⟨r, hr, hrecords⟩ := Option.map_eq_some_iff.mp hopen
  cases hopened : openImage storedCodec stridedImage with
  | error e =>
    rw [hopened] at hr
    cases hr
  | ok opened =>
    rw [hopened] at hr hwords
    obtain rfl := Option.some.inj hr
    exact ⟨opened, hwords, (hsound opened hopened).2, hrecords⟩

end ImageReader

end DedupImage
