import DedupImage.Bytes
import DedupImage.Codec.Scheme
import DedupImage.Layout.Location

/-!
# What can go wrong

Failures are causes, not texts. `StorageFailure` is what a reader, a writer, a directory or a codec
reports; `ConfigFault` is a setting that no image can be built with; `Corruption` is data that
contradicts itself. `Failure` joins them with the few causes that stand alone. `Failure.message` gives
the wording, and nothing else in the library writes the text of a failure.

An index segment that fails is not among these: the index only forgets, so its users never see it.
-/

namespace DedupImage

/-- A failure of the storage below, or of a codec working on a buffer. -/
inductive StorageFailure where
  | brokenPipe
  | connectionReset
  | isADirectory
  | notFound
  | other
  | permissionDenied
  | unexpectedEof
  | writeZero
  deriving DecidableEq, Repr, Inhabited

/-- A setting that no image can be built with. -/
inductive ConfigFault where
  | containerSize (size limit : Nat)
  | blockSize (size containerSize : Nat)
  | reserve (minFree containerSize : Nat)
  | shards (count limit : Nat)
  | noCandidates
  | noPeriod
  | noSegments
  | unknownOption (field : String)
  | levelUnreadable
  | levelOutside (level : Int) (least most : Nat)
  deriving DecidableEq, Repr

/-- The wording of a configuration fault. -/
def ConfigFault.message : ConfigFault → String
  | containerSize size limit =>
    "container size " ++ toString size ++ " must be between 1 and " ++ toString limit
  | blockSize size capacity =>
    "block size " ++ toString size ++ " must be between 1 and the container size " ++
      toString capacity
  | reserve minFree capacity =>
    "minimum free space " ++ toString minFree ++ " must be less than the container size " ++
      toString capacity
  | shards count limit =>
    "index shard count " ++ toString count ++ " must be a power of two up to " ++ toString limit
  | noCandidates => "at least one candidate container must be searched"
  | noPeriod => "auto index period must not be zero"
  | noSegments => "index segments must hold at least one entry"
  | unknownOption field => "Unknown field " ++ field
  | levelUnreadable => "Invalid compression_level"
  | levelOutside level least most =>
    "compression_level " ++ toString level ++ " is outside " ++ toString least ++ "..=" ++
      toString most

/-- Data that contradicts itself or what refers to it. -/
inductive Corruption where
  | placedPastEnd (base container size : Nat)
  | missingBlock (block count : Nat)
  | strayWindow (location : Location)
  | resumeTruncated
  | resumeMagic
  | resumeLength (pairs bytes : Nat)
  | resumeOrder (later earlier : Nat)
  | resumeCount (taken batch : Nat)
  | unknownFlags (bits : Nat)
  | containerSizeRange (size : Nat)
  | recordOverruns (container size position : Nat)
  | tableRecordSize (held expected : Nat)
  | tableSize (held expected : Nat)
  | tableContainer (block container count : Nat)
  | blockPastTable (block count : Nat)
  | containerPastTable (container count : Nat)
  | blockOutside (block length : Nat) (location : Location) (containerBytes : Nat)
  | listShort (blocks missing total : Nat)
  | unencodable
  deriving DecidableEq, Repr

/-- The wording of a corruption. -/
def Corruption.message : Corruption → String
  | placedPastEnd base container size =>
    "block placed at " ++ toString base ++ " past the end of container " ++ toString container ++
      " (" ++ toString size ++ " bytes)"
  | missingBlock block count =>
    "index refers to block " ++ toString block ++ " of " ++ toString count
  | strayWindow location =>
    "auto index entry " ++ location.text ++ " is outside the stored data"
  | resumeTruncated => "resume checkpoint is truncated"
  | resumeMagic => "resume checkpoint has a bad magic number"
  | resumeLength pairs bytes =>
    "resume checkpoint should hold " ++ toString pairs ++ " pairs, but has " ++ toString bytes ++
      " bytes of them"
  | resumeOrder later earlier =>
    "resume checkpoint pairs block " ++ toString later ++ " with block " ++ toString earlier ++
      ", which is not earlier"
  | resumeCount taken batch =>
    "resume checkpoint was taken from " ++ toString taken ++ " blocks, but the batch has " ++
      toString batch
  | unknownFlags bits => "unknown superblock flags in 0x" ++ hexDigits bits
  | containerSizeRange size => "container size " ++ toString size ++ " is out of range"
  | recordOverruns container size position =>
    "container " ++ toString container ++ " record of " ++ toString size ++ " bytes at " ++
      toString position ++ " overruns the container table"
  | tableRecordSize held expected =>
    "block table record holds " ++ toString held ++ " bytes, the superblock says " ++
      toString expected
  | tableSize held expected =>
    "block table is " ++ toString held ++ " bytes, expected " ++ toString expected
  | tableContainer block container count =>
    "block " ++ toString block ++ " refers to container " ++ toString container ++ " of " ++
      toString count
  | blockPastTable block count =>
    "block " ++ toString block ++ " is past the end of the block table (" ++ toString count ++
      " blocks)"
  | containerPastTable container count =>
    "container " ++ toString container ++ " is past the end of the container table (" ++
      toString count ++ " containers)"
  | blockOutside block length location containerBytes =>
    "block " ++ toString block ++ " (" ++ toString length ++ " bytes at " ++ location.text ++
      ") is outside its container (" ++ toString containerBytes ++ " bytes)"
  | listShort blocks missing total =>
    toString blocks ++ " blocks hold " ++ toString missing ++ " bytes less than the expected " ++
      toString total
  | unencodable => "unpacked locators can't fail to encode"

/-- Why an operation did not finish. -/
inductive Failure where
  | storage (kind : StorageFailure)
  | capacityExceeded (container size capacity : Nat)
  | compressedTooLarge (container stride : Nat)
  | corruption (cause : Corruption)
  | resumeOutOfRange (position blocks : Nat)
  | invalidConfig (fault : ConfigFault)
  | disabledCompression (scheme : Scheme)
  | unknownCompression (id : UInt16)
  | badMagic (magic : UInt32)
  | badVersion (major minor : UInt16)
  deriving DecidableEq, Repr

namespace Failure

/-- The wording of a failure. Failures of storage and records that are too large are reported by
their fields, so they have no wording of their own. -/
def message : Failure → String
  | storage _ => ""
  | compressedTooLarge _ _ => ""
  | capacityExceeded container size capacity =>
    "container " ++ toString container ++ " would grow to " ++ toString size ++
      " bytes, over the " ++ toString capacity ++ " byte limit"
  | corruption cause => "corrupt data: " ++ cause.message
  | resumeOutOfRange position blocks =>
    "resume checkpoint refers to block " ++ toString position ++ ", but the batch only has " ++
      toString blocks ++ " blocks"
  | invalidConfig fault => "invalid configuration: " ++ fault.message
  | disabledCompression scheme => "crfs built without support for " ++ scheme.name
  | unknownCompression id => "unknown compression type: " ++ toString id.toNat
  | badMagic magic =>
    "magic mismatch: expected 0x73667263, got 0x" ++ hexDigits magic.toNat
  | badVersion major minor =>
    "invalid image version " ++ toString major.toNat ++ "." ++ toString minor.toNat ++
      ": crfs only supports version 1.0"

end Failure

end DedupImage
