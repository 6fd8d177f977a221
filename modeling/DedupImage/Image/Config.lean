import DedupImage.Codec.Setting
import DedupImage.Index.Catalog
import DedupImage.Layout.Superblock
import DedupImage.Placement.State

/-!
# Image configurations

A configuration says how an image is built. `ImageConfig.check` refuses the ones that make no sense, and
if several settings are wrong it names the first in a fixed order. The codec and its options are checked
afterwards, when the codec is configured.
-/

namespace DedupImage

/-- How to build an image. -/
structure ImageConfig where
  /-- The block size of sources that ask for no other. -/
  blockSize : Nat := 65536
  /-- The most bytes of a container. -/
  containerSize : Nat := 2097152
  /-- The room that a plain append leaves in a container. -/
  reserve : Nat := 16
  /-- The shortest overlap. -/
  leastOverlap : Nat := 0
  /-- Overlaps are multiples of this; zero allows none. -/
  granularity : Nat := 1
  /-- How many containers are searched for a block. -/
  maxCandidates : Nat := 2
  /-- The distance between windows in the index. -/
  windowPeriod : Nat := 256
  /-- The growth of a container after which its windows are entered. -/
  windowInterval : Nat := 262144
  dedup : Dedup := .all
  backend : Backend := .memory
  shape : IndexShape := ⟨16, 8, 1048576⟩
  scheme : Scheme := .zstd
  /-- Codec options, pairs of a field and a value. -/
  options : List (String × String) := []
  /-- The compression level, an option that is applied last. -/
  level : Option Int := none
  packLocators : Bool := true
  sparse : Bool := false
  /-- Seconds since 1970. -/
  modified : Int := 0
  /-- Where containers and segments on disk are kept. -/
  staging : Staging := .memory
  threads : Nat := 1

namespace ImageConfig

/-- The largest number of shards. -/
def shardLimit : Nat := 256

/-- Whether a number is a power of two. -/
def isPowerOfTwo (n : Nat) : Bool := n != 0 && n.nextPowerOfTwo == n

/-- The fault of a block size, for containers of a given size. -/
def blockSizeFault? (size containerSize : Nat) : Option ConfigFault :=
  if size = 0 ∨ containerSize < size then some (.blockSize size containerSize) else none

/-- The first fault of a configuration. -/
def fault? (c : ImageConfig) : Option ConfigFault :=
  if c.containerSize = 0 ∨ containerSizeLimit < c.containerSize then
    some (.containerSize c.containerSize containerSizeLimit)
  else if (blockSizeFault? c.blockSize c.containerSize).isSome then
    blockSizeFault? c.blockSize c.containerSize
  else if c.containerSize ≤ c.reserve then
    some (.reserve c.reserve c.containerSize)
  else if !isPowerOfTwo c.shape.shards || decide (shardLimit < c.shape.shards) then
    some (.shards c.shape.shards shardLimit)
  else if c.maxCandidates = 0 then
    some .noCandidates
  else if c.windowPeriod = 0 then
    some .noPeriod
  else if c.shape.maxSegments = 0 ∨ c.shape.segmentEntries = 0 then
    some .noSegments
  else
    none

/-- Refuse a configuration with a fault, or whose codec does not exist. -/
def check (c : ImageConfig) : Except Failure Unit :=
  match c.fault? with
  | some f => .error (.invalidConfig f)
  | none => if c.scheme.supported then .ok () else .error (.disabledCompression c.scheme)

/-- All codec options. -/
def allOptions (c : ImageConfig) : List (String × String) :=
  c.options ++ (c.level.map fun l => ("compression_level", toString l)).toList

/-- Seconds since 1970 as far as 32 bits reach. -/
def modificationTime (c : ImageConfig) : Nat :=
  min c.modified.toNat (UInt32.size - 1)

end ImageConfig

end DedupImage
