/-!
# Compression schemes

An image names the scheme of its compressed records by a 16-bit id, a configuration names it by a
word. `Scheme.unknown` stands for every id and every word that is neither of the two schemes, so both
readings are total; it is never supported.
-/

namespace DedupImage

/-- A compression scheme. `gzip` is Deflate in a zlib stream (header and Adler-32 trailer), not the
file format of that name. -/
inductive Scheme where
  | gzip
  | zstd
  | unknown
  deriving DecidableEq, Repr, Inhabited

namespace Scheme

/-- The id stored in an image. -/
def id : Scheme → UInt16
  | gzip => 1
  | zstd => 2
  | unknown => 0

/-- The word used in configurations and messages. -/
def name : Scheme → String
  | gzip => "gzip"
  | zstd => "zstd"
  | unknown => "unknown"

/-- The scheme of an id. -/
def ofId (i : UInt16) : Scheme :=
  if i = 1 then gzip else if i = 2 then zstd else unknown

/-- The scheme of a word. -/
def ofName (s : String) : Scheme :=
  if s = "gzip" then gzip else if s = "zstd" then zstd else unknown

/-- Whether there is a codec for the scheme. -/
def supported : Scheme → Bool
  | gzip => true
  | zstd => true
  | unknown => false

end Scheme

end DedupImage
