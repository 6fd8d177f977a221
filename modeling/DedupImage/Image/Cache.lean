/-!
# A cache of containers

The reader of an image keeps decompressed containers, up to a number of bytes. They are in the order of
their last use. When there are too many bytes the least recently used containers go, but the newest one
stays even if it is too large by itself.
-/

namespace DedupImage

/-- Decompressed containers, the least recently used first. -/
structure ContainerCache where
  entries : List (Nat × ByteArray) := []
  /-- The bytes of all entries. -/
  bytes : Nat := 0
  /-- The most bytes to keep. -/
  limit : Nat := 67108864

namespace ContainerCache

/-- The bytes of a container, if it is cached. -/
def lookup (c : ContainerCache) (id : Nat) : Option ByteArray :=
  (c.entries.find? fun e => e.1 == id).map Prod.snd

/-- Make a cached container the most recently used one. -/
def touch (c : ContainerCache) (id : Nat) (data : ByteArray) : ContainerCache :=
  { c with entries := (c.entries.filter fun e => e.1 != id) ++ [(id, data)] }

/-- Drop entries from the front while there are more bytes than the limit and more than one entry:
what remains, and its bytes. -/
def dropOld (limit : Nat) : List (Nat × ByteArray) → Nat → List (Nat × ByteArray) × Nat
  | e :: f :: rest, bytes =>
    if limit < bytes then dropOld limit (f :: rest) (bytes - e.2.size) else (e :: f :: rest, bytes)
  | entries, bytes => (entries, bytes)

/-- Keep to the limit. -/
def trim (c : ContainerCache) : ContainerCache :=
  let kept := dropOld c.limit c.entries c.bytes
  { c with entries := kept.1, bytes := kept.2 }

/-- Add a container that was not cached. -/
def insert (c : ContainerCache) (id : Nat) (data : ByteArray) : ContainerCache :=
  trim { c with entries := c.entries ++ [(id, data)], bytes := c.bytes + data.size }

/-- Change the limit. -/
def setLimit (c : ContainerCache) (limit : Nat) : ContainerCache :=
  trim { c with limit := limit }

end ContainerCache

end DedupImage
