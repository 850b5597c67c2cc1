/-!
# Ranges of a large copy

An object that is too large for one copy is copied in the fewest pieces that are small enough. Their
lengths differ by at most one, the longer pieces first.
-/

namespace ChunkedUpload.S3

/-- The first and the last byte of a piece. -/
structure CopyRange where
  first : Nat
  last : Nat
  deriving DecidableEq, Repr

namespace CopyRange

/-- How many pieces of at most `most` bytes an object of `size` bytes needs. -/
def count (size most : Nat) : Nat := (size + (most - 1)) / most

/-- Where piece `index` of `pieces` begins: each piece before it is `size / pieces` bytes long, and
the first `size % pieces` of them one byte longer. -/
def start (size pieces index : Nat) : Nat := index * (size / pieces) + min index (size % pieces)

/-- Piece `index` of `pieces`. -/
def piece (size pieces index : Nat) : CopyRange :=
  ⟨start size pieces index, start size pieces (index + 1) - 1⟩

/-- The pieces of an object of `size` bytes, or `none` if it can be copied whole. -/
def split? (size most : Nat) : Option (List CopyRange) :=
  if size ≤ most then none
  else some ((List.range (count size most)).map (piece size (count size most)))

end CopyRange

end ChunkedUpload.S3
