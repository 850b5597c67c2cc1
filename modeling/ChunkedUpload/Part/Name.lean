import ChunkedUpload.Text.Decimal

/-!
# Names of parts

Part 1 of an upload is stored under the destination itself, so that an upload of one part needs no
further step. Part `n ≥ 2` is stored under the destination followed by `.chunk` and `n` in decimal.
`number?` reads such a name back and takes nothing else, so a sweep can only remove names that an
upload to the same destination may have written.
-/

namespace ChunkedUpload.Part

/-- Stands between the destination and the number of a later part. -/
def marker : String := ".chunk"

/-- The largest part number, `2^32 - 1`. -/
def maxNumber : Nat := 0xffffffff

/-- The name under which part `number` of `destination` is stored. -/
def name (destination : String) (number : Nat) : String :=
  if number = 1 then destination else destination ++ marker ++ number.repr

/-- What follows `head` in `text`, if `text` starts with it. -/
def rest? (head text : List Char) : Option (List Char) :=
  if head.isPrefixOf text then some (text.drop head.length) else none

/-- The number of the later part of `destination` that `text` names, if it names one. -/
def number? (destination text : String) : Option Nat := do
  let afterDestination ← rest? destination.toList text.toList
  let numeral ← rest? marker.toList afterDestination
  let number ← Decimal.canonical? numeral
  if 2 ≤ number ∧ number ≤ maxNumber then some number else none

/-- Whether `text` names a later part of `destination`, which a finished upload may delete. -/
def isLater (destination text : String) : Bool := (number? destination text).isSome

end ChunkedUpload.Part
