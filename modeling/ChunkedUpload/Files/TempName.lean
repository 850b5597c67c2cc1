import ChunkedUpload.Text.Percent

/-!
# Names of temporary files

A file is first written under a name of its own beside its target. The name is the target's with a
suffix made from a ticket, a number below `2^128` that no other file uses.
-/

namespace ChunkedUpload.Files.TempName

/-- How many hexadecimal digits stand between the dashes. -/
def groups : List Nat := [8, 4, 4, 4, 12]

/-- The last `count` hexadecimal digits of a number, leading zeros included. -/
def hexDigits : (count : Nat) → Nat → List Char
  | 0, _ => []
  | count + 1, n => hexDigits count (n / 16) ++ [Nat.digitChar (n % 16)]

/-- Cuts a text into pieces of the given lengths and puts dashes between them. -/
def dashed : List Nat → List Char → List Char
  | [], _ => []
  | [_], cs => cs
  | count :: counts, cs => cs.take count ++ '-' :: dashed counts (cs.drop count)

/-- The 36 characters for a ticket. -/
def ticketText (ticket : Nat) : String := String.ofList (dashed groups (hexDigits 32 ticket))

/-- Stands between the target's name and the ticket. -/
def marker : String := ".tmp."

/-- The temporary name for `name`. -/
def of (name : String) (ticket : Nat) : String := name ++ marker ++ ticketText ticket

/-- Whether characters have the form of a ticket. -/
def isTicket (cs : List Char) : Bool :=
  (cs.splitOn '-').map List.length = groups &&
    cs.all fun c => c = '-' || (Percent.hexValue? c).isSome

/-- How many characters `of` adds to a name. -/
def suffixLength : Nat := marker.length + 36

/-- The name that a temporary name was made for; `none` if it is not a temporary one. -/
def stem? (name : String) : Option String :=
  let (stem, suffix) := name.toList.splitAt (name.length - suffixLength)
  let (start, ticket) := suffix.splitAt marker.length
  if stem ≠ [] ∧ start = marker.toList ∧ isTicket ticket then some (String.ofList stem) else none

end ChunkedUpload.Files.TempName
