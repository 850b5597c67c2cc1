/-!
# Values of a configuration source

What a configuration text or an environment variable can hold before it is known what it is for.
-/

namespace ChunkedUpload.Config

/-- A value read from a configuration source. -/
inductive Value
  | null
  | bool (value : Bool)
  /-- A whole number. -/
  | whole (value : Int)
  /-- A whole number that its source keeps apart as never negative. -/
  | count (value : Nat)
  /-- A number with a fraction or an exponent. -/
  | fraction
  | text (value : String)
  | char (value : Char)
  | list (items : List Value)
  /-- Entries in the order of the text. A key is `none` if it is not a text. -/
  | table (entries : List (Option String × Value))
  /-- Something that can be passed over but not read. -/
  | unreadable
  deriving Inhabited

namespace Value

mutual

/-- Whether the whole value can be read, nested at most `depth` deep. -/
def isReadable : (depth : Nat) → Value → Bool
  | _, unreadable => false
  | 0, list _ | 0, table _ => false
  | depth + 1, list items => areReadable depth items
  | depth + 1, table entries => entriesReadable depth entries
  | _, _ => true

/-- Whether all values can be read. -/
def areReadable : (depth : Nat) → List Value → Bool
  | _, [] => true
  | depth, item :: items => isReadable depth item && areReadable depth items

/-- Whether all keys and values can be read. -/
def entriesReadable : (depth : Nat) → List (Option String × Value) → Bool
  | _, [] => true
  | depth, (key, value) :: entries =>
    key.isSome && isReadable depth value && entriesReadable depth entries

end

/-- The values that a table has under a key. -/
def under (key : String) (entries : List (Option String × Value)) : List Value :=
  entries.filterMap fun (k, value) => if k = some key then some value else none

end Value

end ChunkedUpload.Config
