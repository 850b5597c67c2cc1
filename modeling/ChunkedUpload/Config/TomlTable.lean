import ChunkedUpload.Config.Value

/-!
# Building the tables of a TOML document

A table is written in pieces: by headers, by dotted keys and by its entries. Each table remembers
how it came about, because that decides what may still be added to it: nothing is defined twice, and
a table made by dotted keys takes no header.
-/

namespace ChunkedUpload.Config.Toml

/-- How a table came about. -/
inductive Origin
  /-- By a header or as a value of its own. -/
  | explicit
  /-- On the way to a table below it that has a header. -/
  | passing
  /-- By dotted keys. -/
  | dotted
  deriving DecidableEq, Repr

/-- What stands under a key of an unfinished document. -/
inductive Item
  | value (value : Value)
  | table (origin : Origin) (entries : List (String × Item))
  /-- A list of tables that was made by headers, last one first. -/
  | tables (items : List Item)

namespace Item

/-- A table without entries. -/
def empty (origin : Origin) : Item := .table origin []

/-- The items with another one under a key. -/
def replace (key : String) (item : Item) : List (String × Item) → List (String × Item)
  | [] => [(key, item)]
  | (k, old) :: r => if k = key then (k, item) :: r else (k, old) :: replace key item r

/-- Whether dotted keys may go on through a table. -/
def Origin.allows (dotted : Bool) (origin : Origin) : Bool := !dotted || origin ≠ .explicit

/-- The origin of a table that is made on the way. -/
def Origin.onTheWay (dotted : Bool) : Origin := if dotted then .dotted else .passing

/-- Changes the entries of the table that `path` leads to. A list of tables stands for its last
one; missing tables are made. -/
def change? (dotted : Bool)
    (f : Origin → List (String × Item) → Option (Origin × List (String × Item))) :
    List String → Item → Option Item
  | [], .table origin entries => do
    let (origin, entries) ← f origin entries
    some (.table origin entries)
  | key :: path, .table origin entries => do
    match entries.lookup key with
    | none =>
      let item ← change? dotted f path (.empty (Origin.onTheWay dotted))
      some (.table origin (replace key item entries))
    | some (.tables (last :: earlier)) =>
      let item ← change? dotted f path last
      some (.table origin (replace key (.tables (item :: earlier)) entries))
    | some (.table inner below) =>
      if Origin.allows dotted inner then
        let item ← change? dotted f path (.table inner below)
        some (.table origin (replace key item entries))
      else none
    | some _ => none
  | _, _ => none

/-- Adds an entry under a key with dots. -/
def insert? (path : List String) (key : String) (value : Value) (item : Item) : Option Item :=
  item.change? true (fun origin entries =>
    if origin = .dotted ↔ path = [] then none
    else if (entries.lookup key).isSome then none
    else some (origin, entries ++ [(key, .value value)])) path

/-- Opens a table by a header. One that was only passed through may still get a header. -/
def open? (path : List String) (key : String) (item : Item) : Option Item :=
  item.change? false (fun origin entries =>
    match entries.lookup key with
    | none => some (origin, entries ++ [(key, .empty .explicit)])
    | some (.table .passing below) => some (origin, replace key (.table .explicit below) entries)
    | some _ => none) path

/-- Opens one more table of a list by a header. -/
def openNext? (path : List String) (key : String) (item : Item) : Option Item :=
  item.change? false (fun origin entries =>
    match entries.lookup key with
    | none => some (origin, entries ++ [(key, .tables [.empty .explicit])])
    | some (.tables items) =>
      some (origin, replace key (.tables (.empty .explicit :: items)) entries)
    | some _ => none) path

/-- Adds an entry to the table that the last header opened. -/
def insertBelow? (header path : List String) (key : String) (value : Value) (item : Item) :
    Option Item :=
  match header with
  | [] => item.insert? path key value
  | key' :: header =>
    match item with
    | .table origin entries =>
      match entries.lookup key' with
      | some (.tables (last :: earlier)) => do
        let last ← insertBelow? header path key value last
        some (.table origin (replace key' (.tables (last :: earlier)) entries))
      | some (.table inner below) => do
        let below ← insertBelow? header path key value (.table inner below)
        some (.table origin (replace key' below entries))
      | _ => none
    | _ => none

mutual

/-- The finished value. -/
def toValue : Item → Value
  | .value v => v
  | .table _ entries => .table (toEntries entries)
  | .tables items => .list (toValues items).reverse

/-- The finished values. -/
def toValues : List Item → List Value
  | [] => []
  | item :: items => toValue item :: toValues items

/-- The finished entries. -/
def toEntries : List (String × Item) → List (Option String × Value)
  | [] => []
  | (key, item) :: entries => (some key, toValue item) :: toEntries entries

end

end Item

end ChunkedUpload.Config.Toml
