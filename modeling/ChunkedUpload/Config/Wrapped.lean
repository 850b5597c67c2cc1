import ChunkedUpload.Config.Value

/-!
# Wrapped values

In a configuration file, a table below the top one may be the wrapping of a value: it stands for
what it has under `valueKey`, whatever else it has. It may also have a mark, a whole number that
says where the value came from; `unwrap?` takes off both.
-/

namespace ChunkedUpload.Config.Wrapped

/-- The key of the value that a table wraps. -/
def valueKey : String := "___figment_value_value"

/-- The key of a mark. -/
def markKey : String := "___figment_value_id"

/-- Whether a value can be a mark. -/
def isMark : Value → Bool
  | .whole _ => true
  | _ => false

/-- The value that a table stands for if nothing in it is wrapped. -/
def ofEntries (entries : List (Option String × Value)) : Value :=
  ((Value.under valueKey entries).head?).getD (.table entries)

mutual

/-- The value without its wrappings, unless a mark is not a number. -/
def unwrap? : Value → Option Value
  | .list items => do return .list (← unwrapItems? items)
  | .table entries => do return ofEntries (← unwrapEntries? entries)
  | value => some value

/-- The values of a list without their wrappings. -/
def unwrapItems? : List Value → Option (List Value)
  | [] => some []
  | item :: items => do return (← unwrap? item) :: (← unwrapItems? items)

/-- The entries of a table without their wrappings and without a mark. -/
def unwrapEntries? : List (Option String × Value) → Option (List (Option String × Value))
  | [] => some []
  | (key, value) :: entries =>
    if key = some markKey then if isMark value then unwrapEntries? entries else none
    else do return (key, ← unwrap? value) :: (← unwrapEntries? entries)

end

/-- The top table of a file with the values in it unwrapped. It is no wrapping itself. -/
def unwrapFields? : Value → Option Value
  | .table entries => do
    return .table (← entries.mapM fun (key, value) => do return (key, ← unwrap? value))
  | value => some value

end ChunkedUpload.Config.Wrapped
