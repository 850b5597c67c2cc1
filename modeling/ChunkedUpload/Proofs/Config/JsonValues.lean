import ChunkedUpload.Proofs.Config.JsonTokens

/-!
# What is written is read as the same value

`Reads written v` says that a text is read as this value wherever one may stand. This holds of a
written list or table if it holds of what is in there (`reads_list`, `reads_table`), and so of all
values that JSON has, `Value.IsJson` (`reads_write`). So the text of a value is read as that value
(`parse?_print`).
-/

namespace ChunkedUpload.Config

/-- The values that JSON has: whole numbers have 64 bits, and keys are texts. -/
inductive Value.IsJson : Value → Prop
  | null : IsJson .null
  | bool (value : Bool) : IsJson (.bool value)
  | whole {value : Int} : -0x8000000000000000 ≤ value → value < 0x10000000000000000 →
      IsJson (.whole value)
  | text (value : String) : IsJson (.text value)
  | list {items : List Value} : (∀ item ∈ items, IsJson item) → IsJson (.list items)
  | table {entries : List (Option String × Value)} : (∀ entry ∈ entries, entry.1.isSome = true) →
      (∀ entry ∈ entries, IsJson entry.2) → IsJson (.table entries)

namespace JsonText

open JsonToken.Lexer (Lexes lexes_nil lexes_quote lexes_toString lexes_word)

/-- The state that tokens lead to. -/
def State.run? (s : State) (tokens : List JsonToken) : Option State := tokens.foldlM State.step s

theorem State.run?_cons (s : State) (token : JsonToken) (tokens : List JsonToken) :
    s.run? (token :: tokens) = (s.step token).bind (·.run? tokens) := List.foldlM_cons ..

/-- A state in which a value may stand, with what is open around it. -/
inductive Opens : State → List Frame → Prop
  | value (stack : List Frame) : Opens (.expectValue stack) stack
  | item (items : List Value) (stack : List Frame) :
      Opens (.firstItem (.list items :: stack)) (.list items :: stack)

/-- The tokens are read as this value wherever one may stand. -/
def Builds (tokens : List JsonToken) (v : Value) : Prop :=
  ∀ {start : State} {stack : List Frame}, Opens start stack → ∀ more,
    start.run? (tokens ++ more) = (State.push? v stack).bind (·.run? more)

/-- The text is read as this value wherever one may stand. -/
def Reads (written : List Char) (v : Value) : Prop :=
  ∃ tokens, Lexes written tokens ∧ Builds tokens v

theorem builds_scalar (v : Value) : Builds [.scalar v] v := fun hopens _ => by
  cases hopens <;> rfl

theorem reads_text (s : String) : Reads (write (.text s)) (.text s) :=
  ⟨_, lexes_quote s, fun hopens _ => by cases hopens <;> rfl⟩

/-! ## Lists -/

/-- Items one after another are read as the items of a list that is open. -/
theorem exists_items {items : List Value} (h : ∀ item ∈ items, Reads (write item) item)
    (hsome : items ≠ []) :
    ∃ tokens, Lexes (writeItems items) tokens ∧
      ∀ {start : State} {sofar : List Value} {stack : List Frame},
        Opens start (.list sofar :: stack) → ∀ more,
        start.run? (tokens ++ more) =
          (State.after (.list (items.reverse ++ sofar) :: stack)).run? more := by
  induction items with
  | nil => exact absurd rfl hsome
  | cons item items ih =>
    obtain ⟨⟨first, hlexes, hbuilds⟩, hrest⟩ := List.forall_mem_cons.1 h
    cases items with
    | nil => exact ⟨first, hlexes, hbuilds⟩
    | cons next items =>
      obtain ⟨rest, hlexes', hbuilds'⟩ := ih hrest (List.cons_ne_nil _ _)
      refine ⟨first ++ .comma :: rest, hlexes.append_mark rfl hlexes', ?_⟩
      intro start sofar stack hopens more
      have hreverse : (item :: next :: items).reverse ++ sofar =
          (next :: items).reverse ++ item :: sofar := by
        rw [List.reverse_cons, List.append_assoc, List.singleton_append]
      rw [List.append_assoc, hbuilds hopens, hreverse, ← hbuilds' (.value _)]
      rfl

theorem reads_list {items : List Value} (h : ∀ item ∈ items, Reads (write item) item) :
    Reads (write (.list items)) (.list items) := by
  by_cases hsome : items = []
  case pos =>
    subst hsome
    refine ⟨[.openList, .closeList], (lexes_nil.cons_mark rfl).append_mark rfl lexes_nil, ?_⟩
    intro start stack hopens more
    have hclosed : (State.firstItem (.list [] :: stack)).step .closeList =
        State.push? (.list []) stack := Option.or_none
    have hopened : start.run? ([.openList, .closeList] ++ more) =
        (State.firstItem (.list [] :: stack)).run? (.closeList :: more) := by
      cases hopens <;> rfl
    rw [hopened, State.run?_cons, hclosed]
  case neg =>
    obtain ⟨tokens, hlexes, hbuilds⟩ := exists_items h hsome
    refine ⟨.openList :: tokens ++ [.closeList],
      (hlexes.cons_mark rfl).append_mark rfl lexes_nil, ?_⟩
    intro start stack hopens more
    have hopened : start.run? (.openList :: tokens ++ [.closeList] ++ more) =
        (State.firstItem (.list [] :: stack)).run? (tokens ++ .closeList :: more) := by
      rw [List.append_assoc]
      cases hopens <;> rfl
    have hclosed : (State.after (.list (items.reverse ++ []) :: stack)).step .closeList =
        State.push? (.list items) stack := by
      rw [List.append_nil]
      exact congrArg (fun items => State.push? (.list items) stack) (List.reverse_reverse items)
    rw [hopened, hbuilds (.item [] stack), State.run?_cons, hclosed]

/-! ## Tables -/

/-- A key and a value are read as an entry of the table that is open. -/
theorem exists_entry {key : String} {value : Value} (h : Reads (write value) value) :
    ∃ tokens, Lexes (quote key ++ ':' :: write value) (.text (some key) :: tokens) ∧
      ∀ sofar stack more,
        (State.expectKey (.table sofar :: stack)).run? (.text (some key) :: tokens ++ more) =
          (State.after (.table ((some key, value) :: sofar) :: stack)).run? more := by
  obtain ⟨tokens, hlexes, hbuilds⟩ := h
  exact ⟨.colon :: tokens, (lexes_quote key).append_mark rfl hlexes, fun sofar stack more =>
    hbuilds (.value (.entry sofar (some key) :: stack)) more⟩

/-- Entries one after another are read as the entries of the table that is open. -/
theorem exists_entries {entries : List (Option String × Value)}
    (hkeys : ∀ entry ∈ entries, entry.1.isSome = true)
    (h : ∀ entry ∈ entries, Reads (write entry.2) entry.2) (hsome : entries ≠ []) :
    ∃ key tokens, Lexes (writeEntries entries) (.text key :: tokens) ∧
      ∀ sofar stack more,
        (State.expectKey (.table sofar :: stack)).run? (.text key :: tokens ++ more) =
          (State.after (.table (entries.reverse ++ sofar) :: stack)).run? more := by
  induction entries with
  | nil => exact absurd rfl hsome
  | cons entry entries ih =>
    obtain ⟨key, value⟩ := entry
    obtain ⟨hkey, hothers⟩ := List.forall_mem_cons.1 hkeys
    obtain ⟨hvalue, hrest⟩ := List.forall_mem_cons.1 h
    obtain ⟨key, rfl⟩ := Option.isSome_iff_exists.1 hkey
    obtain ⟨first, hlexes, hbuilds⟩ := @exists_entry key _ hvalue
    cases entries with
    | nil => exact ⟨some key, first, hlexes, hbuilds⟩
    | cons next entries =>
      obtain ⟨nextKey, rest, hlexes', hbuilds'⟩ := ih hothers hrest (List.cons_ne_nil _ _)
      refine ⟨some key, first ++ .comma :: .text nextKey :: rest,
        hlexes.append_mark rfl hlexes', ?_⟩
      intro sofar stack more
      have hreverse : ((some key, value) :: next :: entries).reverse ++ sofar =
          (next :: entries).reverse ++ (some key, value) :: sofar := by
        rw [List.reverse_cons, List.append_assoc, List.singleton_append]
      rw [hreverse, ← hbuilds', ← List.cons_append, List.append_assoc, hbuilds]
      rfl

theorem reads_table {entries : List (Option String × Value)}
    (hkeys : ∀ entry ∈ entries, entry.1.isSome = true)
    (h : ∀ entry ∈ entries, Reads (write entry.2) entry.2) :
    Reads (write (.table entries)) (.table entries) := by
  by_cases hsome : entries = []
  case pos =>
    subst hsome
    refine ⟨[.openTable, .closeTable], (lexes_nil.cons_mark rfl).append_mark rfl lexes_nil, ?_⟩
    intro start stack hopens more
    have hclosed : (State.firstKey (.table [] :: stack)).step .closeTable =
        State.push? (.table []) stack := Option.or_none
    have hopened : start.run? ([.openTable, .closeTable] ++ more) =
        (State.firstKey (.table [] :: stack)).run? (.closeTable :: more) := by
      cases hopens <;> rfl
    rw [hopened, State.run?_cons, hclosed]
  case neg =>
    obtain ⟨key, tokens, hlexes, hbuilds⟩ := exists_entries hkeys h hsome
    refine ⟨.openTable :: .text key :: tokens ++ [.closeTable],
      (hlexes.cons_mark rfl).append_mark rfl lexes_nil, ?_⟩
    intro start stack hopens more
    have hopened : start.run? (.openTable :: .text key :: tokens ++ [.closeTable] ++ more) =
        (State.expectKey (.table [] :: stack)).run?
          (.text key :: tokens ++ .closeTable :: more) := by
      rw [List.append_assoc]
      cases hopens <;> rfl
    have hclosed : (State.after (.table (entries.reverse ++ []) :: stack)).step .closeTable =
        State.push? (.table entries) stack := by
      rw [List.append_nil]
      exact congrArg (fun entries => State.push? (.table entries) stack)
        (List.reverse_reverse entries)
    rw [hopened, hbuilds, State.run?_cons, hclosed]

/-! ## All values -/

theorem reads_write {v : Value} (h : v.IsJson) : Reads (write v) v := by
  induction h with
  | null => exact ⟨_, lexes_word (List.all_eq_true.1 rfl) rfl, builds_scalar _⟩
  | bool value =>
    cases value
    case false => exact ⟨_, lexes_word (List.all_eq_true.1 rfl) rfl, builds_scalar _⟩
    case true => exact ⟨_, lexes_word (List.all_eq_true.1 rfl) rfl, builds_scalar _⟩
  | whole hleast hmost => exact ⟨_, lexes_toString hleast hmost, builds_scalar _⟩
  | text value => exact reads_text value
  | list _ ih => exact reads_list ih
  | table hkeys _ ih => exact reads_table hkeys ih

/-- **A printed value is read as it is.** -/
theorem parse?_print {v : Value} (h : v.IsJson) : parse? (print v) = some v := by
  obtain ⟨tokens, hlexes, hbuilds⟩ := reads_write h
  have hread : tokens.foldlM State.step (.expectValue []) = some (.done v) := by
    have hdone := hbuilds (.value []) []
    rwa [List.append_nil] at hdone
  rw [parse?, print, String.toList_ofList, hlexes.ofText?]
  show ofTokens? tokens = some v
  rw [ofTokens?, hread]
  rfl

end JsonText

end ChunkedUpload.Config
