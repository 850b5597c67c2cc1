import ChunkedUpload.Bytes
import ChunkedUpload.Lookup
import ChunkedUpload.Storage.Error

/-!
# Contents by bucket and key

A finite map from bucket and key to bytes. `get?` is its view; `insert` and `erase` are described by
one equation each. `gather` puts the contents of several objects together.
-/

namespace ChunkedUpload

/-- Where an object is: its bucket and its key there. -/
abbrev Address := String × String

/-- Objects by address. The first entry of an address counts. -/
structure ObjectMap where
  entries : List (Address × Bytes) := []

namespace ObjectMap

/-- The content at an address. -/
def get? (m : ObjectMap) (address : Address) : Option Bytes := m.entries.lookup address

/-- The map without an address. -/
def erase (address : Address) (m : ObjectMap) : ObjectMap :=
  ⟨m.entries.filter (·.1 ≠ address)⟩

/-- The map with `content` at `address`. -/
def insert (address : Address) (content : Bytes) (m : ObjectMap) : ObjectMap :=
  ⟨(address, content) :: (m.erase address).entries⟩

@[simp] theorem get?_erase (m : ObjectMap) (a b : Address) :
    (m.erase a).get? b = if b = a then none else m.get? b :=
  lookup_filter_ne a b m.entries

@[simp] theorem get?_insert (m : ObjectMap) (a b : Address) (content : Bytes) :
    (m.insert a content).get? b = if b = a then some content else m.get? b := by
  rw [get?, insert, List.lookup_cons, erase, lookup_filter_ne, ← get?]
  by_cases hb : b = a
  · rw [hb, beq_self_eq_true, if_pos rfl, if_pos rfl]
  · rw [beq_false_of_ne hb, if_neg hb, if_neg hb]

/-- The contents of `sources` one after another; the first one that is missing is an error. -/
def gather (m : ObjectMap) (bucket : String) : List String → Except StorageError Bytes
  | [] => .ok []
  | source :: others => do
    let content ← (m.get? (bucket, source)).elim (.error (.notFound source)) .ok
    let rest ← gather m bucket others
    .ok (content ++ rest)

/-- Objects that are all there are gathered in order. -/
theorem gather_eq_ok {m : ObjectMap} {bucket : String} : ∀ {sources : List String}
    {contents : List Bytes},
    sources.map (fun source => m.get? (bucket, source)) = contents.map some →
    m.gather bucket sources = .ok contents.flatten
  | [], [], _ => rfl
  | source :: sources, content :: contents, h => by
    have hget : m.get? (bucket, source) = some content := (List.cons.inj h).1
    rw [gather, hget, gather_eq_ok (List.cons.inj h).2]
    rfl

/-- Whether one address is listed before another: by bucket, then by key, in code point order. -/
def before (a b : Address × Bytes) : Bool :=
  a.1.1 < b.1.1 || (a.1.1 == b.1.1 && (a.1.2 < b.1.2 || a.1.2 == b.1.2))

/-- All objects, sorted by address. -/
def sorted (m : ObjectMap) : List (Address × Bytes) := m.entries.mergeSort before

end ObjectMap

end ChunkedUpload
