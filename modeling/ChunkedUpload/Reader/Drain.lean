import ChunkedUpload.Reader.Fill

/-!
# Reading all there is

`drain` takes everything up to the first read that answers no bytes. Like `fill` it tries again
after an interruption; every other failure ends it.
-/

namespace ChunkedUpload.Reader

/-- How many bytes `drain` asks for at a time. -/
def transferSize : Nat := 8192

/-- Reads to the end. `taken` holds what was read before, last byte first. -/
def drainFrom (taken : Bytes) (r : Reader) : Filled :=
  match _h : r.read transferSize with
  | (.bytes [], rest) => ⟨taken.reverse, .done, rest⟩
  | (.bytes (b :: bs), rest) => drainFrom ((b :: bs).reverseAux taken) rest
  | (.failed error, rest) =>
    if error.kind = .interrupted then
      if rest.script.length < r.script.length then drainFrom taken rest
      else ⟨taken.reverse, .stalled, rest⟩
    else ⟨taken.reverse, .failed error, rest⟩
  | (.stalled, rest) => ⟨taken.reverse, .stalled, rest⟩
termination_by (r.remaining, r.script.length)
decreasing_by
  · have := remaining_of_read _h
    simp only [List.length_cons] at this
    exact Prod.Lex.left _ _ (by omega)
  · rw [remaining_of_read_failed _h]
    exact Prod.Lex.right _ ‹_›

/-- Reads until a read answers no bytes. -/
def drain (r : Reader) : Filled := drainFrom [] r

end ChunkedUpload.Reader
