import ChunkedUpload.Reader.Basic

/-!
# Reading until enough or until the end

A read may answer fewer bytes than it was asked for, so a caller that wants `want` bytes has to
read again. `fill` does so until it has them all, until a read answers no bytes, or until a read
fails. A failure of kind `interrupted` says nothing about the stream and is tried again; every
other failure is handed on unchanged.
-/

namespace ChunkedUpload.Reader

/-- How reading came to its end. -/
inductive Stop
  /-- Enough was read, or a read answered no bytes. -/
  | done
  | failed (error : IoError)
  /-- The stream never answers again. -/
  | stalled
  deriving Repr

/-- What reading obtained, how it ended, and the reader it leaves. -/
structure Filled where
  taken : Bytes
  stop : Stop
  rest : Reader

/-- Reads up to `want` more bytes. `taken` holds those read before, last one first. Retrying an
interruption that leaves the stream as it was would go on for ever, which is a stall. -/
def fillFrom (want : Nat) (taken : Bytes) (r : Reader) : Filled :=
  if want = 0 then ⟨taken.reverse, .done, r⟩
  else
    match r.read want with
    | (.bytes [], rest) => ⟨taken.reverse, .done, rest⟩
    | (.bytes (b :: bs), rest) =>
      fillFrom (want - (b :: bs).length) ((b :: bs).reverseAux taken) rest
    | (.failed error, rest) =>
      if error.kind = .interrupted then
        if rest.script.length < r.script.length then fillFrom want taken rest
        else ⟨taken.reverse, .stalled, rest⟩
      else ⟨taken.reverse, .failed error, rest⟩
    | (.stalled, rest) => ⟨taken.reverse, .stalled, rest⟩
termination_by (want, r.script.length)
decreasing_by
  · exact Prod.Lex.left _ _ (by simp only [List.length_cons]; omega)
  · exact Prod.Lex.right _ ‹_›

/-- Reads up to `want` bytes. -/
def fill (want : Nat) (r : Reader) : Filled := fillFrom want [] r

end ChunkedUpload.Reader
