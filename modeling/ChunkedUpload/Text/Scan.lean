/-!
# Scanning a text

A `Scan` takes something from the front of a text, or refuses it. What it took is gone from the
text that is left.
-/

namespace ChunkedUpload

/-- Takes a value from the front of a text. -/
abbrev Scan (α : Type) := StateT (List Char) Option α

namespace Scan

variable {α β : Type}

/-- Refuses the text. -/
def refuse : Scan α := fun _ => none

/-- The next character, if there is one; it stays. -/
def peek : Scan (Option Char) := fun cs => some (cs.head?, cs)

/-- Takes one character. -/
def next : Scan Char
  | c :: cs => some (c, cs)
  | [] => none

/-- Takes this character. -/
def eat (c : Char) : Scan Unit
  | d :: cs => if d = c then some ((), cs) else none
  | [] => none

/-- Takes this text. -/
def eatText (text : String) : Scan Unit := fun cs =>
  if text.toList.isPrefixOf cs then some ((), cs.drop text.length) else none

/-- Whether the text goes on like this; if it does, that is taken. -/
def eats (text : String) : Scan Bool := fun cs =>
  if text.toList.isPrefixOf cs then some (true, cs.drop text.length) else some (false, cs)

/-- Takes all characters up to the first that `p` does not hold of. -/
def takeWhile (p : Char → Bool) : Scan (List Char) := fun cs =>
  some (cs.takeWhile p, cs.dropWhile p)

/-- Passes over all characters up to the first that `p` does not hold of. -/
def skipWhile (p : Char → Bool) : Scan Unit := fun cs => some ((), cs.dropWhile p)

/-- How many characters are left. -/
def left : Scan Nat := fun cs => some (cs.length, cs)

/-- Takes one item after another until `stop` says that there are no more. Items that take nothing
are refused, so what is left bounds their number. The items may end in other ways than a scan. -/
def manyUntil {m : Type → Type} [Monad m] [MonadLiftT Scan m] (stop : m Bool) (item : m α) :
    (bound : Nat) → m (List α)
  | 0 => do if ← stop then pure [] else liftM (refuse : Scan (List α))
  | bound + 1 => do
    if ← stop then pure []
    else
      let first ← item
      let rest ← manyUntil stop item bound
      pure (first :: rest)

/-- Runs a scan on a whole text. -/
def all? (scan : Scan α) (text : List Char) : Option α :=
  match scan text with
  | some (a, []) => some a
  | _ => none

end Scan

end ChunkedUpload
