import ChunkedUpload.Reader.Fill

/-!
# Filling one buffer again and again

A `Buffer` has a fixed size and starts as zeros. Only the front that was ever written is kept, so
that a large buffer costs nothing before it is used; `toList` is the whole of it. `refill` writes
what `fill` obtains over the front and leaves the rest as it was. `chunk` is the part of the buffer
that the last refill wrote, so nothing of an earlier one shows in it.
-/

namespace ChunkedUpload.Reader

/-- A run of `size` bytes, zeros behind the front that was written. -/
structure Buffer where
  size : Nat
  front : Bytes := []

namespace Buffer

/-- All bytes of the buffer. -/
def toList (b : Buffer) : Bytes := b.front ++ List.replicate (b.size - b.front.length) 0

/-- The buffer with `bytes` over its front. -/
def overwrite (bytes : Bytes) (b : Buffer) : Buffer :=
  { b with front := bytes ++ b.front.drop bytes.length }

/-- The buffer with room for at least `size` bytes; it never shrinks. -/
def grow (size : Nat) (b : Buffer) : Buffer := { b with size := max b.size size }

end Buffer

/-- A buffer after one refill: how many bytes it got, how reading ended, and what is left. -/
structure Refilled where
  count : Nat
  stop : Stop
  buffer : Buffer
  rest : Reader

/-- Fills the buffer from the reader. Bytes read before a failure stay in the buffer. -/
def refill (b : Buffer) (r : Reader) : Refilled :=
  let filled := r.fill b.size
  ⟨filled.taken.length, filled.stop, b.overwrite filled.taken, filled.rest⟩

/-- The bytes that the refill wrote. -/
def Refilled.chunk (x : Refilled) : Bytes := x.buffer.front.take x.count

end ChunkedUpload.Reader
