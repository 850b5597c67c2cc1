/-!
# Failures of reads and of the file system

An `IoError` is either an error number of the operating system or a kind with a text of its own.
Its `message` is what a caller is shown.
-/

namespace ChunkedUpload

/-- The class of a failure; retry decisions and "missing file" tests look only at this. -/
inductive IoKind
  | interrupted
  | connectionReset
  | connectionAborted
  | unexpectedEof
  | timedOut
  | notFound
  | permissionDenied
  | brokenPipe
  | wouldBlock
  | invalidData
  | invalidInput
  | outOfMemory
  | alreadyExists
  | notADirectory
  | isADirectory
  | invalidFilename
  | resourceBusy
  | filesystemLoop
  | other
  deriving DecidableEq, Repr

namespace IoKind

/-- The text of a failure of which only the kind is known. -/
def text : IoKind → String
  | interrupted => "operation interrupted"
  | connectionReset => "connection reset"
  | connectionAborted => "connection aborted"
  | unexpectedEof => "unexpected end of file"
  | timedOut => "timed out"
  | notFound => "entity not found"
  | permissionDenied => "permission denied"
  | brokenPipe => "broken pipe"
  | wouldBlock => "operation would block"
  | invalidData => "invalid data"
  | invalidInput => "invalid input parameter"
  | outOfMemory => "out of memory"
  | alreadyExists => "entity already exists"
  | notADirectory => "not a directory"
  | isADirectory => "is a directory"
  | invalidFilename => "invalid filename"
  | resourceBusy => "resource busy"
  | filesystemLoop => "filesystem loop or indirection limit (e.g. symlink loop)"
  | other => "other error"

end IoKind

/-- The error numbers that operations on a directory tree answer. -/
inductive Errno
  | missing
  | busy
  | present
  | notDirectory
  | isDirectory
  | nameTooLong
  | tooManyLinks
  deriving DecidableEq, Repr

namespace Errno

/-- The number of the error in the operating system's table. -/
def number : Errno → Nat
  | missing => 2
  | busy => 16
  | present => 17
  | notDirectory => 20
  | isDirectory => 21
  | nameTooLong => 36
  | tooManyLinks => 40

/-- The operating system's own words for the error. -/
def text : Errno → String
  | missing => "No such file or directory"
  | busy => "Device or resource busy"
  | present => "File exists"
  | notDirectory => "Not a directory"
  | isDirectory => "Is a directory"
  | nameTooLong => "File name too long"
  | tooManyLinks => "Too many levels of symbolic links"

/-- The class that the error belongs to. -/
def kind : Errno → IoKind
  | missing => .notFound
  | busy => .resourceBusy
  | present => .alreadyExists
  | notDirectory => .notADirectory
  | isDirectory => .isADirectory
  | nameTooLong => .invalidFilename
  | tooManyLinks => .filesystemLoop

end Errno

/-- A failed read, or a failed operation on the file system. -/
inductive IoError
  | system (number : Errno)
  | custom (kind : IoKind) (text : String)
  deriving DecidableEq, Repr

namespace IoError

/-- The class of the failure. -/
def kind : IoError → IoKind
  | system number => number.kind
  | custom kind _ => kind

/-- What the caller is shown: a system error names its number. -/
def message : IoError → String
  | system number => number.text ++ " (os error " ++ number.number.repr ++ ")"
  | custom _ text => text

/-- A failure of which only the kind is known. -/
def ofKind (kind : IoKind) : IoError := custom kind kind.text

end IoError

end ChunkedUpload
