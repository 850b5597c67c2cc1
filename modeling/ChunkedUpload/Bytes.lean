/-!
# Byte sequences

Object contents are finite lists of bytes. A text is stored as its UTF-8 bytes.
-/

namespace ChunkedUpload

/-- The content of an object, or a piece of one. -/
abbrev Bytes := List UInt8

namespace Bytes

/-- The UTF-8 bytes of a text. -/
def ofText (text : String) : Bytes := text.toUTF8.toList

/-- The text whose UTF-8 bytes these are, if there is one. -/
def text? (bytes : Bytes) : Option String := String.fromUTF8? bytes.toByteArray

end Bytes

end ChunkedUpload
