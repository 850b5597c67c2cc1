import ChunkedUpload.Storage.Error

/-!
# Sizes and numbers of multipart parts

Part numbers are 32-bit signed integers. A stream of unknown length is sent in parts of 5 MiB that
double every thousand parts, so that ten thousand parts, the most a service takes, go a long way.
-/

namespace ChunkedUpload.S3

/-- The smallest part, but the last, that a service takes: 5 MiB. -/
def leastPartSize : Nat := 5 * 1024 * 1024

/-- The most bytes of one part, and so of one copy: 5 GiB. -/
def mostCopied : Nat := 5 * 1024 * 1024 * 1024

/-- The most parts of one multipart upload. -/
def mostParts : Nat := 10000

/-- Every so many parts the part size doubles. -/
def partsPerDoubling : Nat := 1000

/-- After so many doublings the part size stays as it is. -/
def mostDoublings : Nat := 9

/-- How often the part size has doubled by part `number`; not at all before part 1. -/
def doublings (number : Int) : Nat :=
  min ((number.toNat - 1) / partsPerDoubling) mostDoublings

/-- The size of part `number` of a stream. -/
def streamPartSize (number : Int) : Nat := leastPartSize <<< doublings number

/-- Refuses a part beyond the last that a service takes. -/
def checkPartNumber (number : Int) : Except StorageError Unit :=
  if number > mostParts then
    .error (.tooLarge ("needs more than " ++ mostParts.repr ++ " multipart parts"))
  else .ok ()

theorem checkPartNumber_eq_ok_iff {number : Int} :
    checkPartNumber number = .ok () ↔ number ≤ mostParts := by
  unfold checkPartNumber
  split <;> simp <;> omega

end ChunkedUpload.S3
