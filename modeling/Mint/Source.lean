import Mint.Line

/-!
# Source text

A source is a sequence of bytes. It is cut into physical lines at line feeds, each line
keeping its line feed, and every line is decoded by itself: a line that is not UTF-8
does not spoil its neighbours.
-/

namespace Mint

/-- The bytes of a program. -/
structure Source where
  bytes : List UInt8
deriving DecidableEq

namespace Source

/-- The byte that ends a physical line. -/
def lineFeed : UInt8 := 10

/-- Cuts bytes after every line feed. No part is empty, and only the last may lack its
line feed. -/
def cut : List UInt8 → List (List UInt8)
  | [] => []
  | b :: rest =>
    if b = lineFeed then [b] :: cut rest
    else
      match cut rest with
      | [] => [[b]]
      | line :: lines => (b :: line) :: lines

/-- Nothing is lost in cutting. -/
@[simp] theorem flatten_cut (bytes : List UInt8) : (cut bytes).flatten = bytes := by
  induction bytes with
  | nil => rfl
  | cons b rest ih =>
    rw [cut]
    split
    · simp [ih]
    · split
      · next h => simp_all
      · next h => simp_all

/-- The physical lines of a source. -/
def physicalLines (source : Source) : List (List UInt8) := cut source.bytes

/-- Whether a physical line ends in a line feed. -/
def isTerminated (line : List UInt8) : Bool := line.getLast? == some lineFeed

/-- The characters of a physical line, if it is UTF-8. -/
def decode? (line : List UInt8) : Option (List Char) :=
  (String.fromUTF8? ⟨line.toArray⟩).map String.toList

/-- The source with the given bytes. -/
def ofByteArray (bytes : ByteArray) : Source := ⟨bytes.data.toList⟩

/-- A text as its UTF-8 bytes. -/
def ofString (text : String) : Source := ofByteArray text.toUTF8

end Source

end Mint
