/-!
# Output

A sink collects the bytes that a program prints. It may have room for a limited number
of bytes, and it may refuse to be flushed. A write takes as much as fits and fails if
something is left over; so a text that straddles the limit is written in part, and
writing nothing never fails.
-/

namespace Mint

/-- Bytes are compared one by one. -/
instance decidableEqBytes : DecidableEq ByteArray := ByteArray.instDecidableEq

namespace Sink

/-- Why output was not accepted. -/
inductive Fault where
  | full
  | flushRefused
deriving DecidableEq

/-- How a fault is described to the user. -/
def Fault.message : Fault → String
  | full => "sink full"
  | flushRefused => "flush refused"

end Sink

/-- Where `print` writes. -/
structure Sink where
  written : ByteArray
  /-- How many bytes the sink takes in all; `none` if any number. -/
  capacity : Option Nat
  refusesFlush : Bool
  /-- How many times a flush was asked for. -/
  flushes : Nat
deriving DecidableEq

namespace Sink

/-- A sink that takes everything. -/
def unlimited : Sink := ⟨.empty, none, false, 0⟩

/-- An empty sink with a capacity and a way to meet a flush. -/
def make (capacity : Option Nat) (refusesFlush : Bool) : Sink :=
  ⟨.empty, capacity, refusesFlush, 0⟩

/-- How many of `wanted` more bytes fit. -/
def fitting (sink : Sink) (wanted : Nat) : Nat :=
  match sink.capacity with
  | none => wanted
  | some capacity => min wanted (capacity - sink.written.size)

/-- The sink after an attempt to write, and what was wrong if not everything fitted. -/
def write (sink : Sink) (bytes : ByteArray) : Option Fault × Sink :=
  let taken := sink.fitting bytes.size
  (if taken < bytes.size then some .full else none,
    { sink with written := sink.written ++ bytes.extract 0 taken })

/-- The sink after an attempt to flush, and what was wrong if it was refused. -/
def flush (sink : Sink) : Option Fault × Sink :=
  (if sink.refusesFlush then some .flushRefused else none,
    { sink with flushes := sink.flushes + 1 })

/-- The output as text. Bytes at the end that do not make a whole character are shown as
one replacement character. -/
def text (sink : Sink) : String :=
  let bytes := sink.written
  let cuts :=
    [0, 1, 2, 3].map fun k => (k, String.fromUTF8? (bytes.extract 0 (bytes.size - k)))
  match cuts.findSome? fun (k, decoded) => decoded.map fun text => (k, text) with
  | some (0, text) => text
  | some (_, text) => text ++ "\uFFFD"
  | none => "\uFFFD"

end Sink

end Mint
