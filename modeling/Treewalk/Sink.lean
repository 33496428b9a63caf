/-!
# Sinks

**Output is a row of bytes that may stop growing.**  A sink with a limit takes bytes up to it.
A write that goes beyond fills the sink and fails; so does every later write of at least one
byte.  Flushing is a matter of its own and may fail without anything being lost.
-/

namespace Treewalk

/-- Where the output of a program goes. -/
structure Sink where
  written : ByteArray
  /-- The number of bytes that the sink takes in all. -/
  limit : Option Nat
  flushFails : Bool

/-- What can go wrong with a sink. -/
inductive SinkError where
  | full
  | flushFailed
deriving DecidableEq, Repr

/-- What the error says. -/
def SinkError.message : SinkError → String
  | .full => "sink full"
  | .flushFailed => "flush failed"

namespace Sink

/-- A sink that takes everything. -/
def unlimited : Sink :=
  { written := .empty, limit := none, flushFails := false }

/-- Does the sink have room for this many more bytes? -/
def hasRoom (s : Sink) (count : Nat) : Bool :=
  match s.limit with
  | none => true
  | some limit => count = 0 || s.written.size + count ≤ limit

/-- The bytes that the sink takes of a write. -/
def taken (s : Sink) (bytes : ByteArray) : ByteArray :=
  match s.limit with
  | none => bytes
  | some limit => bytes.extract 0 (limit - s.written.size)

/-- Writes bytes, as far as there is room. -/
def write (s : Sink) (bytes : ByteArray) : Sink :=
  let taken := s.taken bytes
  match s with
  | ⟨written, limit, flushFails⟩ => ⟨written ++ taken, limit, flushFails⟩

end Sink

end Treewalk
