import Treewalk.Sink

/-!
# What is outside of a program

**A program writes to a sink and reads a clock.**  The readings of a clock are whatever they are, but
they never go back.
-/

namespace Treewalk

/-- A clock and the number of times it has been read. -/
structure Clock where
  /-- What the readings are, in nanoseconds since the clock was started. -/
  readings : Nat → Nat
  monotone {i j : Nat} (h : i ≤ j) : readings i ≤ readings j
  taken : Nat

namespace Clock

/-- A clock that is read every microsecond. -/
def steady : Clock where
  readings i := 1000 * (i + 1)
  monotone h := Nat.mul_le_mul_left 1000 (Nat.succ_le_succ h)
  taken := 0

/-- The time, in nanoseconds. -/
def nanoseconds (c : Clock) : Nat :=
  c.readings c.taken

/-- The time, in seconds. -/
def seconds (c : Clock) : Float :=
  Float.ofNat (c.nanoseconds / 1000000000) + Float.ofNat (c.nanoseconds % 1000000000) / 1000000000

/-- The clock after it has been read. -/
def next (c : Clock) : Clock :=
  { c with taken := c.taken + 1 }

theorem nanoseconds_le_next (c : Clock) : c.nanoseconds ≤ c.next.nanoseconds :=
  c.monotone (Nat.le_succ _)

end Clock

/-- What a program meets outside. -/
structure Outside where
  sink : Sink
  clock : Clock := .steady

namespace Outside

/-- A sink with a steady clock beside it. -/
instance : Coe Sink Outside where
  coe sink := { sink }

/-- A sink that takes everything. -/
def unlimited : Outside :=
  Sink.unlimited

end Outside

end Treewalk
