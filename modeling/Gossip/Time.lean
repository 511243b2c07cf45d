/-!
Points in time and spans of time, to the nanosecond. A wall clock may be set to any point in
time, and can be read from the epoch to the end of the calendar. A span is never negative and
its seconds fit 64 bits; arithmetic that would leave that range gives nothing.
-/

set_option autoImplicit false
set_option relaxedAutoImplicit false

namespace Gossip

/-- A point in time, in nanoseconds since the epoch. -/
structure Instant where
  nanos : Int
  deriving DecidableEq, Repr, Inhabited

namespace Instant

def perSecond : Int := 1000000000

def ofParts (seconds nanos : Int) : Instant := ⟨seconds * perSecond + nanos⟩

/-- Whole seconds since the epoch, rounded down. -/
def seconds (t : Instant) : Int := t.nanos.fdiv perSecond

/-- The last second of the calendar, which ends with the year 262142. -/
def lastSecond : Int := 8210266876799

/-- Whether a clock that is set to a point in time can be read. -/
def Readable (t : Instant) : Prop := 0 ≤ t.nanos ∧ t.seconds ≤ lastSecond

instance (t : Instant) : Decidable t.Readable := inferInstanceAs (Decidable (_ ∧ _))

/-- What a clock that is set to a point in time reads, if it can be read. -/
def read? (t : Instant) : Option Instant := if t.Readable then some t else none

/-- A reading as a version: its nanoseconds, or the greatest version when they do not fit. -/
def stamp (t : Instant) : Int64 :=
  if Int64.minValue.toInt ≤ t.nanos ∧ t.nanos ≤ Int64.maxValue.toInt then Int64.ofInt t.nanos
  else Int64.maxValue

def after (t : Instant) (nanos : Int) : Instant := ⟨t.nanos + nanos⟩

end Instant

/-- The spans are those below 2^64 seconds. -/
def spanLimit : Nat := UInt64.size * 1000000000

/-- A length of time. -/
structure Span where
  nanos : Nat
  nanos_lt : nanos < spanLimit := by decide
  deriving DecidableEq, Repr

namespace Span

/-- The span of a number of nanoseconds, if it is in range. -/
def ofNanos? (nanos : Nat) : Option Span :=
  if h : nanos < spanLimit then some ⟨nanos, h⟩ else none

def zero : Span := ⟨0, by decide⟩

instance : Inhabited Span := ⟨zero⟩

def ofSeconds (seconds : UInt64) : Span :=
  ⟨seconds.toNat * 1000000000, by
    have := seconds.toNat_lt_size
    unfold spanLimit
    omega⟩

/-- A number of seconds and a number of nanoseconds, which may carry into the seconds. -/
def ofParts? (seconds nanos : Nat) : Option Span :=
  ofNanos? (seconds * 1000000000 + nanos)

/-- The whole seconds of a span. -/
def seconds (s : Span) : Nat := s.nanos / 1000000000

/-- The nanoseconds beyond the whole seconds. -/
def subNanos (s : Span) : Nat := s.nanos % 1000000000

def times? (s : Span) (n : Nat) : Option Span := ofNanos? (s.nanos * n)

def plus? (s t : Span) : Option Span := ofNanos? (s.nanos + t.nanos)

end Span

end Gossip
