/-!
# Durations

A span of time is a number of nanoseconds whose whole seconds fit a 64-bit word. A sum that would
not fit is no duration.
-/

namespace Reckoner

/-! Nanoseconds of larger units. -/

def Duration.perSecond : Nat :=
  1000000000

def Duration.perMilli : Nat :=
  1000000

def Duration.perMicro : Nat :=
  1000

structure Duration where
  nanos : Nat
  fits : nanos < UInt64.size * Duration.perSecond
  deriving DecidableEq

namespace Duration

def zero : Duration :=
  ⟨0, by decide⟩

instance : Inhabited Duration := ⟨zero⟩

def ofNanos? (n : Nat) : Option Duration :=
  if h : n < UInt64.size * perSecond then some ⟨n, h⟩ else none

def ofMillis (ms : UInt64) : Duration :=
  ⟨ms.toNat * perMilli, by
    have := ms.toNat_lt
    simp only [perMilli, perSecond, UInt64.size]
    omega⟩

/-- Whole milliseconds, without the fraction. -/
def millis (d : Duration) : Nat :=
  d.nanos / perMilli

/-- Whole milliseconds, the largest word standing for all that is larger. -/
def wordMillis (d : Duration) : UInt64 :=
  UInt64.ofNat (min d.millis (UInt64.size - 1))

@[simp] theorem wordMillis_ofMillis (ms : UInt64) : (ofMillis ms).wordMillis = ms := by
  have h := ms.toNat_lt
  have : min (ms.toNat * perMilli / perMilli) (UInt64.size - 1) = ms.toNat := by
    simp only [perMilli, UInt64.size]
    omega
  simp only [wordMillis, millis, ofMillis, this, UInt64.ofNat_toNat]

def add? (a b : Duration) : Option Duration :=
  ofNanos? (a.nanos + b.nanos)

/-- The sum from left to right, unless a partial sum leaves the range. -/
def sum? (ds : List Duration) : Option Duration :=
  ds.foldlM add? zero

/-- A fraction of `width` digits with the zeros at its end dropped. -/
def fractionText (width n : Nat) : List Char :=
  let digits := Nat.toDigits 10 n
  let padded := List.replicate (width - digits.length) '0' ++ digits
  match (padded.reverse.dropWhile (· = '0')).reverse with
  | [] => []
  | kept => '.' :: kept

/-- The number in the largest unit of which it holds at least one. -/
def text (d : Duration) : String :=
  let inUnit (unit width : Nat) (name : String) :=
    String.ofList (Nat.toDigits 10 (d.nanos / unit) ++ fractionText width (d.nanos % unit)) ++ name
  if perSecond ≤ d.nanos then inUnit perSecond 9 "s"
  else if perMilli ≤ d.nanos then inUnit perMilli 6 "ms"
  else if perMicro ≤ d.nanos then inUnit perMicro 3 "µs"
  else inUnit 1 0 "ns"

end Duration

end Reckoner
