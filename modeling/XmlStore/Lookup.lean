import XmlStore.Table.Basic

/-!
# Lookups

A lookup asks for the text or attribute nodes whose value equals a given one or lies in an
interval.  Values are ordered byte by byte.

* `Lookup.accepts` is the meaning of a lookup: which values it asks for.
* `Interval.lower` and `Interval.upper` are the two bounds of an interval as a search in a sorted
  list takes them, and `Bound.cross` says when no list can be searched with them.
* `Lookup.fits` tells whether a lookup names only values of a limited length.
-/

namespace XmlStore

/-- The kinds of nodes whose values can be looked up. -/
inductive ValueKind where
  | text
  | attribute
  deriving DecidableEq, Repr

namespace ValueKind

/-- The nodes that carry the values. -/
def nodeKind : ValueKind → NodeKind
  | .text => .text
  | .attribute => .attribute

/-- The listed name of a kind of values. -/
def name : ValueKind → String
  | .text => "TEXT"
  | .attribute => "ATTRIBUTE"

end ValueKind

/-- One end of a search. -/
inductive Bound where
  | unbounded
  | included (value : Bytes)
  | excluded (value : Bytes)
  deriving DecidableEq, Repr

namespace Bound

/-- Whether a value is on the upper side of a lower bound. -/
def admitsAbove : Bound → Bytes → Bool
  | unbounded, _ => true
  | included low, value => decide (low ≤ value)
  | excluded low, value => decide (low < value)

/-- Whether a value is on the lower side of an upper bound. -/
def admitsBelow : Bound → Bytes → Bool
  | unbounded, _ => true
  | included high, value => decide (value ≤ high)
  | excluded high, value => decide (value < high)

/-- The value at a bound. -/
def value? : Bound → Option Bytes
  | unbounded => none
  | included value => some value
  | excluded value => some value

/-- Whether a lower and an upper bound cross: the lower value is the greater one, or both are
equal and both bounds leave it out. -/
def cross (lower upper : Bound) : Bool :=
  match lower.value?, upper.value? with
  | some low, some high =>
    decide (high < low) || (low == high && lower == .excluded low && upper == .excluded high)
  | _, _ => false

end Bound

/-- An interval of values; an absent end is unbounded. -/
structure Interval where
  kind : ValueKind
  min : Option Bytes
  minIncluded : Bool
  max : Option Bytes
  maxIncluded : Bool
  deriving DecidableEq, Repr

namespace Interval

/-- The lower bound. -/
def lower (i : Interval) : Bound :=
  match i.min with
  | none => .unbounded
  | some value => if i.minIncluded then .included value else .excluded value

/-- The upper bound. -/
def upper (i : Interval) : Bound :=
  match i.max with
  | none => .unbounded
  | some value => if i.maxIncluded then .included value else .excluded value

/-- Whether a value lies in the interval. -/
def contains (i : Interval) (value : Bytes) : Bool :=
  i.lower.admitsAbove value && i.upper.admitsBelow value

/-- Whether the lower end exceeds the upper end. -/
def isInverted (i : Interval) : Bool :=
  match i.min, i.max with
  | some low, some high => decide (high < low)
  | _, _ => false

/-- Whether both ends are the same value and one of them leaves it out. -/
def isDegenerate (i : Interval) : Bool :=
  match i.min, i.max with
  | some low, some high => low == high && !(i.minIncluded && i.maxIncluded)
  | _, _ => false

/-- The written form of one end. -/
def endText : Option Bytes → String
  | none => "*"
  | some value => s!"\"{Utf8.lossy value}\""

/-- The written form of an interval: brackets tell whether an end is included. -/
def text (i : Interval) : String :=
  (if i.minIncluded then "[" else "(") ++ endText i.min ++ ", " ++ endText i.max ++
    (if i.maxIncluded then "]" else ")")

/-- The bounds of an interval cross only if it is inverted or degenerate. -/
theorem cross_eq_false {i : Interval} (h : (i.isInverted || i.isDegenerate) = false) :
    Bound.cross i.lower i.upper = false := by
  obtain ⟨kind, min, minIncluded, max, maxIncluded⟩ := i
  cases min <;> cases max <;> cases minIncluded <;> cases maxIncluded <;>
    simp_all [isInverted, isDegenerate, lower, upper, Bound.cross, Bound.value?]

end Interval

/-- What is asked of the values of a snapshot. -/
inductive Lookup where
  | exact (kind : ValueKind) (value : Bytes)
  | range (interval : Interval)
  deriving DecidableEq, Repr

namespace Lookup

/-- The kind of values looked up. -/
def kind : Lookup → ValueKind
  | exact kind _ => kind
  | range interval => interval.kind

/-- Whether the lookup asks for a value. -/
def accepts : Lookup → Bytes → Bool
  | exact _ value, candidate => value == candidate
  | range interval, candidate => interval.contains candidate

/-- Whether every value named in the lookup has at most `limit` bytes. -/
def fits (limit : Nat) : Lookup → Bool
  | exact _ value => value.length ≤ limit
  | range interval =>
    (interval.min.getD []).length ≤ limit && (interval.max.getD []).length ≤ limit

/-- Whether the lookup names a single value. -/
def isExact : Lookup → Bool
  | exact .. => true
  | range _ => false

/-- The written form of a lookup. -/
def text : Lookup → String
  | exact kind value => s!"{kind.name} \"{Utf8.lossy value}\""
  | range interval => s!"{interval.kind.name} {interval.text}"

end Lookup

end XmlStore
