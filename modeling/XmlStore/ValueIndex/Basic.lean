import XmlStore.Lookup
import XmlStore.Signals

/-!
# Value indexes

A value index answers lookups without a walk over the table.  `ValueIndex` is all that a query
needs to know of one.  Its answers are lists of positions that nobody has checked, in an order that
`orderedRanges` only promises for intervals; an index may also watch how its answer is read, and
raise signals when an entry is taken.
-/

namespace XmlStore

/-- One position in the answer of an index, with the signals that taking it raises. -/
structure Entry where
  pre : Nat
  raises : List SignalId := []
  deriving DecidableEq, Repr

/-- An index over the values of a table. -/
structure ValueIndex where
  /-- Whether values of a kind are indexed. -/
  enabled : ValueKind → Bool
  /-- Longest value, in bytes, that an exact lookup can find. -/
  maxLength : Nat
  /-- Nodes of a kind with a given value. -/
  exact : ValueKind → Bytes → List Entry
  /-- Nodes with a value in an interval. -/
  range : Interval → List Entry
  /-- Whether the answers for intervals are in document order. -/
  orderedRanges : Bool

namespace ValueIndex

/-- The answer for a lookup. -/
def answer (index : ValueIndex) : Lookup → List Entry
  | .exact kind value => index.exact kind value
  | .range interval => index.range interval

/-- Whether a lookup is answered by the index: its kind is indexed and its values are not too
long. -/
def answers (index : ValueIndex) (lookup : Lookup) : Bool :=
  lookup.fits index.maxLength && index.enabled lookup.kind

/-- Whether the answer for a lookup is promised to be in document order. -/
def orders (index : ValueIndex) (lookup : Lookup) : Bool :=
  lookup.isExact || index.orderedRanges

end ValueIndex

end XmlStore
