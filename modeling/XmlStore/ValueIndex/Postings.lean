import XmlStore.Options
import XmlStore.ValueIndex.Basic

/-!
# The index of a table

The index that a database builds lists for every value the positions that carry it.

* `Postings` is such a list, sorted by value; positions ascend within a value.
* `Values` keeps the postings of the values up to the length limit apart from those of the longer
  ones.  Exact lookups see the former only, intervals see both.  Intervals are answered value by
  value, hence not in document order.
* `BuiltIndex.ofTable` builds the postings of the enabled kinds.
-/

namespace XmlStore

/-- Values in ascending order, each with its positions. -/
abbrev Postings := List (Bytes × List Nat)

namespace Postings

/-- Puts neighbouring pairs with the same value together. -/
def group : List (Bytes × Nat) → Postings
  | [] => []
  | (value, pre) :: rest =>
    match group rest with
    | [] => [(value, [pre])]
    | (next, pres) :: others =>
      if value = next then (value, pre :: pres) :: others
      else (value, [pre]) :: (next, pres) :: others

/-- The postings of pairs of value and position; positions keep their order. -/
def ofPairs (pairs : List (Bytes × Nat)) : Postings :=
  group (pairs.mergeSort fun a b => decide (a.1 ≤ b.1))

/-- The positions of a value. -/
def find (p : Postings) (value : Bytes) : List Nat :=
  match p.find? (·.1 == value) with
  | some (_, pres) => pres
  | none => []

/-- The positions of the values between two bounds, value by value.  A search needs bounds that do
not cross. -/
def between (p : Postings) (lower upper : Bound) (_ : Bound.cross lower upper = false) : List Nat :=
  (p.filter fun entry => lower.admitsAbove entry.1 && upper.admitsBelow entry.1).flatMap (·.2)

end Postings

/-- The indexed values of one kind. -/
structure Values where
  /-- Values within the length limit. -/
  short : Postings
  /-- Longer values, which only intervals reach. -/
  long : Postings
  deriving DecidableEq, Repr

/-- An index built over a table; a kind that is not indexed has no values. -/
structure BuiltIndex where
  texts : Option Values
  attributes : Option Values
  maxLength : Nat
  deriving DecidableEq, Repr

namespace Table

/-- Value and position of every row that carries a value of the kind, in document order. -/
def valuePairs (t : Table) (kind : ValueKind) : List (Bytes × Nat) :=
  t.rows.toList.zipIdx.filterMap fun (row, pre) =>
    if row.kind = kind.nodeKind then some (row.value, pre) else none

end Table

namespace Values

/-- The values of one kind in a table. -/
def ofTable (t : Table) (kind : ValueKind) (maxLength : Nat) : Values :=
  let (short, long) := (t.valuePairs kind).partition fun pair => pair.1.length ≤ maxLength
  { short := Postings.ofPairs short, long := Postings.ofPairs long }

/-- The positions of the values in an interval: the short values, then the long ones. -/
def range (v : Values) (interval : Interval) : List Nat :=
  if h : (interval.isInverted || interval.isDegenerate) = false then
    let apart := Interval.cross_eq_false h
    v.short.between interval.lower interval.upper apart ++
      v.long.between interval.lower interval.upper apart
  else []

end Values

namespace BuiltIndex

/-- The index of a table under the given options. -/
def ofTable (t : Table) (options : Options) : BuiltIndex :=
  let maxLength := options.maxLength.toNat
  { texts := if options.textIndex then some (Values.ofTable t .text maxLength) else none
    attributes :=
      if options.attrIndex then some (Values.ofTable t .attribute maxLength) else none
    maxLength := maxLength }

/-- The values of a kind, if it is indexed. -/
def values? (index : BuiltIndex) : ValueKind → Option Values
  | .text => index.texts
  | .attribute => index.attributes

/-- Number of values that exact lookups of a kind can find. -/
def keyCount (index : BuiltIndex) (kind : ValueKind) : Nat :=
  match index.values? kind with
  | some values => values.short.length
  | none => 0

/-- The index as queries see it. -/
def toValueIndex (index : BuiltIndex) : ValueIndex where
  enabled kind := (index.values? kind).isSome
  maxLength := index.maxLength
  exact kind value :=
    match index.values? kind with
    | some values => (values.short.find value).map fun pre => { pre }
    | none => []
  range interval :=
    match index.values? interval.kind with
    | some values => (values.range interval).map fun pre => { pre }
    | none => []
  orderedRanges := false

end BuiltIndex

end XmlStore
