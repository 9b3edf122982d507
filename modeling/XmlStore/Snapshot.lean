import XmlStore.Fault
import XmlStore.Node
import XmlStore.Text.Quoted
import XmlStore.ValueIndex.Postings

/-!
# Snapshots

A snapshot is a table that no longer changes, together with its value index.  Snapshots are
numbered in the order in which they are made.

Expressions refer to a snapshot by a `Binding`, which does not keep it: whether it still exists is
known to `Live`, the snapshots that somebody holds.  `Live.resolve` is the snapshot of a binding,
or the fault that it is gone.
-/

namespace XmlStore

/-- A table with its value index. -/
structure Snapshot where
  id : Nat
  /-- Name of the database. -/
  name : String
  table : Table
  index : ValueIndex

namespace Snapshot

/-- The snapshot of a table with the index that the options ask for. -/
def ofTable (id : Nat) (name : String) (table : Table) (options : Options) : Snapshot :=
  { id, name, table, index := (BuiltIndex.ofTable table options).toValueIndex }

/-- Number of nodes. -/
def size (s : Snapshot) : Nat := s.table.size

/-- A line about a snapshot for diagnosis; its number, which depends on everything made before, is
left out. -/
def describe (s : Snapshot) : String :=
  "Data \x7b id: DataId(_), name: " ++ Text.quote s.name ++ s!", size: {s.size}" ++ " \x7d"

/-- The node at a position. -/
def node? (s : Snapshot) (pre : Nat) : Option Node :=
  if pre < s.size then some ⟨s.id, pre⟩ else none

/-- What is wrong with an entry that the index gives for a lookup, if anything. -/
def inconsistency? (s : Snapshot) (lookup : Lookup) (pre : Nat) : Option Inconsistency :=
  match s.table.rows[pre]? with
  | none => some .outside
  | some row =>
    if row.kind ≠ lookup.kind.nodeKind then some .wrongKind
    else if lookup.isExact && decide (s.index.maxLength < row.value.length) then some .tooLong
    else if !lookup.accepts row.value then some .mismatch
    else none

/-- Whether a row belongs to a lookup: it carries a value of the kind, which is asked for. -/
def selects (lookup : Lookup) (row : Row) : Bool :=
  row.kind == lookup.kind.nodeKind && lookup.accepts row.value

end Snapshot

/-- A reference to a snapshot that does not keep it. -/
structure Binding where
  name : String
  id : Nat
  deriving DecidableEq, Repr

/-- The binding of a snapshot. -/
def Snapshot.binding (s : Snapshot) : Binding := ⟨s.name, s.id⟩

/-- The snapshots that still exist. -/
structure Live where
  snapshots : List Snapshot

namespace Live

/-- The snapshot of a binding, if it still exists. -/
def find? (live : Live) (b : Binding) : Option Snapshot :=
  live.snapshots.find? (·.id == b.id)

/-- The snapshot of a binding. -/
def resolve (live : Live) (b : Binding) : Except Fault Snapshot :=
  match live.find? b with
  | some s => .ok s
  | none => .error (.storeUnavailable b.name)

end Live

end XmlStore
