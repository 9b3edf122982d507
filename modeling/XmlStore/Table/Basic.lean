import XmlStore.Table.Names

/-!
# Node tables

A table holds one row for every node of its documents: the document itself, elements,
attributes, texts, comments and processing instructions.  Rows stand in document order, so the
position of a row (its *pre* value) is the order key of its node, and the attributes of an
element follow it directly.

```text
pre  kind       distance  size  name   value
0    document   0         6     -      "books.xml"
1    element    1         5     book   -
2    attribute  1         1     id     "b1"
3    element    2         2     title  -
4    text       1         1     -      "XML"
5    comment    4         1     -      "draft"
```

* Parents are stored as distances and names as numbers, so that `Table.append` copies the rows
  of another table and only numbers their names anew.
* `Table.views` is what a reader of the table can observe of its rows.
* `Table.documents` walks from document to document by their sizes.

Positions, distances and sizes are plain numbers.  Where they are stored in 32 bits, this is the
same as long as a table has fewer than 2^32 rows: they are all bounded by the number of rows, so
nothing wraps.
-/

namespace XmlStore

/-- The kinds of nodes. -/
inductive NodeKind where
  | document
  | element
  | text
  | attribute
  | comment
  | instruction
  deriving DecidableEq, Repr

/-- The listed name of a kind. -/
def NodeKind.name : NodeKind → String
  | .document => "document"
  | .element => "element"
  | .text => "text"
  | .attribute => "attribute"
  | .comment => "comment"
  | .instruction => "processing_instruction"

/-- One row of a table. -/
structure Row where
  kind : NodeKind
  /-- Distance to the parent's row, 0 for a document. -/
  distance : Nat
  /-- Rows of the subtree, this one included. -/
  size : Nat
  /-- Attribute rows that follow, for an element. -/
  attributes : Nat
  /-- Number of the name, 0 for none. -/
  name : Nat
  /-- Path of a document; value of a text, attribute or comment; data of an instruction. -/
  value : Bytes
  deriving DecidableEq, Repr

/-- A table of rows in document order. -/
structure Table where
  rows : Array Row := #[]
  names : Names := {}
  deriving DecidableEq, Repr

/-- What can be observed of a row: its name is resolved and its parent is a position. -/
structure RowView where
  kind : NodeKind
  name : Option Bytes
  value : Bytes
  parent : Option Nat
  size : Nat
  attributes : Nat
  deriving DecidableEq, Repr

namespace Table

/-- The table without rows. -/
def empty : Table := {}

/-- Number of rows. -/
def size (t : Table) : Nat := t.rows.size

/-- The row at a position, as observed. -/
def view? (t : Table) (pre : Nat) : Option RowView :=
  t.rows[pre]?.map fun row =>
    { kind := row.kind
      name := t.names.get? row.name
      value := row.value
      parent := if row.distance = 0 then none else some (pre - row.distance)
      size := row.size
      attributes := row.attributes }

/-- All rows, as observed. -/
def views (t : Table) : List RowView :=
  (List.range t.size).filterMap t.view?

/-- Number of attributes of the row at `pre`, 0 past the end. -/
def attributeCount (t : Table) (pre : Nat) : Nat :=
  (t.rows[pre]?.map Row.attributes).getD 0

/-- The documents from position `pre` on; a document is followed by the one after its subtree. -/
def documentsFrom (t : Table) (pre : Nat) : List Nat :=
  if h : pre < t.rows.size then
    pre :: t.documentsFrom (pre + max t.rows[pre].size 1)
  else []
  termination_by t.rows.size - pre
  decreasing_by
    omega

/-- The positions of all documents. -/
def documents (t : Table) : List Nat := t.documentsFrom 0

/-- Adds one row at the end. -/
def push (t : Table) (kind : NodeKind) (distance : Nat) (name value : Bytes) : Table :=
  let (number, names) := t.names.intern name
  { rows := t.rows.push
      { kind := kind, distance := distance, size := 1, attributes := 0, name := number,
        value := value }
    names := names }

/-- Copies a row of a table with names `names` to the end. -/
def copyRow (names : Names) (t : Table) (row : Row) : Table :=
  match names.get? row.name with
  | none => { t with rows := t.rows.push { row with name := 0 } }
  | some name =>
    let (number, known) := t.names.intern name
    { rows := t.rows.push { row with name := number }, names := known }

/-- The documents of `t` followed by those of `other`. -/
def append (t other : Table) : Table :=
  other.rows.foldl (copyRow other.names) t

/-- Replaces the value of the row at `pre`. -/
def setValue (t : Table) (pre : Nat) (value : Bytes) : Table :=
  { t with rows := t.rows.modify pre fun row => { row with value := value } }

end Table

end XmlStore
