import XmlStore.Snapshot

/-!
# Query expressions

An expression is a tree of set operators over lookups and listed nodes.  Its leaves are bound to
snapshots, which they do not keep.

`Expr.iterable` tells whether the nodes of an expression are known to be in document order and
without duplicates.  Listed nodes show it themselves; for lookups and set operators the flag is set
when the expression is compiled.
-/

namespace XmlStore

/-- A query over snapshots. -/
inductive Expr where
  /-- No nodes. -/
  | empty
  /-- Listed positions of a snapshot. -/
  | nodes (binding : Binding) (pres : List Nat)
  /-- The nodes of a snapshot that a lookup asks for. -/
  | access (binding : Binding) (lookup : Lookup) (iterable : Bool)
  /-- A set operator on other expressions. -/
  | set (op : SetOp) (operands : List Expr) (iterable : Bool)
  deriving Repr, Inhabited

namespace Expr

/-- The nodes of a snapshot that a lookup asks for. -/
def ofLookup (s : Snapshot) (lookup : Lookup) : Expr := .access s.binding lookup false

/-- Listed positions of a snapshot; the first one outside of it is refused. -/
def ofPres (s : Snapshot) (pres : List Nat) : Except Fault Expr :=
  match pres.find? fun pre => decide (s.size ≤ pre) with
  | some pre => .error (.invalidNode s.name pre s.size)
  | none => .ok (.nodes s.binding pres)

/-- A set operator on other expressions. -/
def ofSet (op : SetOp) (operands : List Expr) : Expr := .set op operands false

/-- Whether this is the expression without nodes. -/
def isEmpty : Expr → Bool
  | empty => true
  | _ => false

/-- Whether the nodes are known to be in document order and without duplicates. -/
def iterable : Expr → Bool
  | empty => true
  | nodes _ pres => isAscending pres
  | access _ _ iterable => iterable
  | set _ _ iterable => iterable

/-- The operands of a set operator. -/
def operands : Expr → List Expr
  | set _ operands _ => operands
  | _ => []

end Expr

end XmlStore
