import XmlStore.Expr.Basic
import XmlStore.Script.Merge

/-!
# Opening expressions

Opening resolves the leaves of an expression in depth-first order and makes the script of its
evaluation.  A leaf cannot be opened if its snapshot is gone or, for a lookup, if its interval is
inverted; the first such leaf is the fault of the whole expression.
-/

namespace XmlStore.Expr

/-- Opens the leaf for a lookup. -/
def openLookup (live : Live) (binding : Binding) (lookup : Lookup) : Except Fault Snapshot := do
  let s ← live.resolve binding
  match lookup.fault? with
  | some fault => .error fault
  | none => .ok s

mutual

/-- The source of the nodes of an expression. -/
def source (live : Live) : Expr → Except Fault Source
  | empty => .ok .empty
  | nodes binding pres => do
    let s ← live.resolve binding
    .ok (.ofNodes (pres.map fun pre => ⟨s.id, pre⟩))
  | access binding lookup _ => do .ok (.ofLookup (← openLookup live binding lookup) lookup)
  | set op operands _ => do .ok (.ofSet op (← operandsFrom live op 0 operands))

/-- The operands of an operator, the first one at the given position. -/
def operandsFrom (live : Live) (op : SetOp) (position : Nat) :
    List Expr → Except Fault (List Operand)
  | [] => .ok []
  | e :: rest => do
    let source ← (e.source live).mapError (.inOperand op position)
    let operands ← operandsFrom live op (position + 1) rest
    .ok ({ source := source, sorted := e.iterable } :: operands)

end

mutual

/-- The leaves of an expression in depth-first order. -/
def leaves : Expr → List Expr
  | set _ operands _ => leavesAll operands
  | e => [e]

/-- The leaves of several expressions. -/
def leavesAll : List Expr → List Expr
  | [] => []
  | e :: rest => leaves e ++ leavesAll rest

end

/-- Whether a leaf can be opened. -/
def opens (live : Live) : Expr → Bool
  | nodes binding _ => (live.find? binding).isSome
  | access binding lookup _ => (openLookup live binding lookup).toBool
  | _ => true

/-- The lookups that are begun while an expression is opened, with their snapshots: those of the
leaves before the first one that cannot be opened. -/
def openedLookups (live : Live) (e : Expr) : List (Snapshot × Lookup) :=
  (e.leaves.takeWhile (opens live)).filterMap fun
    | access binding lookup _ => (live.find? binding).map (·, lookup)
    | _ => none

end XmlStore.Expr
