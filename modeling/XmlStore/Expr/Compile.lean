import XmlStore.Expr.Listing

/-!
# Compiling expressions

One pass from the leaves to the root prepares an expression for evaluation.  It never fails.

* A lookup is marked as iterable if its snapshot promises document order for it: an index that
  orders its answer, or a scan.
* Empty operands are dropped or make the whole operator empty (`dropEmpty`).  An operator that is
  left with a single iterable operand is replaced by it; any other one sorts what it has to, so its
  result is iterable (`combine`).

Every simplification is reported as a `Diagnostic`.
-/

namespace XmlStore

/-- What the compiler reports. -/
inductive Diagnostic where
  /-- A lookup has to scan the table. -/
  | scanning (name : String) (lookup : Lookup)
  /-- An empty operand makes the operator empty. -/
  | emptyOperand (op : SetOp)
  /-- The operator takes nodes away from nothing. -/
  | emptyFirst (op : SetOp)
  /-- An empty operand was dropped. -/
  | removedEmpty (op : SetOp)
  /-- The operator was replaced by its only operand. -/
  | singleOperand (op : SetOp)
  deriving DecidableEq, Repr

/-- The wording of a diagnostic. -/
def Diagnostic.message : Diagnostic → String
  | scanning name lookup => s!"scanning table for {lookup.call name}"
  | emptyOperand op => s!"simplifying {op.name} with empty operand to ()"
  | emptyFirst op => s!"simplifying {op.name} of () to ()"
  | removedEmpty op => s!"removing () from {op.name}"
  | singleOperand op => s!"simplifying single-operand {op.name}"

namespace Expr

/-- Whether the nodes of a lookup come in document order, and a report if they are scanned for.  Of
a snapshot that is gone nothing is known. -/
def ordersLookup (live : Live) (binding : Binding) (lookup : Lookup) : Bool × List Diagnostic :=
  match live.find? binding with
  | none => (false, [])
  | some s =>
    if s.index.answers lookup then (s.index.orders lookup, [])
    else (true, [.scanning binding.name lookup])

/-- Drops the empty operands, `first` telling whether the first one is the operator's first; `none`
if one of them makes the operator empty. -/
def dropEmpty (op : SetOp) (first : Bool) : List Expr → Option (List Expr) × List Diagnostic
  | [] => (some [], [])
  | e :: rest =>
    if e.isEmpty then
      match op, first with
      | .intersect, _ => (none, [.emptyOperand op])
      | .except, true => (none, [.emptyFirst op])
      | _, _ =>
        let (kept, reports) := dropEmpty op false rest
        (kept, .removedEmpty op :: reports)
    else
      let (kept, reports) := dropEmpty op false rest
      (kept.map (e :: ·), reports)

/-- The expression for an operator whose operands are compiled. -/
def combine (op : SetOp) (operands : List Expr) : Expr × List Diagnostic :=
  match dropEmpty op true operands with
  | (none, reports) => (.empty, reports)
  | (some [], reports) => (.empty, reports)
  | (some [e], reports) =>
    if e.iterable then (e, reports ++ [.singleOperand op])
    else (.set op [e] true, reports)
  | (some kept, reports) => (.set op kept true, reports)

mutual

/-- The compiled expression with the reports in the order they were made. -/
def compile (live : Live) : Expr → Expr × List Diagnostic
  | access binding lookup _ =>
    let (iterable, reports) := ordersLookup live binding lookup
    (.access binding lookup iterable, reports)
  | set op operands _ =>
    let (operands, before) := compileAll live operands
    let (e, after) := combine op operands
    (e, before ++ after)
  | e => (e, [])

/-- The compiled expressions. -/
def compileAll (live : Live) : List Expr → List Expr × List Diagnostic
  | [] => ([], [])
  | e :: rest =>
    let (e, before) := compile live e
    let (rest, after) := compileAll live rest
    (e :: rest, before ++ after)

end

end Expr

end XmlStore
