import XmlStore.Lookup
import XmlStore.SetOp

/-!
# Faults of queries

`Fault` lists the causes for which a query fails, `Fault.message` words them and `Fault.kind` sorts
them.  A fault in an operand of a set operator carries the operator and the operand's position, one
layer for every operator on the way (`Fault.inOperand`); an interrupt concerns the whole query and
never carries any.
-/

namespace XmlStore

/-- How an entry of a value index can disagree with the table. -/
inductive Inconsistency where
  | outside
  | wrongKind
  | tooLong
  | mismatch
  deriving DecidableEq, Repr

/-- The wording of a disagreement. -/
def Inconsistency.text : Inconsistency → String
  | outside => "position outside of the node table"
  | wrongKind => "unexpected node kind"
  | tooLong => "value exceeds the indexed length"
  | mismatch => "value does not satisfy the lookup"

/-- The kinds of faults. -/
inductive FaultKind where
  | invalidToken
  | storeUnavailable
  | interrupted
  | indexInconsistent
  | invalidNode
  deriving DecidableEq, Repr

/-- Why a query failed. -/
inductive Fault where
  /-- The lower end of an interval exceeds its upper end. -/
  | invertedRange (interval : Interval)
  /-- The snapshot of this database is gone. -/
  | storeUnavailable (name : String)
  /-- Cancellation was requested. -/
  | interrupted
  /-- The value index returned an entry that does not belong to the lookup. -/
  | indexInconsistent (lookup : Lookup) (pre : Nat) (reason : Inconsistency)
  /-- A listed position lies outside of the snapshot. -/
  | invalidNode (name : String) (pre size : Nat)
  /-- An operand of a set operator failed. -/
  | operand (op : SetOp) (position : Nat) (cause : Fault)
  deriving DecidableEq, Repr

namespace Fault

/-- The kind of a fault, whatever operand it arose in. -/
def kind : Fault → FaultKind
  | invertedRange _ => .invalidToken
  | storeUnavailable _ => .storeUnavailable
  | interrupted => .interrupted
  | indexInconsistent .. => .indexInconsistent
  | invalidNode .. => .invalidNode
  | operand _ _ cause => cause.kind

/-- The wording of a fault. -/
def message : Fault → String
  | invertedRange interval =>
    s!"invalid index token {interval.text}: lower bound exceeds upper bound"
  | storeUnavailable name => s!"database \"{name}\" is no longer available"
  | interrupted => "query was interrupted"
  | indexInconsistent lookup pre reason =>
    s!"index returned inconsistent entry {pre} for {lookup.text}: {reason.text}"
  | invalidNode name pre size =>
    s!"node {pre} is out of range for database \"{name}\" ({size} nodes)"
  | operand op position cause => s!"{op.name} operand {position}: {cause.message}"

/-- The fault as seen from the operator that the failing operand belongs to. -/
def inOperand (op : SetOp) (position : Nat) : Fault → Fault
  | interrupted => interrupted
  | fault => operand op position fault

theorem kind_inOperand (op : SetOp) (position : Nat) (fault : Fault) :
    (fault.inOperand op position).kind = fault.kind := by
  cases fault <;> rfl

end Fault

/-- The fault of a lookup in itself: its interval is inverted. -/
def Lookup.fault? : Lookup → Option Fault
  | .exact .. => none
  | .range interval => if interval.isInverted then some (.invertedRange interval) else none

end XmlStore
