import XmlStore.Cursor

/-!
# Scripts

A script is the course that an evaluation takes if nobody interrupts it: its steps, and the fault it
ends with, if any.  Every node is preceded by a poll.

* `Script.ofNodes` lists given nodes.
* `Script.ofSteps` turns the steps of a cursor into nodes of a snapshot, checking every position
  that an index gives; the first bad one is a fault.  A cursor that has come to its end is polled
  once more, for a signal that was raised after its last poll.
* `Source` is a script with the snapshots it keeps while it runs.
-/

namespace XmlStore

/-- The course of an evaluation. -/
structure Script where
  steps : List (Step Node)
  fault : Option Fault := none
  deriving DecidableEq, Repr

namespace Script

/-- The script without steps. -/
def empty : Script := { steps := [] }

/-- The nodes that a script yields. -/
def nodes (s : Script) : List Node := s.steps.filterMap Step.result?

/-- Number of nodes that a script yields. -/
def yields (s : Script) : Nat := s.steps.countP Step.isYield

/-- The script with more steps before it. -/
def after (s : Script) (steps : List (Step Node)) : Script := { s with steps := steps ++ s.steps }

/-- The script of a list of nodes. -/
def ofNodes (nodes : List Node) : Script where
  steps := nodes.flatMap fun node => [.poll, .yield node]

/-- The script of a cursor whose positions are checked by `fault?`. -/
def ofSteps (snapshot : Nat) (fault? : Nat → Option Fault) : List (Step Nat) → Script
  | [] => { steps := [.poll] }
  | .yield pre :: rest =>
    match fault? pre with
    | some fault => { steps := [], fault := some fault }
    | none => (ofSteps snapshot fault? rest).after [.poll, .yield ⟨snapshot, pre⟩]
  | .visit raises :: rest => (ofSteps snapshot fault? rest).after [.visit raises]
  | .poll :: rest => (ofSteps snapshot fault? rest).after [.poll]
  | .release ids :: rest => (ofSteps snapshot fault? rest).after [.release ids]

end Script

/-- A script with the snapshots that it keeps from its start on. -/
structure Source where
  script : Script
  held : List Snapshot := []

namespace Source

/-- Snapshots left after some have been let go, one for each number. -/
def letGo (held : List Snapshot) (ids : List Nat) : List Snapshot :=
  ids.foldl (fun held id => held.eraseP (·.id == id)) held

/-- Snapshots left after a step. -/
def heldAfter (held : List Snapshot) : Step Node → List Snapshot
  | .release ids => letGo held ids
  | _ => held

/-- Snapshots still kept at the end. -/
def heldAtEnd (s : Source) : List Snapshot := s.script.steps.foldl heldAfter s.held

/-- No nodes. -/
def empty : Source := { script := .empty }

/-- Given nodes. -/
def ofNodes (nodes : List Node) : Source := { script := .ofNodes nodes }

/-- The fault of an index entry. -/
def entryFault? (s : Snapshot) (lookup : Lookup) (pre : Nat) : Option Fault :=
  (s.inconsistency? lookup pre).map (.indexInconsistent lookup pre)

/-- The nodes of a lookup, read from the index if it answers the lookup and by a scan otherwise. -/
def ofLookup (s : Snapshot) (lookup : Lookup) : Source where
  script :=
    if s.index.answers lookup then
      .ofSteps s.id (entryFault? s lookup) (Entry.steps (s.index.answer lookup))
    else .ofSteps s.id (fun _ => none) (s.scanSteps lookup)
  held := [s]

end Source

end XmlStore
