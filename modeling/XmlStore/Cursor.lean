import XmlStore.Snapshot

/-!
# Cursors

Reading an index or scanning a table is a list of steps known in advance; only whether it is cut
short depends on when the query is asked to stop.

* `Step` — one step: an entry is visited, the query's signal is polled, snapshots are let go, or
  something is yielded.
* `Snapshot.scanSteps` — a scan visits every row in ascending order, yields the ones that belong
  to the lookup, and polls before every `pollInterval`-th row.
* `Cursor.pull` — runs a cursor up to the next position.  A poll that finds the signal raised ends
  the cursor for good.
-/

namespace XmlStore

/-- One step of a reading. -/
inductive Step (α : Type) where
  /-- An entry or a row is looked at, which may raise signals. -/
  | visit (raises : List SignalId)
  /-- The signal of the query is looked at. -/
  | poll
  /-- Snapshots, given by their numbers, are no longer needed. -/
  | release (snapshots : List Nat)
  /-- A result. -/
  | yield (result : α)
  deriving DecidableEq, Repr

namespace Step

variable {α : Type}

/-- Whether a step yields something. -/
def isYield : Step α → Bool
  | yield _ => true
  | _ => false

/-- What a step yields. -/
def result? : Step α → Option α
  | yield a => some a
  | _ => none

end Step

/-- Rows that a scan visits between two polls. -/
def pollInterval : Nat := 4096

namespace Snapshot

/-- The steps of a scan at one row. -/
def scanRow (lookup : Lookup) (pre : Nat) (row : Row) : List (Step Nat) :=
  (if pre % pollInterval = 0 then [.poll] else []) ++ .visit [] ::
    (if selects lookup row then [.yield pre] else [])

/-- The steps of a scan for a lookup. -/
def scanSteps (s : Snapshot) (lookup : Lookup) : List (Step Nat) :=
  s.table.rows.toList.zipIdx.flatMap fun (row, pre) => scanRow lookup pre row

end Snapshot

/-- The steps of reading the answer of an index. -/
def Entry.steps (entries : List Entry) : List (Step Nat) :=
  entries.flatMap fun entry => [.visit entry.raises, .yield entry.pre]

/-- A reading in progress, and the signal that its polls look at. -/
structure Cursor where
  steps : List (Step Nat)
  watch : Option SignalId := none
  deriving Repr

namespace Cursor

/-- Whether the watched signal is raised. -/
def stops (watch : Option SignalId) (signals : Signals) : Bool :=
  watch.any signals.isRaised

/-- Runs steps up to the next position; gives the steps left and the signals. -/
def run (watch : Option SignalId) (signals : Signals) :
    List (Step Nat) → Option Nat × List (Step Nat) × Signals
  | [] => (none, [], signals)
  | .visit raises :: rest => run watch (signals.raiseAll raises) rest
  | .poll :: rest => if stops watch signals then (none, [], signals) else run watch signals rest
  | .release _ :: rest => run watch signals rest
  | .yield pre :: rest => (some pre, rest, signals)

/-- The next position, if there is one. -/
def pull (c : Cursor) (signals : Signals) : Option Nat × Cursor × Signals :=
  let (pre, steps, signals) := run c.watch signals c.steps
  (pre, { c with steps }, signals)

/-- The next `n` positions; fewer if the cursor ends. -/
def take (c : Cursor) (signals : Signals) : Nat → List Nat × Cursor × Signals
  | 0 => ([], c, signals)
  | n + 1 =>
    match c.pull signals with
    | (none, c, signals) => ([], c, signals)
    | (some pre, c, signals) =>
      let (pres, c, signals) := take c signals n
      (pre :: pres, c, signals)

end Cursor

end XmlStore
