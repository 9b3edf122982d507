import XmlStore.Event
import XmlStore.Expr.Opening

/-!
# Evaluation

An evaluation runs the script of an expression under a signal.

* `Run.next` runs it up to the next node, `Run.drain` to its end.  A poll that finds the signal
  raised interrupts the run; after a fault or the last node nothing more comes.
* `Expr.begin` opens an expression: it fails if the signal is raised already.  `Expr.value` drains
  it at once, and `Expr.evaluate` tells the observer first.
* `Expr.values` and `Expr.keyedValues` evaluate several expressions under one signal, one after
  the other.
-/

namespace XmlStore

/-- An evaluation in progress. -/
structure Run where
  signal : SignalId
  /-- What is still to come. -/
  script : Script
  /-- Snapshots that it keeps. -/
  held : List Snapshot

namespace Run

/-- An evaluation after which nothing comes. -/
def ended (r : Run) (held : List Snapshot) : Run := { r with script := .empty, held := held }

/-- Runs steps up to the next node. -/
def nextFrom (r : Run) (signals : Signals) (held : List Snapshot) :
    List (Step Node) → Except Fault (Option Node) × Run × Signals
  | [] =>
    match r.script.fault with
    | none => (.ok none, r.ended held, signals)
    | some fault => (.error fault, r.ended held, signals)
  | .visit raises :: rest => nextFrom r (signals.raiseAll raises) held rest
  | .poll :: rest =>
    if signals.isRaised r.signal then (.error .interrupted, r.ended held, signals)
    else nextFrom r signals held rest
  | .release ids :: rest => nextFrom r signals (Source.letGo held ids) rest
  | .yield node :: rest =>
    (.ok (some node), { r with script := { r.script with steps := rest }, held := held }, signals)

/-- The next node, `none` at the end. -/
def next (r : Run) (signals : Signals) : Except Fault (Option Node) × Run × Signals :=
  r.nextFrom signals r.held r.script.steps

/-- Runs steps to the end, after the nodes `done` (the latest first). -/
def drainFrom (r : Run) (done : List Node) (signals : Signals) :
    List (Step Node) → Except Fault (List Node) × Signals
  | [] =>
    match r.script.fault with
    | none => (.ok done.reverse, signals)
    | some fault => (.error fault, signals)
  | .visit raises :: rest => drainFrom r done (signals.raiseAll raises) rest
  | .poll :: rest =>
    if signals.isRaised r.signal then (.error .interrupted, signals)
    else drainFrom r done signals rest
  | .release _ :: rest => drainFrom r done signals rest
  | .yield node :: rest => drainFrom r (node :: done) signals rest

/-- All nodes that are still to come. -/
def drain (r : Run) (signals : Signals) : Except Fault (List Node) × Signals :=
  r.drainFrom [] signals r.script.steps

end Run

/-- What an evaluation has come to. -/
structure Outcome (α : Type) where
  result : α
  signals : Signals
  events : List Event

namespace Expr

/-- Opens an expression for evaluation under a signal. -/
def begin (live : Live) (signals : Signals) (signal : SignalId) (e : Expr) : Except Fault Run :=
  if signals.isRaised signal then .error .interrupted
  else do
    let source ← e.source live
    .ok { signal := signal, script := source.script, held := source.held }

/-- The events of opening an expression. -/
def beginEvents (live : Live) (signals : Signals) (signal : SignalId) (e : Expr) : List Event :=
  if signals.isRaised signal then []
  else (e.openedLookups live).map fun (s, lookup) =>
    .reading lookup s.name (s.index.answers lookup)

/-- All nodes of an expression. -/
def value (live : Live) (signals : Signals) (signal : SignalId) (e : Expr) :
    Outcome (Except Fault (List Node)) :=
  let events := e.beginEvents live signals signal
  match e.begin live signals signal with
  | .error fault => { result := .error fault, signals := signals, events := events }
  | .ok run =>
    let (result, signals) := run.drain signals
    { result := result, signals := signals, events := events }

/-- All nodes of an expression.  Both modes end with the same nodes: reading them one by one and
reading them at once run the same script. -/
def evaluate (live : Live) (signals : Signals) (signal : SignalId) (mode : Mode) (e : Expr) :
    Outcome (Except Fault (List Node)) :=
  let outcome := e.value live signals signal
  { outcome with events := .evaluating mode e :: outcome.events }

/-- The nodes of each expression, or why it failed or could not be made. -/
def values (live : Live) (signal : SignalId) (signals : Signals) :
    List (Except Fault Expr) → Outcome (List (Except Fault (List Node)))
  | [] => { result := [], signals := signals, events := [] }
  | .error fault :: rest =>
    let others := values live signal signals rest
    { others with result := .error fault :: others.result }
  | .ok e :: rest =>
    let first := e.value live signals signal
    let others := values live signal first.signals rest
    { result := first.result :: others.result
      signals := others.signals
      events := first.events ++ others.events }

/-- The nodes of all expressions under their keys, or the first fault; nothing is evaluated after
it. -/
def keyedValues {κ : Type} (live : Live) (signal : SignalId) (signals : Signals) :
    List (κ × Expr) → Outcome (Except Fault (List (κ × List Node)))
  | [] => { result := .ok [], signals := signals, events := [] }
  | (key, e) :: rest =>
    let first := e.value live signals signal
    match first.result with
    | .error fault => { first with result := .error fault }
    | .ok found =>
      let others := keyedValues live signal first.signals rest
      { result := others.result.map ((key, found) :: ·)
        signals := others.signals
        events := first.events ++ others.events }

end Expr

end XmlStore
