import XmlStore.Database.Addition
import XmlStore.Evaluation
import XmlStore.Query

/-!
# Hosted databases

A host keeps databases for many clients.  Each hosted database has a signal that the queries started
on it observe; cancelling raises that signal and gives later queries a fresh one, so it stops the
queries already started and no others.

A hosted query asks the current snapshot: it is bound, compiled and evaluated.
-/

namespace XmlStore

/-- A database with the signal of the queries that are started on it. -/
structure Hosted where
  database : Database
  signal : SignalId

namespace Hosted

/-- Hosts a database. -/
def start (signals : Signals) (database : Database) : Hosted × Signals :=
  let (signal, signals) := signals.fresh
  ({ database, signal }, signals)

/-- Cancels the queries started so far. -/
def cancel (h : Hosted) (signals : Signals) : Hosted × Signals :=
  let (signal, signals) := (signals.raise h.signal).fresh
  ({ h with signal := signal }, signals)

/-- The snapshot that queries are asked of. -/
def snapshot (h : Hosted) : Snapshot := h.database.current

/-- The snapshots that exist for sure while a query runs. -/
def live (h : Hosted) : Live := ⟨[h.snapshot]⟩

/-- The compiled expression of a query. -/
def compile (h : Hosted) (q : Query) : Except Fault (Expr × List Diagnostic) := do
  .ok ((← q.bind h.snapshot).compile h.live)

/-- The events of compiling a query. -/
def compileEvents (h : Hosted) (q : Query) : List Event :=
  match h.compile q with
  | .error _ => []
  | .ok compiled => Event.ofCompile compiled

/-- The nodes of a query. -/
def query (h : Hosted) (signals : Signals) (q : Query) (mode : Mode) :
    Outcome (Except Fault (List Node)) :=
  match h.compile q with
  | .error fault => { result := .error fault, signals := signals, events := [] }
  | .ok compiled =>
    let outcome := compiled.1.evaluate h.live signals h.signal mode
    { outcome with events := Event.ofCompile compiled ++ outcome.events }

/-- The nodes of each query, or why it failed. -/
def queryAll (h : Hosted) (signals : Signals) (qs : List Query) :
    Outcome (List (Except Fault (List Node))) :=
  let outcome := Expr.values h.live h.signal signals
    (qs.map fun q => (h.compile q).map Prod.fst)
  { outcome with events := qs.flatMap h.compileEvents ++ outcome.events }

/-- The compiled expressions of queries under their keys, or the first query that cannot be
bound. -/
def compileKeyed {κ : Type} (h : Hosted) : List (κ × Query) → Except Fault (List (κ × Expr))
  | [] => .ok []
  | (key, q) :: rest => do
    let compiled ← h.compile q
    .ok ((key, compiled.1) :: (← compileKeyed h rest))

/-- The events of compiling queries, up to the first one that cannot be bound. -/
def compileKeyedEvents {κ : Type} (h : Hosted) (qs : List (κ × Query)) : List Event :=
  (qs.takeWhile fun (_, q) => (h.compile q).toBool).flatMap fun (_, q) => h.compileEvents q

/-- The nodes of all queries under their keys, or the first fault: one of binding a query, or else
one of evaluating it. -/
def queryKeyed {κ : Type} (h : Hosted) (signals : Signals) (qs : List (κ × Query)) :
    Outcome (Except Fault (List (κ × List Node))) :=
  let before := h.compileKeyedEvents qs
  match h.compileKeyed qs with
  | .error fault => { result := .error fault, signals := signals, events := before }
  | .ok compiled =>
    let outcome := Expr.keyedValues h.live h.signal signals compiled
    { outcome with events := before ++ outcome.events }

end Hosted

end XmlStore
