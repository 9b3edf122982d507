import XmlStore.Host.Decode
import XmlStore.Host.Hosted

/-!
# Calls of the host

* `Function` lists what a host can call, under which name and with how many arguments.
* `Request.ofTerms` reads the arguments of a call; it refuses what is not of the documented form.
* `Host.perform` carries a request out and gives the term that answers it; `Host.call` does both.
* `Term.ofFault` and its neighbours are the terms for failures, and `Term.ofRow` the one for a
  node.
-/

namespace XmlStore

/-- What a host can call. -/
inductive Function where
  | add
  | cancel
  | explain
  | info
  | new
  | node
  | query
  | queryKeyed
  | queryParallel
  | optionNames
  deriving DecidableEq, Repr

namespace Function

/-- The name under which a function is called. -/
def name : Function → String
  | add => "db_add"
  | cancel => "db_cancel"
  | explain => "db_explain"
  | info => "db_info"
  | new => "db_new"
  | node => "db_node"
  | query => "db_query"
  | queryKeyed => "db_query_keyed"
  | queryParallel => "db_query_parallel"
  | optionNames => "option_names"

/-- How many arguments a function takes. -/
def arity : Function → Nat
  | optionNames => 0
  | info | cancel => 1
  | new | node | queryKeyed | queryParallel | explain => 2
  | add | query => 3

/-- Whether a call may take long. -/
def isLong : Function → Bool
  | add | query | queryKeyed | queryParallel => true
  | _ => false

/-- All functions, sorted by name. -/
def all : List Function :=
  [add, cancel, explain, info, new, node, query, queryKeyed, queryParallel, optionNames]

/-- The function with the given name. -/
def ofName? (text : String) : Option Function := all.find? (·.name == text)

end Function

/-- What can be asked of a hosted database. -/
inductive Task where
  | add (path : String) (fragment : Fragment)
  | cancel
  | explain (query : Query)
  | info
  | node (pre : Nat)
  | query (query : Query) (mode : Mode)
  | queryKeyed (queries : List (String × Query))
  | queryParallel (queries : List Query)

/-- The databases that a host keeps. -/
structure Host where
  databases : Array Hosted := #[]
  signals : Signals := {}
  /-- The number for the next snapshot. -/
  nextSnapshot : Nat := 0

namespace Host

/-- The database that a term refers to, with its number. -/
def toDatabase (host : Host) : Term → Except Host.Refusal (Nat × Hosted)
  | .database number =>
    match host.databases[number]? with
    | some h => .ok (number, h)
    | none => .error .badArgument
  | _ => .error .badArgument

end Host

/-- A call with its arguments. -/
inductive Request where
  | new (name : String) (options : List (String × String))
  | optionNames
  /-- A task for the database with the given number. -/
  | ask (number : Nat) (h : Hosted) (task : Task)

namespace Request

/-- The evaluation mode named by an atom. -/
def toMode : Term → Except Host.Refusal Mode
  | .atom "lazy" => .ok .lazy
  | .atom "eager" => .ok .eager
  | _ => .error .badArgument

/-- Reads the arguments that follow the database. -/
def taskOfTerms : Function → List Term → Except Host.Refusal Task
  | .add, [path, fragment] => do .ok (.add (← path.toText) (← fragment.toFragment))
  | .cancel, [] => .ok .cancel
  | .explain, [query] => do .ok (.explain (← query.toQuery))
  | .info, [] => .ok .info
  | .node, [pre] => do .ok (.node (← pre.toPre))
  | .query, [query, mode] => do .ok (.query (← query.toQuery) (← toMode mode))
  | .queryKeyed, [queries] => do
    .ok (.queryKeyed (← queries.toList (Term.toPair Term.toText Term.toQuery)))
  | .queryParallel, [queries] => do .ok (.queryParallel (← queries.toQueries))
  | _, _ => .error .badArgument

/-- Reads the arguments of a call. -/
def ofTerms (host : Host) : Function → List Term → Except Host.Refusal Request
  | .new, [name, options] => do
    .ok (.new (← name.toText) (← options.toList (Term.toPair Term.toText Term.toText)))
  | .optionNames, [] => .ok .optionNames
  | f, database :: args => do
    let (number, h) ← host.toDatabase database
    .ok (.ask number h (← taskOfTerms f args))
  | _, _ => .error .badArgument

end Request

namespace Term

/-- The failure of a refused option. -/
def ofOptionRefusal (e : Options.Refusal) : Term :=
  failure (match e with
    | .unknown _ => "unknown_option"
    | .invalidValue .. => "invalid_value") e.message

/-- The failure of a refused change. -/
def ofDatabaseRefusal (e : Database.Refusal) : Term :=
  failure (match e with
    | .nameInvalid _ => "name_invalid"
    | .busy _ => "busy"
    | .build _ => "build") e.message

/-- The failure of a query. -/
def ofFault (fault : Fault) : Term :=
  failure (match fault.kind with
    | .invalidToken => "invalid_token"
    | .storeUnavailable => "store_unavailable"
    | .interrupted => "interrupted"
    | .indexInconsistent => "index_inconsistent"
    | .invalidNode => "invalid_node") fault.message

/-- The row at a position: kind, position, name and value, where an element has no value; the absent
value past the end. -/
def ofRow (table : Table) (pre : Nat) : Term :=
  match table.view? pre with
  | none => nil
  | some view =>
    let name := match view.name with
      | none => nil
      | some name => binary name
    let value := if view.kind = .element then nil else binary view.value
    tuple [atom view.kind.name, ofNat pre, name, value]

/-- The rows of nodes. -/
def ofNodes (table : Table) (nodes : List Node) : Term :=
  list (nodes.map fun node => ofRow table node.pre)

end Term

namespace Host

/-- The answer to a query about a table. -/
def answer (table : Table) : Except Fault (List Node) → Term
  | .error fault => .ofFault fault
  | .ok nodes => .ok (.ofNodes table nodes)

/-- Replaces a database. -/
def put (host : Host) (number : Nat) (h : Hosted) : Host :=
  { host with databases := host.databases.setIfInBounds number h }

/-- Creates a database. -/
def new (host : Host) (name : String) (options : List (String × String)) : Term × Host :=
  match Options.ofPairs options with
  | .error e => (.ofOptionRefusal e, host)
  | .ok options =>
    match Database.create host.nextSnapshot name options with
    | .error e => (.ofDatabaseRefusal e, host)
    | .ok (database, _) =>
      let (h, signals) := Hosted.start host.signals database
      (.ok (.database host.databases.size),
        { databases := host.databases.push h
          signals := signals
          nextSnapshot := host.nextSnapshot + 1 })

/-- Adds a document. -/
def add (host : Host) (elapsed : String) (number : Nat) (h : Hosted) (path : String)
    (fragment : Fragment) : Term × Host :=
  let addition := h.database.addFragment host.nextSnapshot (Utf8.encode path) fragment
  match addition.result with
  | .error e => (.ofDatabaseRefusal e, host)
  | .ok document =>
    (.ok (.ofText (addedMessage document elapsed)),
      { host.put number { h with database := addition.database } with
        nextSnapshot := addition.nextId })

/-- The summary of a database: name, number of nodes and of documents, options. -/
def summary (d : Database) : Term :=
  .tuple [.ofText d.name, .ofNat d.current.size, .ofNat d.current.table.documents.length,
    .list (d.options.toPairs.map fun pair => .tuple [.ofText pair.1, .ofText pair.2])]

/-- The compiled form of a query: its text, its plan and the reports of the compiler. -/
def explanation (h : Hosted) (q : Query) : Term :=
  match h.compile q with
  | .error fault => .ofFault fault
  | .ok (e, reports) =>
    .ok (.tuple [.ofText e.text, .ofText e.plan,
      .list (reports.map fun report => .ofText report.message)])

/-- Carries out a task for the database with the given number. -/
def ask (host : Host) (elapsed : String) (number : Nat) (h : Hosted) : Task → Term × Host
  | .add path fragment => host.add elapsed number h path fragment
  | .cancel =>
    let (h, signals) := h.cancel host.signals
    (.atom "ok", { host.put number h with signals := signals })
  | .explain q => (explanation h q, host)
  | .info => (summary h.database, host)
  | .node pre => (.ofRow h.snapshot.table pre, host)
  | .query q mode =>
    let outcome := h.query host.signals q mode
    (answer h.snapshot.table outcome.result, { host with signals := outcome.signals })
  | .queryKeyed qs =>
    let outcome := h.queryKeyed host.signals qs
    let term := match outcome.result with
      | .error fault => .ofFault fault
      | .ok found => .ok (.list (found.map fun (key, nodes) =>
          .tuple [.ofText key, .ofNodes h.snapshot.table nodes]))
    (term, { host with signals := outcome.signals })
  | .queryParallel qs =>
    let outcome := h.queryAll host.signals qs
    (.list (outcome.result.map (answer h.snapshot.table)),
      { host with signals := outcome.signals })

/-- Carries out a request. -/
def perform (host : Host) (elapsed : String) : Request → Term × Host
  | .new name options => host.new name options
  | .optionNames => (.list (Property.all.map fun p => .ofText p.name), host)
  | .ask number h task => host.ask elapsed number h task

/-- Answers a call; a refused call changes nothing. -/
def call (host : Host) (elapsed : String) (f : Function) (args : List Term) :
    Except Host.Refusal Term × Host :=
  match Request.ofTerms host f args with
  | .error refusal => (.error refusal, host)
  | .ok request =>
    let (term, host) := host.perform elapsed request
    (.ok term, host)

end Host

end XmlStore
