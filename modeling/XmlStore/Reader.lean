import XmlStore.Evaluation

/-!
# Readers

A script lists the whole course of an evaluation in advance.  A reader finds it out while nodes are
asked for, and stops wherever the next one is found: it keeps a position in listed nodes, a cursor
over an index or a table, or a merge with one head for every operand.

* `Reader.advance` looks for the next node, `Reader.next` polls the signal before it hands it out,
  and `Reader.collect` asks until nothing more comes.
* `Reader.union`, `Reader.intersect` and `Reader.except` are the merges.  Before the first node of a
  merge `Reader.start` reads the operands that are not known to ascend to their ends and puts their
  nodes in order; all others are read one node ahead.
* `Expr.reader` opens an expression.  An `Iteration` hands out its nodes one by one: after a fault
  or the last node nothing more comes.

The calls of a reading nest as deep as its `fuel` goes; a reading that runs out of fuel gives
nothing at all.  That every reading ends is proved of it.
-/

namespace XmlStore

/-- Part of a reading, which may raise signals; `none` if it has run out of fuel. -/
abbrev Reading := StateT Signals Option

/-- Fails if the signal is raised. -/
def Reading.poll (signal : SignalId) : Reading (Except Fault Unit) := do
  return if (← get).isRaised signal then .error .interrupted else .ok ()

/-- How far a merge has come. -/
inductive Stage where
  /-- The operands are not yet read. -/
  | filling
  /-- Every head holds its node. -/
  | emitting
  | exhausted
  deriving DecidableEq, Repr

/-- An operand in a merge: what it is read from, the node at its front, and whether its nodes are
known to ascend. -/
structure Head (ρ : Type) where
  source : ρ
  front : Option Node
  sorted : Bool

/-- Something that nodes are read from. -/
inductive Reader where
  | empty
  /-- The nodes of a list that are still to come. -/
  | listed (nodes : List Node)
  /-- A cursor over the index of a snapshot or its table. -/
  | lookup (snapshot : Snapshot) (lookup : Lookup) (cursor : Cursor)
  | merge (op : SetOp) (stage : Stage) (heads : List (Head Reader))

namespace Reader

/-- The node at a position that a cursor gives.  What an index gives is checked. -/
def node (s : Snapshot) (l : Lookup) (pre : Nat) : Except Fault Node :=
  if s.index.answers l then
    match Source.entryFault? s l pre with
    | some fault => .error fault
    | none => .ok ⟨s.id, pre⟩
  else .ok ⟨s.id, pre⟩

variable (signal : SignalId)

mutual

/-- Looks for the next node. -/
def advance : Nat → Reader → Reading (Except Fault (Option Node × Reader))
  | 0, _ => failure
  | _ + 1, empty => return .ok (none, empty)
  | _ + 1, listed nodes => return .ok (nodes.head?, listed nodes.tail)
  | _ + 1, lookup s l cursor => do
    let (pre, cursor, signals) := cursor.pull (← get)
    set signals
    match pre with
    | none =>
      -- a scan that was cut short must not look complete
      match ← Reading.poll signal with
      | .error fault => return .error fault
      | .ok _ => return .ok (none, lookup s l cursor)
    | some pre => return (node s l pre).map fun node => (some node, lookup s l cursor)
  | fuel + 1, merge op .filling heads => do
    match ← start fuel op 0 heads with
    | .error fault => return .error fault
    | .ok heads => advance fuel (merge op .emitting heads)
  | fuel + 1, merge op .emitting heads => do
    match ← merging fuel op heads with
    | .error fault => return .error fault
    | .ok (none, heads) => return .ok (none, merge op .exhausted heads)
    | .ok (some node, heads) => return .ok (some node, merge op .emitting heads)
  | _ + 1, merge op .exhausted heads => return .ok (none, merge op .exhausted heads)

/-- The next node, `none` at the end. -/
def next : Nat → Reader → Reading (Except Fault (Option Node × Reader))
  | 0, _ => failure
  | fuel + 1, r => do
    match ← advance fuel r with
    | .ok (some node, r) =>
      match ← Reading.poll signal with
      | .error fault => return .error fault
      | .ok _ => return .ok (some node, r)
    | found => return found

/-- All nodes that are still to come, after the nodes `done` (the latest first). -/
def collect : Nat → Reader → List Node → Reading (Except Fault (List Node))
  | 0, _, _ => failure
  | fuel + 1, r, done => do
    match ← next fuel r with
    | .error fault => return .error fault
    | .ok (none, _) => return .ok done.reverse
    | .ok (some node, r) => collect fuel r (node :: done)

/-- Moves a head on to its next node. -/
def pull : Nat → SetOp → Nat → Head Reader → Reading (Except Fault (Head Reader))
  | 0, _, _, _ => failure
  | fuel + 1, op, position, h => do
    match ← next fuel h.source with
    | .error fault => return .error (fault.inOperand op position)
    | .ok (front, source) => return .ok { h with source, front }

/-- Moves a head on if it is picked. -/
def pullIf : Nat → SetOp → (Head Reader → Bool) → Nat → Head Reader →
    Reading (Except Fault (Head Reader))
  | 0, _, _, _, _ => failure
  | fuel + 1, op, which, position, h =>
    if which h then pull fuel op position h else return .ok h

/-- Moves on the heads that `which` picks, in order. -/
def pullWhere : Nat → SetOp → (Head Reader → Bool) → Nat → List (Head Reader) →
    Reading (Except Fault (List (Head Reader)))
  | 0, _, _, _, _ => failure
  | _ + 1, _, _, _, [] => return .ok []
  | fuel + 1, op, which, position, h :: rest => do
    match ← pullIf fuel op which position h with
    | .error fault => return .error fault
    | .ok h =>
      match ← pullWhere fuel op which (position + 1) rest with
      | .error fault => return .error fault
      | .ok rest => return .ok (h :: rest)

/-- Reads an operand that is not known to ascend to its end and puts its nodes in order. -/
def arrange : Nat → SetOp → Nat → Head Reader → Reading (Except Fault (Head Reader))
  | 0, _, _, _ => failure
  | fuel + 1, op, position, h =>
    if h.sorted then return .ok h
    else do
      match ← collect fuel h.source [] with
      | .error fault => return .error (fault.inOperand op position)
      | .ok nodes => return .ok { h with source := listed (sortDistinct nodes), sorted := true }

/-- Brings every head to its first node. -/
def start : Nat → SetOp → Nat → List (Head Reader) → Reading (Except Fault (List (Head Reader)))
  | 0, _, _, _ => failure
  | _ + 1, _, _, [] => return .ok []
  | fuel + 1, op, position, h :: rest => do
    match ← arrange fuel op position h with
    | .error fault => return .error fault
    | .ok h =>
      match ← pull fuel op position h with
      | .error fault => return .error fault
      | .ok h =>
        match ← start fuel op (position + 1) rest with
        | .error fault => return .error fault
        | .ok rest => return .ok (h :: rest)

/-- The next node of a merge. -/
def merging : Nat → SetOp → List (Head Reader) →
    Reading (Except Fault (Option Node × List (Head Reader)))
  | 0, _, _ => failure
  | fuel + 1, .union, heads => union fuel heads
  | fuel + 1, .intersect, heads => intersect fuel heads
  | fuel + 1, .except, heads => except fuel heads

/-- The earliest front; every head that holds it moves on. -/
def union : Nat → List (Head Reader) → Reading (Except Fault (Option Node × List (Head Reader)))
  | 0, _ => failure
  | fuel + 1, heads =>
    match Node.earliest? (heads.filterMap Head.front) with
    | none => return .ok (none, heads)
    | some node => do
      match ← pullWhere fuel .union (·.front == some node) 0 heads with
      | .error fault => return .error fault
      | .ok heads => return .ok (some node, heads)

/-- The node at the front of every head; while the fronts differ, all but the latest one move
on. -/
def intersect : Nat → List (Head Reader) →
    Reading (Except Fault (Option Node × List (Head Reader)))
  | 0, _ => failure
  | fuel + 1, heads =>
    match (heads.mapM Head.front).bind Node.latest? with
    | none => return .ok (none, heads)
    | some node =>
      if heads.all (·.front == some node) then do
        match ← pullWhere fuel .intersect (fun _ => true) 0 heads with
        | .error fault => return .error fault
        | .ok heads => return .ok (some node, heads)
      else do
        match ← pullWhere fuel .intersect (·.front != some node) 0 heads with
        | .error fault => return .error fault
        | .ok heads => intersect fuel heads

/-- Moves a head on while its front is before `node`. -/
def skip : Nat → Node → Nat → Head Reader → Reading (Except Fault (Head Reader))
  | 0, _, _, _ => failure
  | fuel + 1, node, position, h =>
    if h.front.any (· < node) then do
      match ← pull fuel .except position h with
      | .error fault => return .error fault
      | .ok h => skip fuel node position h
    else return .ok h

/-- Moves all heads on while their fronts are before `node`. -/
def skipAll : Nat → Node → Nat → List (Head Reader) →
    Reading (Except Fault (List (Head Reader)))
  | 0, _, _, _ => failure
  | _ + 1, _, _, [] => return .ok []
  | fuel + 1, node, position, h :: rest => do
    match ← skip fuel node position h with
    | .error fault => return .error fault
    | .ok h =>
      match ← skipAll fuel node (position + 1) rest with
      | .error fault => return .error fault
      | .ok rest => return .ok (h :: rest)

/-- The front of the first head, unless a later head holds it too. -/
def except : Nat → List (Head Reader) → Reading (Except Fault (Option Node × List (Head Reader)))
  | 0, _ => failure
  | _ + 1, [] => return .ok (none, [])
  | fuel + 1, first :: rest =>
    match first.front with
    | none => return .ok (none, first :: rest)
    | some node => do
      match ← skipAll fuel node 1 rest with
      | .error fault => return .error fault
      | .ok others =>
        match ← pull fuel .except 0 first with
        | .error fault => return .error fault
        | .ok next =>
          if others.any (·.front == some node) then except fuel (next :: others)
          else return .ok (some node, next :: others)

end

/-- The reader of a lookup: a cursor over the index if it answers the lookup, and otherwise a scan,
which polls the signal. -/
def ofLookup (s : Snapshot) (l : Lookup) : Reader :=
  if s.index.answers l then lookup s l { steps := Entry.steps (s.index.answer l) }
  else lookup s l { steps := s.scanSteps l, watch := some signal }

end Reader

namespace Expr

variable (live : Live) (signals : Signals) (signal : SignalId)

mutual

/-- Opens an expression and all its operands, each of which looks at the signal. -/
def reader (e : Expr) : Except Fault Reader :=
  if signals.isRaised signal then .error .interrupted
  else match e with
    | empty => .ok .empty
    | nodes binding pres => do
      let s ← live.resolve binding
      .ok (.listed (pres.map fun pre => ⟨s.id, pre⟩))
    | access binding lookup _ => do
      .ok (.ofLookup signal (← openLookup live binding lookup) lookup)
    | set op operands _ => do .ok (.merge op .filling (← heads op 0 operands))

/-- Opens the operands of an operator, the first one at the given position. -/
def heads (op : SetOp) (position : Nat) : List Expr → Except Fault (List (Head Reader))
  | [] => .ok []
  | e :: rest => do
    let source ← e.reader.mapError (.inOperand op position)
    let others ← heads op (position + 1) rest
    .ok ({ source := source, front := none, sorted := e.iterable } :: others)

end

/-- All nodes of an expression, read at once. -/
def collect (fuel : Nat) (e : Expr) : Reading (Except Fault (List Node)) := do
  match e.reader live (← get) signal with
  | .error fault => return .error fault
  | .ok r => Reader.collect signal fuel r []

end Expr

/-- A reading of nodes one by one. -/
structure Iteration where
  signal : SignalId
  reader : Reader
  /-- Nothing more comes. -/
  done : Bool := false

namespace Iteration

/-- The next node, `none` at the end and ever after it or a fault. -/
def next (fuel : Nat) (i : Iteration) : Reading (Except Fault (Option Node) × Iteration) :=
  if i.done then return (.ok none, i)
  else do
    match ← Reader.next i.signal fuel i.reader with
    | .error fault => return (.error fault, { i with done := true })
    | .ok (none, reader) => return (.ok none, { i with reader, done := true })
    | .ok (some node, reader) => return (.ok (some node), { i with reader })

/-- All nodes that are still to come. -/
def drain (fuel : Nat) (i : Iteration) : Reading (Except Fault (List Node)) :=
  if i.done then return .ok [] else Reader.collect i.signal fuel i.reader []

end Iteration

/-- Opens an expression to read its nodes one by one. -/
def Expr.iterate (live : Live) (signals : Signals) (signal : SignalId) (e : Expr) :
    Except Fault Iteration :=
  (e.reader live signals signal).map fun reader => { signal, reader }

end XmlStore
