import XmlStore.Database.Basic

/-!
# Additions

A document is added under a path.  The last segment of the path is its file name; if the path ends
with a slash or is empty, the name comes from the document node of the fragment.

An addition is a sequence of steps, each of which sees the database at its own time: `resolve` the
name, take the lock, make the `successor` of the current snapshot, `swap` it in, give the lock back.
`Database.add` is the sequence without anyone in between.  A fragment of a single row has nothing to
add: it is skipped without a look at the lock.
-/

namespace XmlStore

/-- Where a document goes. -/
structure Target where
  /-- The path up to the file name. -/
  directory : Bytes
  /-- The file name. -/
  name : Bytes
  deriving DecidableEq, Repr

/-- The path under which a document is stored. -/
def Target.path (t : Target) : Bytes := t.directory ++ t.name

namespace Database

/-- The file name in the document node of a fragment, with gaps in its text filled. -/
def documentName (fragment : Table) : Bytes :=
  match fragment.rows[0]? with
  | none => []
  | some root => Utf8.encode (Utf8.lossy (Path.splitLast root.value).2)

/-- Where a fragment goes that is added under a path. -/
def resolve (path : Bytes) (fragment : Table) : Except Database.Refusal Target :=
  match Path.normalize path with
  | .error path => .error (.nameInvalid path)
  | .ok path =>
    let (directory, file) := Path.splitLast path
    let name := if file.isEmpty then documentName fragment else file
    if name.isEmpty then .error (.nameInvalid path) else .ok { directory, name }

/-- Whether a fragment holds more than its document node. -/
def hasContent (fragment : Table) : Bool := decide (1 < fragment.size)

/-- The table with the fragment after its last row, stored under a path. -/
def extended (t : Table) (path : Bytes) (fragment : Table) : Table :=
  (t.append fragment).setValue t.size path

/-- The snapshot that follows the current one when a fragment is added. -/
def successor (d : Database) (id : Nat) (path : Bytes) (fragment : Table) : Snapshot × Event :=
  snapshotOf id d.name (extended d.current.table path fragment) d.options

/-- Makes a snapshot the current one. -/
def swap (d : Database) (snapshot : Snapshot) : Database := { d with current := snapshot }

end Database

/-- What an addition has come to. -/
structure Addition where
  database : Database
  /-- The file name of the document. -/
  result : Except Database.Refusal Bytes
  events : List Event
  /-- The number for the next snapshot. -/
  nextId : Nat

namespace Database

/-- Adds a fragment under a path; a new snapshot gets the number `id`. -/
def add (d : Database) (id : Nat) (path : Bytes) (fragment : Table) : Addition :=
  match resolve path fragment with
  | .error e => { database := d, result := .error e, events := [], nextId := id }
  | .ok target =>
    if hasContent fragment then
      match d.tryLock with
      | none => { database := d, result := .error (.busy d.name), events := [], nextId := id }
      | some d =>
        let (snapshot, built) := d.successor id target.path fragment
        { database := (d.swap snapshot).unlock
          result := .ok target.name
          events := [built, .added d.name target.name]
          nextId := id + 1 }
    else
      { database := d
        result := .ok target.name
        events := [.skipped target.path, .added d.name target.name]
        nextId := id }

/-- Builds a document that is named by its path, and adds it. -/
def addFragment (d : Database) (id : Nat) (path : Bytes) (fragment : Fragment) : Addition :=
  match Fragment.document path d.options [fragment] with
  | .error e => { database := d, result := .error (.build e), events := [], nextId := id }
  | .ok table => d.add id path table

end Database

end XmlStore
