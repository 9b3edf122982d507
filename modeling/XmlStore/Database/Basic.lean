import XmlStore.Event
import XmlStore.Table.Fragment
import XmlStore.Database.Path

/-!
# Databases

A database has a current snapshot, which additions replace, and a lock that admits one writer at a
time.

* `Database.create` makes a database without documents.
* `Database.tryLock` takes the lock if it is free, `Database.unlock` gives it back.
-/

namespace XmlStore

/-- Why a database could not be created or changed. -/
inductive Database.Refusal where
  /-- A name or path that cannot be used. -/
  | nameInvalid (name : Bytes)
  /-- Another writer has the lock of the database. -/
  | busy (database : String)
  /-- The fragment could not be built. -/
  | build (cause : Draft.Refusal)
  deriving DecidableEq, Repr

/-- The wording of a refused change. -/
def Database.Refusal.message : Database.Refusal → String
  | nameInvalid name => s!"invalid name: \"{Utf8.lossy name}\""
  | busy database => s!"database \"{database}\" is being updated by another writer"
  | build cause => cause.message

/-- A named database. -/
structure Database where
  name : String
  options : Options
  current : Snapshot
  /-- Whether a writer has the lock. -/
  locked : Bool

namespace Database

/-- Whether a database can have this name: it is not empty and has no slashes of either kind. -/
def isName (name : String) : Bool :=
  !name.toList.isEmpty && name.toList.all fun c => c != '/' && c != '\\'

/-- A snapshot for a database, and the event of building its index. -/
def snapshotOf (id : Nat) (name : String) (table : Table) (options : Options) :
    Snapshot × Event :=
  (.ofTable id name table options, .ofIndex (.ofTable table options))

/-- A database without documents, whose snapshot gets the given number. -/
def create (id : Nat) (name : String) (options : Options) :
    Except Refusal (Database × List Event) :=
  if isName name then
    let (snapshot, built) := snapshotOf id name .empty options
    .ok ({ name := name, options := options, current := snapshot, locked := false },
      [built, .created name])
  else .error (.nameInvalid (Utf8.encode name))

/-- Takes the lock, if it is free. -/
def tryLock (d : Database) : Option Database :=
  if d.locked then none else some { d with locked := true }

/-- Gives the lock back. -/
def unlock (d : Database) : Database := { d with locked := false }

end Database

end XmlStore
