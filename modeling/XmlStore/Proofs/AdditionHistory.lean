import Mathlib
import XmlStore.Proofs.TableViews
import XmlStore.Proofs.TextRoundTrip

/-!
# What a database has come to hold

A database is in use while documents are added to it and others take its lock and give it back.

* `Document` — a document that was built call by call; `Document.target?` says where it goes.
* `Database.add_cases` — what one addition can come to.
* `Database.State.run` — a run of additions and of taking and giving back the lock.
* `Database.run_content` — after every run, the rows of a database are those of the documents that
  were stored, one after the other, and the next addition is orderly: it stores the document, or
  changes nothing.
-/

namespace XmlStore

/-! ## Documents -/

/-- A document that was built call by call, whatever calls were refused. -/
structure Document where
  /-- The name in the document node. -/
  name : String
  options : Options
  calls : List Draft.Call
  table : Table
  finished : ((Draft.start (Utf8.encode name) options).attempts calls).finish = .ok table

namespace Draft

variable {p : Nat} {value : Bytes}

theorem value_push {rows : Array Row} (row : Row) (h : rows[p]?.map Row.value = some value) :
    (rows.push row)[p]?.map Row.value = some value := by
  obtain ⟨old, hold, _⟩ := Option.map_eq_some_iff.1 h
  rw [Array.getElem?_push_lt (Array.getElem?_eq_some_iff.1 hold).1, ← Array.getElem?_eq_getElem, h]

theorem value_modify {rows : Array Row} (q : Nat) {f : Row → Row}
    (hf : ∀ row, (f row).value = row.value) (h : rows[p]?.map Row.value = some value) :
    (rows.modify q f)[p]?.map Row.value = some value := by
  rw [Array.getElem?_modify]
  split
  · rw [Option.map_map]
    exact (Option.map_congr fun row _ => hf row).trans h
  · exact h

/-- A call leaves the values of the rows as they are. -/
theorem value_perform {d : Draft} (c : Call) (h : d.table.rows[p]?.map Row.value = some value) :
    (d.perform c).table.rows[p]?.map Row.value = some value := by
  match c with
  | .openElement name => exact value_push _ h
  | .attribute name text =>
    rw [Draft.perform, addAttribute]
    exact value_modify _ (fun _ => rfl) (value_push _ h)
  | .text text =>
    rw [Draft.perform, addText]
    split
    · exact h
    · exact value_push _ h
  | .comment text => exact value_push _ h
  | .instruction target data => exact value_push _ h
  | .closeElement =>
    rw [Draft.perform, closeElement]
    split
    · exact h
    · exact value_modify _ (fun _ => rfl) h

theorem value_attempt {d : Draft} (c : Call) (h : d.table.rows[p]?.map Row.value = some value) :
    (d.attempt c).1.table.rows[p]?.map Row.value = some value := by
  unfold attempt
  split
  · exact h
  · exact value_perform c h

theorem value_attempts {d : Draft} (calls : List Call)
    (h : d.table.rows[p]?.map Row.value = some value) :
    (d.attempts calls).table.rows[p]?.map Row.value = some value := by
  induction calls generalizing d with
  | nil => exact h
  | cons c rest ih => exact ih (value_attempt c h)

end Draft

namespace Document

theorem made (f : Document) : f.table.Made := .finished f.finished

/-- The document node has the name of the document. -/
theorem value_root (f : Document) : f.table.rows[0]?.map Row.value = some (Utf8.encode f.name) := by
  have hdraft := Draft.value_attempts (d := Draft.start (Utf8.encode f.name) f.options) f.calls
    (p := 0) rfl
  have hfinish := f.finished
  unfold Draft.finish at hfinish
  split at hfinish
  · rw [← Except.ok.inj hfinish]
    exact Draft.value_modify 0 (fun _ => rfl) hdraft
  · cases hfinish

/-- The last segment of the name of a document. -/
def fileName (f : Document) : Bytes := (Path.splitLast (Utf8.encode f.name)).2

theorem documentName_eq (f : Document) : Database.documentName f.table = f.fileName := by
  obtain ⟨root, hroot, hvalue⟩ := Option.map_eq_some_iff.1 f.value_root
  obtain ⟨file, hfile⟩ := Path.exists_encode_splitLast f.name
  rw [Database.documentName, hroot, fileName]
  simp only [hvalue]
  rw [hfile, Utf8.lossy_encode]

/-- Where a document goes that is added under a path: into the directory of the path, with the file
name of the path or, if that is missing, its own one. -/
def target? (f : Document) (path : Bytes) : Option Target :=
  match Path.normalize path with
  | .error _ => none
  | .ok normal =>
    let (directory, file) := Path.splitLast normal
    let name := if file = [] then f.fileName else file
    if name = [] then none else some { directory, name }

/-- The path under which a document is stored. -/
def storedPath (f : Document) (path : Bytes) : Bytes := ((f.target? path).map Target.path).getD []

/-- A name is resolved to where the document goes, or refused if there is no such place. -/
theorem resolve_cases (f : Document) (path : Bytes) :
    (∃ target, f.target? path = some target ∧ Database.resolve path f.table = .ok target) ∨
      f.target? path = none ∧
        ∃ name, Database.resolve path f.table = .error (.nameInvalid name) := by
  unfold target? Database.resolve
  rw [f.documentName_eq]
  cases Path.normalize path with
  | error refused => exact Or.inr ⟨rfl, refused, rfl⟩
  | ok normal =>
    simp only [List.isEmpty_iff]
    by_cases hname : (if (Path.splitLast normal).2 = [] then f.fileName
        else (Path.splitLast normal).2) = []
    · rw [if_pos hname, if_pos hname]
      exact Or.inr ⟨rfl, normal, rfl⟩
    · rw [if_neg hname, if_neg hname]
      exact Or.inl ⟨_, rfl, rfl⟩

end Document

/-! ## One addition -/

namespace Database

/-- **What an addition can come to.**  Who holds the lock matters only for a document that has a
place to go and something to add. -/
theorem add_cases (d : Database) (id : Nat) (path : Bytes) (f : Document) :
    (∃ name, d.add id path f.table =
        { database := d, result := .error (.nameInvalid name), events := [], nextId := id } ∧
      f.target? path = none) ∨
    ∃ target, f.target? path = some target ∧
      ((f.table.size ≤ 1 ∧ ∃ events, d.add id path f.table =
          { database := d, result := .ok target.name, events := events, nextId := id }) ∨
        1 < f.table.size ∧ d.locked = true ∧ d.add id path f.table =
          { database := d, result := .error (.busy d.name), events := [], nextId := id } ∨
        1 < f.table.size ∧ d.locked = false ∧ ∃ snapshot events, d.add id path f.table =
            { database := { d with current := snapshot }, result := .ok target.name,
              events := events, nextId := id + 1 } ∧
          snapshot.id = id ∧ snapshot.table = extended d.current.table target.path f.table) := by
  rcases f.resolve_cases path with ⟨target, htarget, hresolve⟩ | ⟨htarget, name, hresolve⟩
  · refine Or.inr ⟨target, htarget, ?_⟩
    unfold add
    rw [hresolve]
    by_cases hsize : 1 < f.table.size
    · have hcontent : hasContent f.table = true := decide_eq_true hsize
      simp only [hcontent, if_true]
      unfold tryLock
      cases hlocked : d.locked with
      | true => exact Or.inr (Or.inl ⟨hsize, rfl, rfl⟩)
      | false =>
        let successor := d.successor id target.path f.table
        exact Or.inr (Or.inr ⟨hsize, rfl, successor.1,
          [successor.2, .added d.name target.name], rfl, rfl, rfl⟩)
    · have hcontent : hasContent f.table = false := decide_eq_false hsize
      simp only [hcontent]
      exact Or.inl ⟨Nat.le_of_not_lt hsize, _, rfl⟩
  · refine Or.inl ⟨name, ?_, htarget⟩
    unfold add
    rw [hresolve]

end Database

/-! ## Runs -/

namespace Database

/-- Something that happens to a database. -/
inductive Action where
  /-- A document is added under a path. -/
  | add (path : Bytes) (document : Document)
  /-- Somebody takes the lock, if it is free. -/
  | lock
  /-- The lock is given back. -/
  | unlock

/-- A database in use, with the number for its next snapshot. -/
structure State where
  database : Database
  nextId : Nat

namespace State

/-- What adding a document comes to. -/
def addition (s : State) (path : Bytes) (f : Document) : Addition :=
  s.database.add s.nextId path f.table

/-- The state after something has happened. -/
def after (s : State) : Action → State
  | .add path f => ⟨(s.addition path f).database, (s.addition path f).nextId⟩
  | .lock => { s with database := s.database.tryLock.getD s.database }
  | .unlock => { s with database := s.database.unlock }

/-- The state after a run. -/
def run (s : State) (actions : List Action) : State := actions.foldl after s

/-- The document that is stored, with the path that it is added under: one that is not refused and
has more than one row. -/
def gained (s : State) : Action → List (Bytes × Document)
  | .add path f =>
    if (s.addition path f).result.isOk ∧ 1 < f.table.size then [(path, f)] else []
  | _ => []

/-- The documents that are stored in a run. -/
def stored (s : State) : List Action → List (Bytes × Document)
  | [] => []
  | a :: rest => s.gained a ++ (s.after a).stored rest

/-- What is seen of the rows in the current snapshot. -/
def views (s : State) : List RowView := s.database.current.table.views

end State

/-- The rows of documents one after the other, behind some rows. -/
def shelve (rows : List RowView) (documents : List (Bytes × Document)) : List RowView :=
  documents.foldl (fun rows (path, f) =>
    rows ++ f.table.shelved rows.length (f.storedPath path)) rows

/-- What the next addition does, whatever happened before. -/
structure Orderly (s : State) (path : Bytes) (f : Document) : Prop where
  /-- A refused addition changes nothing. -/
  refused : ∀ e, (s.addition path f).result = .error e → s.after (.add path f) = s
  /-- A document of a single row is skipped, which changes nothing. -/
  skipped : ∀ name, (s.addition path f).result = .ok name → f.table.size ≤ 1 →
    s.after (.add path f) = s
  /-- Any other document that is not refused replaces the snapshot by a new one, and the lock is
  free. -/
  stored : ∀ name, (s.addition path f).result = .ok name → 1 < f.table.size → ∃ snapshot,
    s.after (.add path f) =
        ⟨{ s.database with current := snapshot, locked := false }, s.nextId + 1⟩ ∧
      snapshot.id = s.nextId ∧ s.database.current.id < s.nextId
  /-- A path that leads to no place is refused, whoever has the lock. -/
  invalid : (∃ name, (s.addition path f).result = .error (.nameInvalid name)) ↔
    f.target? path = none
  /-- The lock is looked at for documents that have a place to go and something to add. -/
  busy : ∀ database, (s.addition path f).result = .error (.busy database) ↔
    database = s.database.name ∧ (f.target? path).isSome ∧ 1 < f.table.size ∧
      s.database.locked = true
  /-- Nothing else keeps a document from being added, and one that is skipped is never refused for
  the lock. -/
  ok : ∀ name, (s.addition path f).result = .ok name ↔
    (f.target? path).map Target.name = some name ∧
      (f.table.size ≤ 1 ∨ s.database.locked = false)

namespace State

/-- What is kept in a run. -/
structure Sound (s : State) : Prop where
  named : s.database.current.table.Named
  fresh : s.database.current.id < s.nextId

variable {s : State} (h : s.Sound)

include h

theorem Sound.orderly (path : Bytes) (f : Document) : Orderly s path f := by
  rcases s.database.add_cases s.nextId path f with
    ⟨name, hadd, htarget⟩ | ⟨target, htarget, ⟨hsize, events, hadd⟩ | ⟨hsize, hlocked, hadd⟩ |
      ⟨hsize, hfree, snapshot, events, hadd, hid, _⟩⟩ <;>
    change s.addition path f = _ at hadd
  · -- there is no place for the document
    have hafter : s.after (.add path f) = s := by rw [State.after, hadd]
    refine ⟨fun _ _ => hafter, fun _ _ _ => hafter, fun name hok => ?_, ?_, ?_, ?_⟩
    · rw [hadd] at hok
      cases hok
    · simp [hadd, htarget]
    · simp [hadd, htarget]
    · simp [hadd, htarget]
  · -- it is skipped
    have hafter : s.after (.add path f) = s := by rw [State.after, hadd]
    refine ⟨fun _ _ => hafter, fun _ _ _ => hafter, fun name _ hlarge => ?_, ?_, ?_, ?_⟩
    · exact absurd hlarge (Nat.not_lt.2 hsize)
    · simp [hadd, htarget]
    · simp [hadd, Nat.not_lt.2 hsize]
    · simp [hadd, htarget, hsize]
  · -- somebody else has the lock
    have hafter : s.after (.add path f) = s := by rw [State.after, hadd]
    refine ⟨fun _ _ => hafter, fun _ _ _ => hafter, fun name hok => ?_, ?_, ?_, ?_⟩
    · rw [hadd] at hok
      cases hok
    · simp [hadd, htarget]
    · simp [hadd, htarget, hsize, hlocked, eq_comm]
    · simp [hadd, htarget, hlocked, Nat.not_le.2 hsize]
  · -- it is stored
    have hafter : s.after (.add path f) =
        ⟨{ s.database with current := snapshot, locked := false }, s.nextId + 1⟩ := by
      rw [State.after, hadd, ← hfree]
    refine ⟨fun e herror => ?_, fun name _ hsmall => ?_, fun _ _ _ => ?_, ?_, ?_, ?_⟩
    · rw [hadd] at herror
      cases herror
    · exact absurd hsize (Nat.not_lt.2 hsmall)
    · exact ⟨snapshot, hafter, hid, h.fresh⟩
    · simp [hadd, htarget]
    · simp [hadd, hfree]
    · simp [hadd, htarget, hfree]

/-- **One thing that happens** adds the rows of the document that is stored, if there is one. -/
theorem Sound.step (a : Action) :
    (s.after a).Sound ∧ (s.after a).views = shelve s.views (s.gained a) := by
  match a with
  | .add path f =>
    rcases s.database.add_cases s.nextId path f with
      ⟨name, hadd, _⟩ | ⟨target, htarget, ⟨hsize, events, hadd⟩ | ⟨_, _, hadd⟩ |
        ⟨hsize, _, snapshot, events, hadd, hid, htable⟩⟩ <;>
      change s.addition path f = _ at hadd
    · rw [State.after, gained, hadd]
      exact ⟨h, rfl⟩
    · rw [State.after, gained, hadd, if_neg fun hlarge => Nat.not_lt.2 hsize hlarge.2]
      exact ⟨h, rfl⟩
    · rw [State.after, gained, hadd]
      exact ⟨h, rfl⟩
    · rw [State.after, gained, hadd, if_pos ⟨rfl, hsize⟩]
      refine ⟨⟨?_, ?_⟩, ?_⟩
      · show snapshot.table.Named
        rw [htable]
        exact h.named.extended target.path f.table
      · show snapshot.id < s.nextId + 1
        omega
      · have hpath : f.storedPath path = target.path := by rw [Document.storedPath, htarget]; rfl
        show snapshot.table.views = s.views ++ f.table.shelved s.views.length (f.storedPath path)
        rw [htable, Table.views_extended h.named f.made.named f.made.sound, hpath, views,
          Table.length_views]
  | .lock =>
    have hsame : (s.after .lock).database.current = s.database.current := by
      show (s.database.tryLock.getD s.database).current = _
      unfold tryLock
      split <;> rfl
    refine ⟨⟨?_, ?_⟩, ?_⟩
    · rw [hsame]
      exact h.named
    · rw [hsame]
      exact h.fresh
    · rw [views, hsame]
      rfl
  | .unlock => exact ⟨⟨h.named, h.fresh⟩, rfl⟩

/-- **A run** adds the rows of the documents that are stored in it. -/
theorem Sound.run (actions : List Action) :
    (s.run actions).Sound ∧ (s.run actions).views = shelve s.views (s.stored actions) := by
  induction actions generalizing s with
  | nil => exact ⟨h, rfl⟩
  | cons a rest ih =>
    obtain ⟨hsound, hviews⟩ := h.step a
    obtain ⟨hlater, hrest⟩ := ih hsound
    refine ⟨hlater, hrest.trans ?_⟩
    rw [hviews, stored, shelve, shelve, shelve, List.foldl_append]

end State

theorem sound_create {id : Nat} {name : String} {options : Options} {d : Database}
    {events : List Event} (h : create id name options = .ok (d, events)) :
    State.Sound ⟨d, id + 1⟩ ∧ State.views ⟨d, id + 1⟩ = [] := by
  unfold create at h
  split at h
  · obtain ⟨rfl, _⟩ := Prod.mk.inj (Except.ok.inj h)
    exact ⟨⟨Table.Named.empty, Nat.lt_succ_self id⟩, rfl⟩
  · cases h

/-- **The content of a database over whole runs.**  After any run on a new database its rows are
those of the documents that were stored, one after the other, and what is added next is stored or
changes nothing. -/
theorem run_content {id : Nat} {name : String} {options : Options} {d : Database}
    {events : List Event} (h : create id name options = .ok (d, events)) (actions : List Action) :
    (State.run ⟨d, id + 1⟩ actions).views = shelve [] (State.stored ⟨d, id + 1⟩ actions) ∧
      ∀ path f, Orderly (State.run ⟨d, id + 1⟩ actions) path f := by
  obtain ⟨hsound, hempty⟩ := sound_create h
  obtain ⟨hrun, hviews⟩ := hsound.run actions
  rw [hempty] at hviews
  exact ⟨hviews, fun path f => hrun.orderly path f⟩

/-- An addition is refused while somebody has the lock, and succeeds afterwards. -/
theorem run_content_unlocked :
    ∃ (d : Database) (events : List Event) (f : Document),
      create 0 "db" {} = .ok (d, events) ∧ f.name = "m/n" ∧
      (State.stored ⟨d, 1⟩ [.lock, .add [0x61] f, .unlock, .add [0x64, 0x2F] f]).map Prod.fst =
        [[0x64, 0x2F]] ∧
      f.storedPath [0x64, 0x2F] = [0x64, 0x2F, 0x6E] ∧
      (State.run ⟨d, 1⟩ [.lock, .add [0x61] f, .unlock, .add [0x64, 0x2F] f]).views =
        shelve [] (State.stored ⟨d, 1⟩ [.lock, .add [0x61] f, .unlock, .add [0x64, 0x2F] f]) := by
  have hfinished : ((Draft.start (Utf8.encode "m/n") {}).attempts
      [.openElement [0x65], .closeElement]).finish =
      .ok ⟨#[⟨.document, 0, 2, 0, 0, [0x6D, 0x2F, 0x6E]⟩, ⟨.element, 1, 1, 0, 1, []⟩],
        ⟨#[[0x65]]⟩⟩ := by
    cbv
  exact ⟨_, _, ⟨_, _, _, _, hfinished⟩, rfl, rfl, by cbv, by cbv,
    (run_content (show create 0 "db" {} = .ok (_, _) from rfl) _).1⟩

end Database

end XmlStore
