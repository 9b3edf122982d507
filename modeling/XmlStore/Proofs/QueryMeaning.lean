import XmlStore.Database.Addition
import XmlStore.Proofs.MergeLaw
import XmlStore.Query
import XmlStore.Snapshot

/-!
# The meaning of queries

* `Query.Asks` — the positions that a query asks of a table, given by the rows of the table alone:
  nothing in it depends on an index, on options or on the way of evaluation.
* `Query.Valid` — queries that list no position outside of a table and have no inverted interval.
* `Database.Reachable` — the databases that come of creating one and adding to it;
  `Database.Reachable.exists_ofTable` is what they have in common.
-/

namespace XmlStore

/-- The values that a lookup asks for. -/
def Lookup.Wants : Lookup → Bytes → Prop
  | exact _ value, candidate => candidate = value
  | range i, candidate =>
    (∀ low, i.min = some low → if i.minIncluded then low ≤ candidate else low < candidate) ∧
      ∀ high, i.max = some high → if i.maxIncluded then candidate ≤ high else candidate < high

/-- The bounds that an interval is searched with say the same. -/
theorem Interval.contains_iff_wants (i : Interval) (candidate : Bytes) :
    i.contains candidate = true ↔ (Lookup.range i).Wants candidate := by
  have hlower : i.lower.admitsAbove candidate = true ↔
      ∀ low, i.min = some low → if i.minIncluded then low ≤ candidate else low < candidate := by
    unfold lower
    cases i.min with
    | none => simp [Bound.admitsAbove]
    | some low => cases i.minIncluded <;> simp [Bound.admitsAbove]
  have hupper : i.upper.admitsBelow candidate = true ↔
      ∀ high, i.max = some high → if i.maxIncluded then candidate ≤ high else candidate < high := by
    unfold upper
    cases i.max with
    | none => simp [Bound.admitsBelow]
    | some high => cases i.maxIncluded <;> simp [Bound.admitsBelow]
  rw [contains, Bool.and_eq_true, hlower, hupper]
  exact Iff.rfl

theorem Lookup.accepts_iff_wants (lookup : Lookup) (candidate : Bytes) :
    lookup.accepts candidate = true ↔ lookup.Wants candidate := by
  cases lookup with
  | exact kind value => exact beq_iff_eq.trans eq_comm
  | range i => exact i.contains_iff_wants candidate

namespace Query

mutual

/-- Whether a query asks for a position of a table. -/
def Asks (t : Table) (pre : Nat) : Query → Prop
  | empty => False
  | lookup l => ∃ row, t.rows[pre]? = some row ∧ row.kind = l.kind.nodeKind ∧ l.Wants row.value
  | nodes pres => pre ∈ pres
  | set op operands => op.Selects (fun asked => asked) (asksAll t pre operands)

/-- Whether each of several queries asks for a position of a table. -/
def asksAll (t : Table) (pre : Nat) : List Query → List Prop
  | [] => []
  | q :: rest => Asks t pre q :: asksAll t pre rest

end

/-- Queries that list no position outside of a table of some size and have no inverted interval. -/
inductive Valid (size : Nat) : Query → Prop where
  | empty : Valid size empty
  | exact (kind : ValueKind) (value : Bytes) : Valid size (lookup (.exact kind value))
  | range {i : Interval} :
      (∀ low high, i.min = some low → i.max = some high → low ≤ high) →
      Valid size (lookup (.range i))
  | nodes {pres : List Nat} : (∀ pre ∈ pres, pre < size) → Valid size (nodes pres)
  | set (op : SetOp) {operands : List Query} :
      (∀ q ∈ operands, Valid size q) → Valid size (set op operands)

theorem fault?_of_valid {size : Nat} {l : Lookup} (h : (lookup l).Valid size) :
    l.fault? = none := by
  cases h with
  | exact => rfl
  | @range i hle =>
    have hinverted : i.isInverted = false := by
      unfold Interval.isInverted
      split
      · rename_i low high hmin hmax
        exact decide_eq_false (List.not_lt.2 (hle low high hmin hmax))
      · rfl
    rw [Lookup.fault?, hinverted]
    rfl

end Query

/-- The databases that come of creating one and adding to it, whatever is added and whether or not
it is refused. -/
inductive Database.Reachable : Database → Prop where
  | created {number : Nat} {name : String} {options : Options} {d : Database}
      {events : List Event} :
      Database.create number name options = .ok (d, events) → Reachable d
  | added {d : Database} (number : Nat) (path : Bytes) (fragment : Table) :
      Reachable d → Reachable (d.add number path fragment).database

namespace Database

/-- The current snapshot has the index that the options ask for. -/
def Indexed (d : Database) : Prop := ∃ number t, d.current = .ofTable number d.name t d.options

theorem indexed_create {number : Nat} {name : String} {options : Options} {d : Database}
    {events : List Event} (h : create number name options = .ok (d, events)) : d.Indexed := by
  unfold create at h
  split at h
  · obtain ⟨rfl, _⟩ := Prod.mk.inj (Except.ok.inj h)
    exact ⟨number, .empty, rfl⟩
  · cases h

theorem Indexed.add {d : Database} (h : d.Indexed) (number : Nat) (path : Bytes)
    (fragment : Table) : (d.add number path fragment).database.Indexed := by
  unfold Database.add
  split
  · exact h
  · split
    · unfold tryLock
      split
      · exact h
      · exact ⟨number, _, rfl⟩
    · exact h

/-- **The current snapshot of a database has the index that the options ask for.** -/
theorem Reachable.exists_ofTable {d : Database} (h : d.Reachable) :
    ∃ number t, d.current = .ofTable number d.name t d.options := by
  induction h with
  | created hcreate => exact indexed_create hcreate
  | added number path fragment _ ih => exact Indexed.add ih number path fragment

end Database

end XmlStore
