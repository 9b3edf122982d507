import XmlStore.Proofs.QueryAnswers
import XmlStore.Proofs.TableViews

/-!
# Answers while documents are added

Documents are added behind the rows that are there, so a query finds in the next snapshot what it
found before and then what it finds in the new document.  Only listed positions are not found anew:
they stay where they are.

* `Query.unlisted` — a query in which no position is listed.
* `Snapshot.Returns` — what a query of a snapshot returns, whoever reads it and in whichever way.
* `Snapshot.returns_of_asks` — an operator returns the positions that the query asks for.
* `Query.asks_extended`, `Query.asks_extended_add` — a query asks of an extended table what it asked
  before and, behind that, what it asks of the fragment.
* `Database.Made.returns_add` — hence what it returns after an addition.
-/

namespace XmlStore

/-! ## Queries without listed positions -/

namespace Query

mutual

/-- The query with all its lists of positions emptied. -/
def unlisted : Query → Query
  | empty => empty
  | lookup l => lookup l
  | nodes _ => nodes []
  | set op operands => set op (unlistedAll operands)

/-- Several queries with their lists of positions emptied. -/
def unlistedAll : List Query → List Query
  | [] => []
  | q :: rest => unlisted q :: unlistedAll rest

end

theorem unlistedAll_eq (qs : List Query) : unlistedAll qs = qs.map unlisted := by
  induction qs with
  | nil => rfl
  | cons q rest ih => rw [unlistedAll, ih, List.map_cons]

/-- Whether a lookup is valid does not depend on the size. -/
theorem Valid.of_lookup {size : Nat} {l : Lookup} (h : (lookup l).Valid size) (size' : Nat) :
    (lookup l).Valid size' := by
  cases h with
  | exact kind value => exact .exact kind value
  | range hle => exact .range hle

theorem Valid.mono {size size' : Nat} (hle : size ≤ size') {q : Query} (h : q.Valid size) :
    q.Valid size' := by
  induction q with
  | empty => exact .empty
  | lookup l => exact h.of_lookup _
  | nodes pres =>
    cases h with
    | nodes hpres => exact .nodes fun pre hpre => Nat.lt_of_lt_of_le (hpres pre hpre) hle
  | set op qs ih =>
    cases h with
    | set _ hqs => exact .set op fun q hq => ih q hq (hqs q hq)

theorem Valid.unlisted {size : Nat} {q : Query} (h : q.Valid size) (size' : Nat) :
    q.unlisted.Valid size' := by
  induction q with
  | empty => exact .empty
  | lookup l => exact h.of_lookup _
  | nodes pres => exact .nodes fun pre hpre => (by cases hpre)
  | set op qs ih =>
    cases h with
    | set _ hqs =>
      rw [Query.unlisted, unlistedAll_eq]
      exact .set op (List.forall_mem_map.2 fun q hq => ih q hq (hqs q hq))

/-! ## What is asked of one table and of another -/

theorem asksAll_eq (t : Table) (pre : Nat) (qs : List Query) :
    asksAll t pre qs = qs.map (Asks t pre) := by
  induction qs with
  | nil => rfl
  | cons q rest ih => rw [asksAll, ih, List.map_cons]

theorem asks_set {t : Table} {pre : Nat} {op : SetOp} {qs : List Query} :
    (set op qs).Asks t pre ↔ op.Selects (Asks t pre) qs := by
  rw [Asks, asksAll_eq]
  exact op.selects_map (fun asked => asked) (Asks t pre) qs

/-- An operator asks for a position of one table as it does for another position of another table,
if its operands do. -/
theorem asks_set_congr {t t' : Table} {pre pre' : Nat} (op : SetOp) {qs : List Query}
    {f : Query → Query} (h : ∀ q ∈ qs, (q.Asks t pre ↔ (f q).Asks t' pre')) :
    (set op qs).Asks t pre ↔ (set op (qs.map f)).Asks t' pre' := by
  rw [asks_set, asks_set]
  refine op.selects_of_map_eq ?_
  rw [List.map_map]
  exact List.map_congr_left fun q hq => propext (h q hq)

/-- What a lookup asks for shows in what is observed of a row. -/
theorem asks_lookup {t : Table} {pre : Nat} {l : Lookup} :
    (lookup l).Asks t pre ↔
      ∃ row, t.view? pre = some row ∧ row.kind = l.kind.nodeKind ∧ l.Wants row.value := by
  rw [Asks, Table.view?]
  constructor
  · rintro ⟨row, hrow, hasked⟩
    exact ⟨_, by rw [hrow, Option.map_some], hasked⟩
  · rintro ⟨_, hview, hasked⟩
    obtain ⟨row, hrow, rfl⟩ := Option.map_eq_some_iff.1 hview
    exact ⟨row, hrow, hasked⟩

/-- No lookup asks for a document. -/
theorem not_asks_document {t : Table} {pre : Nat} {l : Lookup}
    (h : ∀ row, t.view? pre = some row → row.kind = .document) : ¬ (lookup l).Asks t pre := by
  rw [asks_lookup]
  rintro ⟨row, hview, hkind, _⟩
  rw [h row hview] at hkind
  cases hkindOf : l.kind <;> rw [hkindOf] at hkind <;> cases hkind

/-- Nothing is asked for outside of a table. -/
theorem Valid.lt_size_of_asks {t : Table} {pre : Nat} {q : Query} (hq : q.Valid t.size)
    (h : q.Asks t pre) : pre < t.size := by
  induction q with
  | empty => exact h.elim
  | lookup l =>
    obtain ⟨row, hrow, _⟩ := h
    exact (Array.getElem?_eq_some_iff.1 hrow).1
  | nodes pres =>
    cases hq with
    | nodes hpres => exact hpres pre h
  | set op qs ih =>
    cases hq with
    | set _ hqs =>
      obtain ⟨q, hq, hasked⟩ := selects_imp_exists (asks_set.1 h)
      exact ih q hq (hqs q hq) hasked

end Query

/-! ## What is returned -/

/-- A query of a snapshot can be bound, and returns these positions: as long as the snapshot exists
and nobody raises the signal, the compiled query has their nodes in both modes, and gives them one
by one. -/
def Snapshot.Returns (s : Snapshot) (q : Query) (pres : List Nat) : Prop :=
  ∃ e, q.bind s = .ok e ∧
    ∀ {live : Live} {signals : Signals} {signal : SignalId},
      live.find? s.binding = some s → signals.isRaised signal = false →
      (∀ mode, ((e.compile live).1.evaluate live signals signal mode).result =
        .ok (pres.map fun pre => ⟨s.id, pre⟩)) ∧
      ∃ run, (e.compile live).1.begin live signals signal = .ok run ∧
        run.Pulls signals (pres.map fun pre => ⟨s.id, pre⟩)

/-- The positions that a query asks for, in document order. -/
structure Query.AskedOf (q : Query) (t : Table) (pres : List Nat) : Prop where
  ascending : pres.Pairwise (· < ·)
  mem : ∀ pre, pre ∈ pres ↔ q.Asks t pre

theorem Query.Valid.exists_askedOf {t : Table} {q : Query} (hq : q.Valid t.size) :
    ∃ pres, q.AskedOf t pres := by
  classical
  refine ⟨(List.range t.size).filter fun pre => q.Asks t pre, ?_, fun pre => ?_⟩
  · exact List.pairwise_lt_range.filter _
  · rw [List.mem_filter, List.mem_range, decide_eq_true_iff]
    exact ⟨fun h => h.2, fun h => ⟨hq.lt_size_of_asks h, h⟩⟩

/-- **An operator returns the positions that it asks for.** -/
theorem Snapshot.returns_of_asks {number : Nat} {name : String} {t : Table} {options : Options}
    {op : SetOp} {qs : List Query} (hq : (Query.set op qs).Valid t.size) {pres : List Nat}
    (h : (Query.set op qs).AskedOf t pres) :
    (Snapshot.ofTable number name t options).Returns (.set op qs) pres := by
  -- what the query is bound to does not depend on who evaluates it
  let s := Snapshot.ofTable number name t options
  have hkept : Live.find? ⟨[s]⟩ s.binding = some s := by simp [Live.find?, Snapshot.binding]
  have hunraised : Signals.empty.isRaised 0 = false := rfl
  obtain ⟨e, _, hbind, _⟩ := Query.answered_of_valid hunraised hkept hq
  refine ⟨e, hbind, fun {live signals signal} hlive hraised => ?_⟩
  obtain ⟨e', nodes, hbind', hvalue, hasc, hmem⟩ := Query.answered_of_valid hraised hlive hq
  obtain rfl : e = e' := Except.ok.inj (hbind.symm.trans hbind')
  have hnodes : nodes = pres.map fun pre => ⟨number, pre⟩ := by
    refine eq_of_ascending (hasc (Query.iterable_of_bind_set hbind))
      (pairwise_nodes h.ascending number) fun node => ?_
    rw [hmem, Query.mem_map_node, h.mem]
    exact Iff.rfl
  subst hnodes
  exact ⟨fun _ => hvalue, Expr.exists_pulls hvalue⟩

/-! ## Extended tables -/

/-- The first row of a table that can be made is a document. -/
theorem Table.Made.kind_root {t : Table} (h : t.Made) {row : RowView}
    (hrow : t.view? 0 = some row) : row.kind = .document := by
  by_contra hkind
  obtain ⟨q, _, _, hq, _⟩ := h.sound.toStructured.parents hrow hkind
  exact Nat.not_lt_zero q hq

namespace Table

variable {t fragment : Table} (ht : t.Made) (hfragment : fragment.Made) (path : Bytes)

include ht hfragment

theorem size_le_extended : t.size ≤ (Database.extended t path fragment).size := by
  rw [← length_views, ← length_views, views_extended ht.named hfragment.named hfragment.sound,
    List.length_append]
  exact Nat.le_add_right _ _

/-- The rows of a table stay as they are when it is extended. -/
theorem view?_extended {pre : Nat} (hpre : pre < t.size) :
    (Database.extended t path fragment).view? pre = t.view? pre := by
  rw [← getElem?_views, ← getElem?_views,
    views_extended ht.named hfragment.named hfragment.sound,
    List.getElem?_append_left (by rwa [length_views])]

/-- Behind them stand those of the fragment, and the first one gets the path for its value. -/
theorem view?_extended_add (pre : Nat) :
    (Database.extended t path fragment).view? (t.size + pre) =
      if pre = 0 then
        ((fragment.view? 0).map (RowView.shift t.size)).map fun root => { root with value := path }
      else (fragment.view? pre).map (RowView.shift t.size) := by
  rw [← getElem?_views, views_extended ht.named hfragment.named hfragment.sound,
    List.getElem?_append_right (by rw [length_views]; exact Nat.le_add_right _ _), length_views,
    Nat.add_sub_cancel_left, shelved, List.getElem?_modifyHead, List.getElem?_map, getElem?_views]
  split
  · rename_i hfirst
    rw [hfirst]
  · rfl

end Table

namespace Query

variable {t fragment : Table} (ht : t.Made) (hfragment : fragment.Made) (path : Bytes) {q : Query}

include ht hfragment

/-- A query asks for the same rows of a table when it is extended. -/
theorem asks_extended {pre : Nat} (hpre : pre < t.size) :
    q.Asks (Database.extended t path fragment) pre ↔ q.Asks t pre := by
  induction q with
  | empty => exact Iff.rfl
  | lookup l => rw [asks_lookup, asks_lookup, Table.view?_extended ht hfragment path hpre]
  | nodes pres => exact Iff.rfl
  | set op qs ih =>
    have hsame := asks_set_congr (f := id) op ih
    rwa [List.map_id] at hsame

/-- A lookup asks for the rows of the fragment behind them. -/
theorem asks_lookup_extended_add (l : Lookup) (pre : Nat) :
    (lookup l).Asks (Database.extended t path fragment) (t.size + pre) ↔
      (lookup l).Asks fragment pre := by
  by_cases hfirst : pre = 0
  · -- the path is the value of a document, which no lookup sees
    subst hfirst
    have hroot : ∀ row, fragment.view? 0 = some row → row.kind = .document :=
      fun row hrow => hfragment.kind_root hrow
    refine iff_of_false (not_asks_document fun row hrow => ?_) (not_asks_document hroot)
    rw [Table.view?_extended_add ht hfragment, if_pos rfl] at hrow
    obtain ⟨moved, hmoved, rfl⟩ := Option.map_eq_some_iff.1 hrow
    obtain ⟨root, hview, rfl⟩ := Option.map_eq_some_iff.1 hmoved
    exact hroot root hview
  · rw [asks_lookup, asks_lookup, Table.view?_extended_add ht hfragment, if_neg hfirst]
    constructor
    · rintro ⟨_, hmoved, hasked⟩
      obtain ⟨row, hrow, rfl⟩ := Option.map_eq_some_iff.1 hmoved
      exact ⟨row, hrow, hasked⟩
    · rintro ⟨row, hrow, hasked⟩
      exact ⟨row.shift t.size, by rw [hrow, Option.map_some], hasked⟩

/-- Behind them it asks for the rows of the fragment, but for no listed ones. -/
theorem asks_extended_add (hq : q.Valid t.size) (pre : Nat) :
    q.Asks (Database.extended t path fragment) (t.size + pre) ↔ q.unlisted.Asks fragment pre := by
  induction q with
  | empty => exact Iff.rfl
  | lookup l => exact asks_lookup_extended_add ht hfragment path l pre
  | nodes pres =>
    cases hq with
    | nodes hpres =>
      have hold : t.size + pre ∉ pres := fun hmem =>
        absurd (hpres _ hmem) (Nat.not_lt.2 (Nat.le_add_right _ _))
      exact ⟨fun h => absurd h hold, fun h => (by cases h)⟩
  | set op qs ih =>
    cases hq with
    | set _ hqs =>
      rw [unlisted, unlistedAll_eq]
      exact asks_set_congr op fun q hq => ih q hq (hqs q hq)

/-- **What a query asks of an extended table** is what it asked before, followed by what it asks of
the fragment. -/
theorem AskedOf.extended (hq : q.Valid t.size) {old added : List Nat} (hold : q.AskedOf t old)
    (hadded : q.unlisted.AskedOf fragment added) :
    q.AskedOf (Database.extended t path fragment) (old ++ added.map (t.size + ·)) := by
  have hbefore : ∀ pre ∈ old, pre < t.size := fun pre hpre =>
    hq.lt_size_of_asks ((hold.mem pre).1 hpre)
  constructor
  · refine List.pairwise_append.2 ⟨hold.ascending, ?_, ?_⟩
    · exact List.pairwise_map.2 (hadded.ascending.imp fun hlt => Nat.add_lt_add_left hlt _)
    · intro a ha b hb
      obtain ⟨pre, _, rfl⟩ := List.mem_map.1 hb
      exact Nat.lt_add_right pre (hbefore a ha)
  · intro pre
    rw [List.mem_append, List.mem_map]
    by_cases hpre : pre < t.size
    · rw [asks_extended ht hfragment path hpre, ← hold.mem]
      refine or_iff_left ?_
      rintro ⟨later, _, rfl⟩
      omega
    · obtain ⟨later, rfl⟩ := Nat.exists_eq_add_of_le (Nat.le_of_not_lt hpre)
      rw [asks_extended_add ht hfragment path hq, ← hadded.mem]
      constructor
      · rintro (hearlier | ⟨other, hother, heq⟩)
        · exact absurd (hbefore _ hearlier) hpre
        · obtain rfl : other = later := Nat.add_left_cancel heq
          exact hother
      · exact fun hlater => Or.inr ⟨later, hlater, rfl⟩

end Query

/-! ## Additions -/

namespace Database

theorem Made.indexed {d : Database} (h : d.Made) : d.Indexed := by
  -- nothing is said of the tables that are added
  refine @Database.Made.rec (fun _ _ => True) (fun d _ => d.Indexed) (fun _ => trivial)
    (fun _ _ _ _ => trivial) (fun _ _ => trivial) ?created ?added ?locked d h
  case created => exact fun hcreate => indexed_create hcreate
  case added =>
    intro d id path fragment _ _ hd _
    exact hd.add id path fragment
  case locked =>
    rintro d held _ ⟨number, t, hcurrent⟩
    exact ⟨number, t, hcurrent⟩

/-- What an addition that is neither refused nor skipped leaves behind. -/
theorem exists_current_add {d : Database} {id : Nat} {path name : Bytes} {fragment : Table}
    (hadd : (d.add id path fragment).result = .ok name) (hsize : 1 < fragment.size) :
    ∃ stored, (d.add id path fragment).database.current =
      .ofTable id d.name (extended d.current.table stored fragment) d.options := by
  revert hadd
  unfold add
  split
  · rintro ⟨⟩
  · rename_i target _
    have hcontent : hasContent fragment = true := decide_eq_true hsize
    simp only [hcontent, if_true]
    unfold tryLock
    cases d.locked with
    | true => rintro ⟨⟩
    | false => exact fun _ => ⟨target.path, rfl⟩

/-- **Answers grow with the documents.**  After a document is added to a database, an operator
returns what it returned before, followed by what it returns for the document alone when no position
is listed, moved behind the rows that were there; and nothing that was returned before has changed.
So an addition takes nothing away from an answer, and adds to it just what is its own. -/
theorem Made.returns_add {d : Database} (hd : d.Made) {fragment : Table} (hfragment : fragment.Made)
    {id : Nat} {path name : Bytes} (hadd : (d.add id path fragment).result = .ok name)
    (hsize : 1 < fragment.size) {op : SetOp} {qs : List Query}
    (hq : (Query.set op qs).Valid d.current.size) :
    ∃ old added,
      d.current.Returns (.set op qs) old ∧
      (∀ number name options, (Snapshot.ofTable number name fragment options).Returns
        (Query.set op qs).unlisted added) ∧
      (d.add id path fragment).database.current.Returns (.set op qs)
        (old ++ added.map (d.current.size + ·)) ∧
      ∀ pre ∈ old, (d.add id path fragment).database.current.table.view? pre =
        d.current.table.view? pre := by
  have ht : d.current.table.Made := .stored hd
  have hunlisted := hq.unlisted fragment.size
  obtain ⟨old, hold⟩ := hq.exists_askedOf
  obtain ⟨added, hadded⟩ := hunlisted.exists_askedOf
  obtain ⟨stored, hcurrent⟩ := exists_current_add hadd hsize
  have hall := hold.extended ht hfragment stored hq hadded
  refine ⟨old, added, ?_, fun _ _ _ => ?_, ?_, fun pre hpre => ?_⟩
  · obtain ⟨number, t, hbefore⟩ := hd.indexed
    rw [hbefore] at hq hold ⊢
    exact Snapshot.returns_of_asks hq hold
  · rw [Query.unlisted] at hunlisted hadded ⊢
    exact Snapshot.returns_of_asks hunlisted hadded
  · rw [hcurrent]
    refine Snapshot.returns_of_asks (hq.mono ?_) hall
    exact Table.size_le_extended ht hfragment stored
  · rw [hcurrent]
    exact Table.view?_extended ht hfragment stored (hq.lt_size_of_asks ((hold.mem pre).1 hpre))

/-- A text is asked for and a position is listed, and a document is added a second time. -/
theorem returns_add_twice :
    let fragment : Table := { rows := #[⟨.document, 0, 2, 0, 0, [97]⟩, ⟨.text, 1, 1, 0, 0, [98]⟩] }
    let created : Database := ⟨"books", {}, .ofTable 0 "books" .empty {}, false⟩
    let d := (created.add 1 [99] fragment).database
    let q : Query := .set .union [.lookup (.exact .text [98]), .nodes [0]]
    ∃ old added,
      d.current.Returns q old ∧
      (∀ number name options, (Snapshot.ofTable number name fragment options).Returns
        q.unlisted added) ∧
      (d.add 2 [100] fragment).database.current.Returns q
        (old ++ added.map (d.current.size + ·)) ∧
      ∀ pre ∈ old, (d.add 2 [100] fragment).database.current.table.view? pre =
        d.current.table.view? pre := by
  intro fragment created d q
  have hcreated : create 0 "books" {} = .ok (created, _) := rfl
  have hfinished : ((Draft.start [97] {}).attempts [.text [98]]).finish = .ok fragment := by cbv
  have hd : d.Made := .added 1 [99] (.created hcreated) (.finished hfinished)
  have hsize : d.current.size = 2 := by decide
  have hadd : (d.add 2 [100] fragment).result = .ok [100] := by decide
  refine hd.returns_add (.finished hfinished) hadd (by decide)
    (.set _ fun q hq => ?_)
  simp only [List.mem_cons, List.not_mem_nil, or_false] at hq
  rcases hq with rfl | rfl
  · exact .exact _ _
  · exact .nodes (by rw [hsize]; decide)

end Database

end XmlStore
