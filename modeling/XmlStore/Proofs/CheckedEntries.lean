import XmlStore.Proofs.Compiling
import XmlStore.Proofs.Keeping
import XmlStore.Proofs.LookupCourses
import XmlStore.Proofs.QueryMeaning

/-!
# A wrong index smuggles nothing in

What an index answers is checked entry by entry against the table, so a wrong entry ends the reading
and is never handed out.

* `Snapshot.examine` — the check with every read of the table spelled out; `examine_eq` says that it
  never reads outside of the table and comes to `Snapshot.inconsistency?`.
* `Snapshot.Flaw` — what can be wrong with an entry, and for which reason it is refused.
* `Snapshot.Checks` — the course of entries that are checked: up to the first one with a flaw.
* `Expr.Vouches` — a leaf gives only listed nodes, or nodes that belong to its lookup; and merges
  make nothing up, in whatever order the entries come (`Expr.vouched_source`).
* `Expr.entries_checked` — both together.
-/

namespace XmlStore

/-! ## Reading the table -/

/-- The kind of the row at a position; no answer outside of the table. -/
def Table.kindAt? (t : Table) (pre : Nat) : Option NodeKind := t.rows[pre]?.map Row.kind

/-- The value of the row at a position; no answer outside of the table. -/
def Table.valueAt? (t : Table) (pre : Nat) : Option Bytes := t.rows[pre]?.map Row.value

namespace Snapshot

/-- What is wrong with an entry that the index gives for a lookup, if anything.  There is no answer
if the table is read at a position outside of it. -/
def examine (s : Snapshot) (lookup : Lookup) (pre : Nat) : Option (Option Inconsistency) :=
  if s.size ≤ pre then some (some .outside)
  else do
    let kind ← s.table.kindAt? pre
    if kind ≠ lookup.kind.nodeKind then return some .wrongKind
    let value ← s.table.valueAt? pre
    if lookup.isExact && decide (s.index.maxLength < value.length) then return some .tooLong
    if !lookup.accepts value then return some .mismatch
    return none

/-- The nodes of entries, and the fault of the first one that is refused.  There is no answer if the
table is read at a position outside of it. -/
def readThrough (s : Snapshot) (lookup : Lookup) : List Nat → Option Course
  | [] => some ⟨[], none⟩
  | pre :: rest => do
    match ← s.examine lookup pre with
    | some reason => return ⟨[], some (.indexInconsistent lookup pre reason)⟩
    | none => return .cons ⟨s.id, pre⟩ (← s.readThrough lookup rest)

variable {s : Snapshot} {lookup : Lookup} {pre : Nat} {reason : Inconsistency}

/-- **The table is never read outside of it.** -/
theorem examine_eq (s : Snapshot) (lookup : Lookup) (pre : Nat) :
    s.examine lookup pre = some (s.inconsistency? lookup pre) := by
  unfold examine inconsistency? Table.kindAt? Table.valueAt?
  by_cases hsize : s.size ≤ pre
  · rw [if_pos hsize, Array.getElem?_eq_none hsize]
  · have hlt : pre < s.table.rows.size := Nat.lt_of_not_le hsize
    rw [if_neg hsize, Array.getElem?_eq_getElem hlt]
    simp only [Option.map_some, Option.bind_eq_bind, Option.bind_some, Option.pure_def]
    split
    · rfl
    · split
      · rfl
      · split <;> rfl

/-! ## Flaws -/

/-- A position that belongs to a lookup: its row carries a value of the kind, which is asked for. -/
def Confirms (s : Snapshot) (lookup : Lookup) (pre : Nat) : Prop :=
  (Query.lookup lookup).Asks s.table pre

/-- What is wrong with an entry, in the order in which it is looked for. -/
inductive Flaw (s : Snapshot) (lookup : Lookup) (pre : Nat) : Inconsistency → Prop where
  | outside : s.size ≤ pre → Flaw s lookup pre .outside
  | wrongKind {row : Row} : s.table.rows[pre]? = some row → row.kind ≠ lookup.kind.nodeKind →
      Flaw s lookup pre .wrongKind
  | tooLong {row : Row} : s.table.rows[pre]? = some row → row.kind = lookup.kind.nodeKind →
      lookup.isExact = true → s.index.maxLength < row.value.length → Flaw s lookup pre .tooLong
  | mismatch {row : Row} : s.table.rows[pre]? = some row → row.kind = lookup.kind.nodeKind →
      (lookup.isExact = true → row.value.length ≤ s.index.maxLength) → ¬ lookup.Wants row.value →
      Flaw s lookup pre .mismatch

/-- **An entry is refused for its flaw.** -/
theorem flaw_of_inconsistency? (h : s.inconsistency? lookup pre = some reason) :
    s.Flaw lookup pre reason := by
  unfold inconsistency? at h
  split at h
  · rename_i hnone
    obtain rfl := Option.some.inj h
    exact .outside (Array.getElem?_eq_none_iff.1 hnone)
  · rename_i row hrow
    split at h
    · rename_i hkind
      obtain rfl := Option.some.inj h
      exact .wrongKind hrow hkind
    · rename_i hkind
      have hkind := not_not.1 hkind
      split at h
      · rename_i hlong
        obtain rfl := Option.some.inj h
        rw [Bool.and_eq_true, decide_eq_true_eq] at hlong
        exact .tooLong hrow hkind hlong.1 hlong.2
      · rename_i hshort
        split at h
        · rename_i hrefused
          obtain rfl := Option.some.inj h
          refine .mismatch hrow hkind (fun hexact => ?_) fun hwants => ?_
          · simpa [hexact] using hshort
          · simp [(lookup.accepts_iff_wants row.value).2 hwants] at hrefused
        · cases h

/-- **An entry that is not refused belongs to the lookup.** -/
theorem confirms_of_inconsistency? (h : s.inconsistency? lookup pre = none) :
    s.Confirms lookup pre := by
  unfold inconsistency? at h
  split at h
  · cases h
  · rename_i row hrow
    split at h
    · cases h
    · rename_i hkind
      split at h
      · cases h
      · split at h
        · cases h
        · rename_i haccepts
          refine ⟨row, hrow, not_not.1 hkind, (lookup.accepts_iff_wants row.value).1 ?_⟩
          simpa using haccepts

/-- An entry that belongs to a lookup has no flaw, if the lookup names no longer values than the
index has. -/
theorem Flaw.not_confirms (h : s.Flaw lookup pre reason)
    (hfits : lookup.fits s.index.maxLength = true) : ¬ s.Confirms lookup pre := by
  rintro ⟨row, hrow, hkind, hwants⟩
  cases h with
  | outside hsize =>
    rw [Array.getElem?_eq_none hsize] at hrow
    cases hrow
  | wrongKind hrow' hne =>
    obtain rfl := Option.some.inj (hrow.symm.trans hrow')
    exact hne hkind
  | tooLong hrow' _ hexact hlong =>
    obtain rfl := Option.some.inj (hrow.symm.trans hrow')
    cases lookup with
    | range => cases hexact
    | exact kind value =>
      obtain rfl : row.value = value := hwants
      have hlength : row.value.length ≤ s.index.maxLength := by simpa [Lookup.fits] using hfits
      omega
  | mismatch hrow' _ _ hnot =>
    obtain rfl := Option.some.inj (hrow.symm.trans hrow')
    exact hnot hwants

/-! ## Checked entries -/

/-- The course of entries that are checked: all of them, or those before the first one with a flaw,
and then its fault. -/
inductive Checks (s : Snapshot) (lookup : Lookup) : List Nat → Course → Prop where
  | all {pres : List Nat} : (∀ pre ∈ pres, s.Confirms lookup pre) →
      Checks s lookup pres ⟨s.nodesAt pres, none⟩
  | upTo {good rest : List Nat} {pre : Nat} {reason : Inconsistency} :
      (∀ pre ∈ good, s.Confirms lookup pre) → s.Flaw lookup pre reason →
      Checks s lookup (good ++ pre :: rest)
        ⟨s.nodesAt good, some (.indexInconsistent lookup pre reason)⟩

theorem Checks.cons {pres : List Nat} {c : Course} (h : s.Checks lookup pres c)
    (hpre : s.Confirms lookup pre) : s.Checks lookup (pre :: pres) (.cons ⟨s.id, pre⟩ c) := by
  cases h with
  | all hpres => exact .all (List.forall_mem_cons.2 ⟨hpre, hpres⟩)
  | upTo hgood hflaw => exact .upTo (List.forall_mem_cons.2 ⟨hpre, hgood⟩) hflaw

/-- A course has no fault if and only if all entries belong to the lookup. -/
theorem Checks.fault_eq_none_iff {pres : List Nat} {c : Course} (h : s.Checks lookup pres c)
    (hfits : lookup.fits s.index.maxLength = true) :
    c.fault = none ↔ ∀ pre ∈ pres, s.Confirms lookup pre := by
  cases h with
  | all hpres => exact ⟨fun _ => hpres, fun _ => rfl⟩
  | upTo _ hflaw =>
    constructor
    · intro hfault
      cases hfault
    · intro hpres
      exact absurd (hpres _ (List.mem_append_right _ List.mem_cons_self)) (hflaw.not_confirms hfits)

/-- All entries come if there is no fault. -/
theorem Checks.value_eq_ok_iff {pres : List Nat} {c : Course} (h : s.Checks lookup pres c)
    (hfits : lookup.fits s.index.maxLength = true) :
    c.value = .ok (s.nodesAt pres) ↔ ∀ pre ∈ pres, s.Confirms lookup pre := by
  rw [← h.fault_eq_none_iff hfits]
  cases h with
  | all => exact ⟨fun _ => rfl, fun _ => rfl⟩
  | upTo =>
    constructor
    · intro hvalue
      cases hvalue
    · intro hfault
      cases hfault

/-- **Entries that are read through are checked.**  The induction is on the entries. -/
theorem exists_readThrough (s : Snapshot) (lookup : Lookup) (entries : List Entry) :
    ∃ c, s.readThrough lookup (entries.map Entry.pre) = some c ∧
      s.Checks lookup (entries.map Entry.pre) c ∧
      let script := Script.ofSteps s.id (Source.entryFault? s lookup) (Entry.steps entries)
      (⟨script.nodes, script.fault⟩ : Course) = c := by
  induction entries with
  | nil => exact ⟨_, rfl, .all fun _ h => (by cases h), rfl⟩
  | cons entry rest ih =>
    obtain ⟨c, hread, hchecks, hcourse⟩ := ih
    rw [List.map_cons, readThrough, examine_eq, Option.bind_eq_bind, Option.bind_some]
    have hsteps : Entry.steps (entry :: rest) =
        [.visit entry.raises, .yield entry.pre] ++ Entry.steps rest := rfl
    cases hcheck : s.inconsistency? lookup entry.pre with
    | some reason =>
      have hchecks : s.Checks lookup ([] ++ entry.pre :: rest.map Entry.pre)
          ⟨s.nodesAt [], some (.indexInconsistent lookup entry.pre reason)⟩ :=
        .upTo (fun _ h => by cases h) (flaw_of_inconsistency? hcheck)
      refine ⟨_, rfl, hchecks, ?_⟩
      have hfault : Source.entryFault? s lookup entry.pre =
          some (.indexInconsistent lookup entry.pre reason) := by
        rw [Source.entryFault?, hcheck, Option.map_some]
      simp only [hsteps, List.cons_append, List.nil_append, Script.ofSteps, hfault]
      rfl
    | none =>
      refine ⟨.cons ⟨s.id, entry.pre⟩ c, ?_, hchecks.cons (confirms_of_inconsistency? hcheck), ?_⟩
      · simp only [hread, Option.bind_eq_bind, Option.bind_some, Option.pure_def]
      · have hfault : Source.entryFault? s lookup entry.pre = none := by
          rw [Source.entryFault?, hcheck, Option.map_none]
        subst hcourse
        simp only [hsteps, List.cons_append, List.nil_append, Script.ofSteps, hfault]
        rfl

end Snapshot

/-! ## What leaves vouch for -/

/-- A checked cursor gives only positions that are not refused. -/
theorem Script.mem_nodes_ofSteps {snapshot : Nat} {fault? : Nat → Option Fault}
    {steps : List (Step Nat)} {node : Node} (h : node ∈ (ofSteps snapshot fault? steps).nodes) :
    node.snapshot = snapshot ∧ node.pre ∈ steps.filterMap Step.result? ∧
      fault? node.pre = none := by
  induction steps with
  | nil => cases h
  | cons step rest ih =>
    cases step with
    | visit => exact ih h
    | poll => exact ih h
    | release => exact ih h
    | yield pre =>
      rw [ofSteps] at h
      split at h
      · cases h
      · rename_i hpre
        rcases List.mem_cons.1 (show node ∈ _ :: (ofSteps snapshot fault? rest).nodes from h) with
          rfl | h
        · exact ⟨rfl, List.mem_cons_self, hpre⟩
        · obtain ⟨hsnapshot, hmem, hnone⟩ := ih h
          exact ⟨hsnapshot, List.mem_cons_of_mem _ hmem, hnone⟩

/-- **A lookup gives only nodes that belong to it**, whatever its index answers. -/
theorem Source.confirms_of_mem_ofLookup {s : Snapshot} {lookup : Lookup} {node : Node}
    (h : node ∈ (ofLookup s lookup).script.nodes) :
    node.snapshot = s.id ∧ s.Confirms lookup node.pre := by
  unfold ofLookup at h
  cases hanswers : s.index.answers lookup with
  | true =>
    simp only [hanswers, if_true] at h
    obtain ⟨hsnapshot, _, hnone⟩ := Script.mem_nodes_ofSteps h
    exact ⟨hsnapshot, Snapshot.confirms_of_inconsistency? (Option.map_eq_none_iff.1 hnone)⟩
  | false =>
    simp only [hanswers, Bool.false_eq_true, if_false] at h
    obtain ⟨hsnapshot, hmem, _⟩ := Script.mem_nodes_ofSteps h
    rw [Snapshot.filterMap_scanSteps, Snapshot.mem_found] at hmem
    obtain ⟨row, hrow, hselects⟩ := hmem
    rw [Snapshot.selects, Bool.and_eq_true, beq_iff_eq, Lookup.accepts_iff_wants] at hselects
    exact ⟨hsnapshot, row, hrow, hselects⟩

namespace Expr

/-- A leaf vouches for a node: it lists the node, or the node belongs to its lookup. -/
inductive Vouches (live : Live) (node : Node) : Expr → Prop where
  | listed {binding : Binding} {pres : List Nat} {s : Snapshot} :
      live.find? binding = some s → node ∈ s.nodesAt pres → Vouches live node (nodes binding pres)
  | found {binding : Binding} {lookup : Lookup} {iterable : Bool} {s : Snapshot} :
      live.find? binding = some s → node.snapshot = s.id → s.Confirms lookup node.pre →
      Vouches live node (access binding lookup iterable)

variable {live : Live}

/-- **Every node of an expression is vouched for by a leaf**, in whatever order entries come.  The
induction is on the expression. -/
theorem vouched_source {e : Expr} {src : Source} (h : e.source live = .ok src) :
    src.script.Confined (fun _ => True) fun node => ∃ leaf ∈ e.leaves, leaf.Vouches live node := by
  induction e generalizing src with
  | empty =>
    obtain rfl := Except.ok.inj h
    exact Script.confined_empty
  | nodes binding pres =>
    obtain ⟨s, hs, rfl⟩ := source_nodes h
    refine Script.confined_ofNodes fun node hmem => ?_
    exact ⟨_, List.mem_singleton_self _, .listed hs hmem⟩
  | access binding lookup iterable =>
    obtain ⟨s, hs, _, rfl⟩ := source_access.1 h
    refine ⟨fun _ _ => trivial, fun node hmem => ?_⟩
    obtain ⟨hsnapshot, hconfirms⟩ := Source.confirms_of_mem_ofLookup hmem
    exact ⟨_, List.mem_singleton_self _, .found hs hsnapshot hconfirms⟩
  | set op es iterable ih =>
    obtain ⟨operands, hoperands, rfl⟩ := source_set.1 h
    refine Source.confined_ofSet fun i o ho => ⟨fun _ _ => trivial, fun node hmem => ?_⟩
    obtain ⟨e, he, hsource⟩ := exists_of_operandsFrom hoperands ho
    have he := List.mem_of_getElem? he
    obtain ⟨leaf, hleaf, hvouches⟩ := (ih e he hsource).nodes node hmem
    exact ⟨leaf, mem_leavesAll.2 ⟨e, he, hleaf⟩, hvouches⟩

/-- **A wrong index smuggles nothing in.**  The entries that an index answers with are read in their
order up to the first one that lies outside of the table, is of another kind or has a value that is
not asked for; its fault names this entry.  All entries come if and only if there is no such one,
and the table is read at none of its positions that it does not have.  So every node that an
expression returns is listed in it or belongs to one of its lookups. -/
theorem entries_checked {binding : Binding} {s : Snapshot} {lookup : Lookup} {signals : Signals}
    {signal : SignalId} (hlive : live.find? binding = some s) (hvalid : lookup.fault? = none)
    (hanswers : s.index.answers lookup = true) (hraised : signals.isRaised signal = false)
    (hquiet : ∀ entry ∈ s.index.answer lookup, signal ∉ entry.raises) (iterable : Bool) :
    let pres := (s.index.answer lookup).map Entry.pre
    let leaf := access binding lookup iterable
    (∃ c, s.readThrough lookup pres = some c ∧ s.Checks lookup pres c ∧
      (∀ mode, (leaf.evaluate live signals signal mode).result = c.value) ∧
      (c.value = .ok (s.nodesAt pres) ↔ ∀ pre ∈ pres, s.Confirms lookup pre) ∧
      ∃ i, leaf.iterate live signals signal = .ok i ∧
        ∀ n, i.Shows signals n (c.answers n, c.left n)) ∧
    ∀ (e : Expr) (signals : Signals) (signal : SignalId) (found : List Node),
      e.Returns live signals signal found →
      ∀ node ∈ found, ∃ leaf ∈ e.leaves, leaf.Vouches live node := by
  intro pres leaf
  constructor
  · obtain ⟨c, hread, hchecks, hcourse⟩ := s.exists_readThrough lookup (s.index.answer lookup)
    have hsource : leaf.source live = .ok (.ofLookup s lookup) :=
      source_access.2 ⟨s, hlive, hvalid, rfl⟩
    have hscript : (Source.ofLookup s lookup).script =
        .ofSteps s.id (Source.entryFault? s lookup) (Entry.steps (s.index.answer lookup)) := by
      rw [Source.ofLookup, hanswers, if_pos rfl]
    obtain ⟨hvalue, i, hi, hshows⟩ := course_of_source hraised hsource
    rw [Script.course_of_quiet hraised (Source.quiet_ofLookup hquiet), hscript, hcourse]
      at hvalue hshows
    rw [ValueIndex.answers, Bool.and_eq_true] at hanswers
    exact ⟨c, hread, hchecks, fun _ => hvalue, hchecks.value_eq_ok_iff hanswers.1, i, hi, hshows⟩
  · intro e signals signal found hreturns node hmem
    obtain ⟨src, hsource, _, rfl⟩ := hreturns.exists_source
    exact (vouched_source hsource).nodes node hmem

/-- An index that answers with two texts as asked for, in the wrong order, then with another text,
and then with a position outside of the table; what it answers to an interval is right, but in the
wrong order as well. -/
theorem entries_checked_mismatch :
    let row : Bytes → Row := fun value => ⟨.text, 1, 1, 0, 0, value⟩
    let index : ValueIndex :=
      { enabled := fun _ => true, maxLength := 8
        exact := fun _ _ => [⟨2, []⟩, ⟨0, []⟩, ⟨1, []⟩, ⟨9, []⟩]
        range := fun _ => [⟨2, []⟩, ⟨0, []⟩], orderedRanges := true }
    let s : Snapshot := ⟨0, "books", { rows := #[row [98], row [97], row [98]] }, index⟩
    let lookup : Lookup := .exact .text [98]
    let interval : Lookup := .range ⟨.text, some [98], true, none, true⟩
    let leaf : Expr := access s.binding lookup false
    let union : Expr := set .union [access s.binding interval false, nodes s.binding [0]] false
    s.Checks lookup [2, 0, 1, 9]
        ⟨[⟨0, 2⟩, ⟨0, 0⟩], some (.indexInconsistent lookup 1 .mismatch)⟩ ∧
      (∀ mode, (leaf.evaluate ⟨[s]⟩ .empty 0 mode).result =
        .error (.indexInconsistent lookup 1 .mismatch)) ∧
      union.Returns ⟨[s]⟩ .empty 0 [⟨0, 0⟩, ⟨0, 2⟩] ∧
      ∀ node ∈ [⟨0, 0⟩, ⟨0, 2⟩], ∃ leaf ∈ union.leaves, leaf.Vouches ⟨[s]⟩ node := by
  intro row index s lookup interval leaf union
  have hquiet : ∀ entry ∈ s.index.answer lookup, 0 ∉ entry.raises := by
    simp [s, index, lookup, ValueIndex.answer]
  obtain ⟨⟨c, hread, hchecks, hvalue, _⟩, hvouches⟩ :=
    @entries_checked ⟨[s]⟩ s.binding s lookup .empty 0 rfl rfl rfl rfl hquiet false
  obtain rfl := Option.some.inj (hread.symm.trans (show _ = some _ from rfl))
  have hreturns : union.Returns ⟨[s]⟩ .empty 0 [⟨0, 0⟩, ⟨0, 2⟩] := .atOnce .lazy (by cbv)
  exact ⟨hchecks, hvalue, hreturns, hvouches union .empty 0 _ hreturns⟩

end Expr

end XmlStore
