import XmlStore.Proofs.LookupValues
import XmlStore.Proofs.Pulling
import XmlStore.Proofs.QueryMeaning
import XmlStore.Proofs.SetValues

/-!
# Queries are answered with what they mean

* `Query.Answered` — a query can be bound, and its compiled expression has just the nodes that the
  query asks for.
* `Query.answered_lookup`, `Query.answered_nodes`, `Query.answered_set` — one lemma for each kind of
  query; `Query.answered_of_valid` puts them together.
* `Database.Reachable.query_answered` — the same for all databases that can be made, whatever their
  options are, and for both ways of reading the answer.
-/

namespace XmlStore

/-- Listed nodes of a snapshot that is there. -/
theorem Expr.value_nodes {live : Live} {signals : Signals} {signal : SignalId}
    (hraised : signals.isRaised signal = false) {s : Snapshot}
    (hlive : live.find? s.binding = some s) (pres : List Nat) :
    ((nodes s.binding pres).value live signals signal).result =
      .ok (pres.map fun pre => ⟨s.id, pre⟩) := by
  have hsource : (nodes s.binding pres).source live =
      .ok (.ofNodes (pres.map fun pre => ⟨s.id, pre⟩)) := by
    simp only [source, Live.resolve, hlive]
    rfl
  exact value_eq_ok.2 ⟨hraised, _, hsource, Script.clean_ofNodes _, Script.heard_ofNodes _⟩

namespace Query

variable {live : Live} {signals : Signals} {signal : SignalId}

/-- A query of a snapshot can be bound, and the compiled expression has a value: the nodes that the
query asks for.  They ascend if they are said to. -/
def Answered (live : Live) (signals : Signals) (signal : SignalId) (s : Snapshot) (q : Query) :
    Prop :=
  ∃ e nodes, q.bind s = .ok e ∧
    ((e.compile live).1.value live signals signal).result = .ok nodes ∧
    ((e.compile live).1.iterable = true → nodes.Pairwise (· < ·)) ∧
    ∀ node, node ∈ nodes ↔ node.snapshot = s.id ∧ q.Asks s.table node.pre

theorem mem_map_node {pres : List Nat} {snapshot : Nat} {node : Node} :
    node ∈ pres.map (fun pre => (⟨snapshot, pre⟩ : Node)) ↔
      node.snapshot = snapshot ∧ node.pre ∈ pres := by
  simp only [List.mem_map, Node.eq_iff]
  constructor
  · rintro ⟨pre, hpre, rfl, rfl⟩
    exact ⟨rfl, hpre⟩
  · rintro ⟨hsnapshot, hpre⟩
    exact ⟨node.pre, hpre, hsnapshot.symm, rfl⟩

/-! ## Leaves -/

theorem answered_empty (hraised : signals.isRaised signal = false) (s : Snapshot) :
    Answered live signals signal s .empty :=
  ⟨.empty, [], rfl, Expr.value_empty hraised, fun _ => List.Pairwise.nil,
    fun _ => ⟨fun h => (by cases h), fun h => h.2.elim⟩⟩

theorem answered_nodes (hraised : signals.isRaised signal = false) {s : Snapshot}
    (hlive : live.find? s.binding = some s) {pres : List Nat} (h : ∀ pre ∈ pres, pre < s.size) :
    Answered live signals signal s (.nodes pres) := by
  have hbind : Expr.ofPres s pres = .ok (.nodes s.binding pres) := by
    have hnone : (pres.find? fun pre => decide (s.size ≤ pre)) = none := by
      rw [List.find?_eq_none]
      exact fun pre hpre => by simpa using h pre hpre
    rw [Expr.ofPres, hnone]
  exact ⟨_, _, hbind, Expr.value_nodes hraised hlive pres,
    fun hiterable => pairwise_nodes (isAscending_nat.1 hiterable) s.id, fun node => mem_map_node⟩

section Built

variable {number : Nat} {name : String} {t : Table} {options : Options}

theorem mem_found_iff {s : Snapshot} {l : Lookup} {pre : Nat} :
    pre ∈ s.found l ↔ (lookup l).Asks s.table pre := by
  rw [Snapshot.mem_found]
  simp only [Asks, Snapshot.selects, Bool.and_eq_true, beq_iff_eq, Lookup.accepts_iff_wants]

/-- What is promised to ascend does so: the answers of a built index that are in document order are
the exact ones. -/
theorem pairwise_listed {l : Lookup}
    (h : (Snapshot.ofTable number name t options).promises l = true) :
    ((Snapshot.ofTable number name t options).listed l).Pairwise (· < ·) := by
  have hfound := (Snapshot.ofTable number name t options).pairwise_found l
  unfold Snapshot.promises at h
  unfold Snapshot.listed
  split
  · rename_i hanswers
    rw [hanswers] at h
    cases l with
    | exact kind value => exact Snapshot.answer_exact hanswers ▸ hfound
    | range i => cases h
  · exact hfound

theorem answered_lookup (hraised : signals.isRaised signal = false)
    (hlive : live.find? (Snapshot.ofTable number name t options).binding =
      some (Snapshot.ofTable number name t options))
    {l : Lookup} (hvalid : l.fault? = none) :
    Answered live signals signal (Snapshot.ofTable number name t options) (.lookup l) := by
  refine ⟨_, ((Snapshot.ofTable number name t options).listed l).map fun pre => ⟨number, pre⟩, rfl,
    Snapshot.value_ofTable hlive hvalid hraised _, ?_, ?_⟩
  · intro hiterable
    have hpromises := (Expr.ordersLookup_eq_promises hlive l).symm.trans hiterable
    exact pairwise_nodes (pairwise_listed hpromises) number
  · intro node
    rw [mem_map_node, (Snapshot.perm_listed hvalid).mem_iff, mem_found_iff]
    rfl

end Built

/-! ## Operators -/

theorem selects_imp_exists {α : Type} {op : SetOp} {has : α → Prop} {xs : List α}
    (h : op.Selects has xs) : ∃ x ∈ xs, has x := by
  cases op with
  | union => exact h
  | intersect =>
    obtain ⟨x, hx⟩ := List.exists_mem_of_ne_nil xs h.1
    exact ⟨x, hx, h.2 x hx⟩
  | except =>
    cases xs with
    | nil => exact h.elim
    | cons x rest => exact ⟨x, List.mem_cons_self, h.1⟩

/-- Queries that are answered one by one can be bound together. -/
theorem exists_bindAll {s : Snapshot} {qs : List Query}
    (h : ∀ q ∈ qs, Answered live signals signal s q) :
    ∃ es, bindAll s qs = .ok es ∧
      (∀ e ∈ (Expr.compileAll live es).1, Expr.HasValue live signals signal e ∧
        ∀ node, Expr.hasNode live signals signal node e → node.snapshot = s.id) ∧
      ∀ pre, (Expr.compileAll live es).1.map (Expr.hasNode live signals signal ⟨s.id, pre⟩) =
        asksAll s.table pre qs := by
  induction qs with
  | nil => exact ⟨[], rfl, fun e he => (by cases he), fun _ => rfl⟩
  | cons q rest ih =>
    obtain ⟨⟨e, found, hbind, hvalue, hasc, hmem⟩, hrest⟩ := List.forall_mem_cons.1 h
    obtain ⟨es, hbindAll, hvalues, hasks⟩ := ih hrest
    refine ⟨e :: es, by rw [bindAll, hbind, hbindAll]; rfl, ?_, ?_⟩
    · rw [Expr.compileAll]
      refine List.forall_mem_cons.2 ⟨⟨⟨found, hvalue, hasc⟩, fun node hn => ?_⟩, hvalues⟩
      exact ((hmem node).1 ((Expr.hasNode_iff hvalue node).1 hn)).1
    · intro pre
      rw [Expr.compileAll, List.map_cons, hasks pre, asksAll]
      congr 1
      refine propext ((Expr.hasNode_iff hvalue _).trans ((hmem _).trans ?_))
      exact ⟨fun hn => hn.2, fun hn => ⟨rfl, hn⟩⟩

/-- **An operator on queries that are answered.** -/
theorem answered_set (hraised : signals.isRaised signal = false) {s : Snapshot} (op : SetOp)
    {qs : List Query} (h : ∀ q ∈ qs, Answered live signals signal s q) :
    Answered live signals signal s (.set op qs) := by
  obtain ⟨es, hbind, hvalues, hasks⟩ := exists_bindAll h
  obtain ⟨nodes, hvalue, hasc, hmem⟩ :=
    Expr.value_combine hraised op fun e he => (hvalues e he).1
  have hselects : ∀ pre, op.Selects (Expr.hasNode live signals signal ⟨s.id, pre⟩)
      (Expr.compileAll live es).1 ↔ (set op qs).Asks s.table pre := by
    intro pre
    rw [Asks]
    exact op.selects_of_map_eq ((hasks pre).trans (List.map_id' _).symm)
  refine ⟨.ofSet op es, nodes, by rw [bind, hbind]; rfl, hvalue, fun _ => hasc, ?_⟩
  intro node
  obtain ⟨snapshot, pre⟩ := node
  rw [hmem]
  constructor
  · intro hn
    obtain ⟨e, he, hin⟩ := selects_imp_exists hn
    obtain rfl : snapshot = s.id := (hvalues e he).2 _ hin
    exact ⟨rfl, (hselects pre).1 hn⟩
  · rintro ⟨hsnapshot, hn⟩
    have hsnapshot : snapshot = s.id := hsnapshot
    subst hsnapshot
    exact (hselects pre).2 hn

theorem iterable_of_bind_set {s : Snapshot} {op : SetOp} {qs : List Query} {e : Expr}
    (h : (set op qs).bind s = .ok e) : (e.compile live).1.iterable = true := by
  rw [bind] at h
  cases hbind : bindAll s qs with
  | error fault => rw [hbind] at h; cases h
  | ok es =>
    rw [hbind] at h
    obtain rfl := Except.ok.inj h
    exact Expr.iterable_combine op _

/-- **Valid queries are answered.**  The induction is on the query. -/
theorem answered_of_valid {number : Nat} {name : String} {t : Table} {options : Options}
    (hraised : signals.isRaised signal = false)
    (hlive : live.find? (Snapshot.ofTable number name t options).binding =
      some (Snapshot.ofTable number name t options))
    {q : Query} (hq : q.Valid t.size) :
    Answered live signals signal (Snapshot.ofTable number name t options) q := by
  induction q with
  | empty => exact answered_empty hraised _
  | lookup l => exact answered_lookup hraised hlive (fault?_of_valid hq)
  | nodes pres =>
    cases hq with
    | nodes hpres => exact answered_nodes hraised hlive hpres
  | set op qs ih =>
    cases hq with
    | set _ hqs => exact answered_set hraised op fun q hq => ih q hq (hqs q hq)

end Query

/-- **Queries are answered with what they mean.**  Every valid query of the current snapshot of a
database can be bound, compiled and evaluated in both modes, and gives just the nodes that it asks
for; the result of an operator is in document order, each node once.  The meaning of a query knows
nothing of options and indexes, so neither matters for the answer. -/
theorem Database.Reachable.query_answered {d : Database} (hd : d.Reachable) {q : Query}
    (hq : q.Valid d.current.size) {live : Live}
    (hlive : live.find? d.current.binding = some d.current) {signals : Signals}
    {signal : SignalId} (hraised : signals.isRaised signal = false) :
    ∃ e nodes, q.bind d.current = .ok e ∧
      (∀ mode, ((e.compile live).1.evaluate live signals signal mode).result = .ok nodes) ∧
      (∃ run, (e.compile live).1.begin live signals signal = .ok run ∧ run.Pulls signals nodes) ∧
      (∀ node, node ∈ nodes ↔
        node.snapshot = d.current.id ∧ q.Asks d.current.table node.pre) ∧
      ∀ op qs, q = .set op qs → (nodes.map Node.pre).Pairwise (· < ·) := by
  obtain ⟨number, t, hcurrent⟩ := hd.exists_ofTable
  rw [hcurrent] at hq hlive ⊢
  obtain ⟨e, nodes, hbind, hvalue, hasc, hmem⟩ := Query.answered_of_valid hraised hlive hq
  refine ⟨e, nodes, hbind, fun _ => hvalue, Expr.exists_pulls hvalue, hmem, ?_⟩
  intro op qs h
  subst h
  rw [List.pairwise_map]
  refine (hasc (Query.iterable_of_bind_set hbind)).imp_of_mem fun {a b} ha hb hlt => ?_
  -- all nodes are of one snapshot, so their order is that of their positions
  have hsnapshot : a.snapshot = b.snapshot := ((hmem a).1 ha).1.trans ((hmem b).1 hb).1.symm
  rw [Node.lt_def] at hlt
  omega

/-- A union asked of a database with one document. -/
theorem Database.query_answered_union :
    let fragment : Table := { rows := #[⟨.document, 0, 2, 0, 0, []⟩, ⟨.text, 1, 1, 0, 0, [98]⟩] }
    let created : Database := ⟨"books", {}, .ofTable 0 "books" .empty {}, false⟩
    let d := (created.add 1 [97] fragment).database
    let live : Live := ⟨[d.current]⟩
    let q : Query := .set .union [.lookup (.exact .text [98]), .nodes [1, 0]]
    ∃ e nodes, q.bind d.current = .ok e ∧
      (∀ mode, ((e.compile live).1.evaluate live .empty 0 mode).result = .ok nodes) ∧
      (∃ run, (e.compile live).1.begin live .empty 0 = .ok run ∧ run.Pulls .empty nodes) ∧
      (∀ node, node ∈ nodes ↔
        node.snapshot = d.current.id ∧ q.Asks d.current.table node.pre) ∧
      ∀ op qs, q = .set op qs → (nodes.map Node.pre).Pairwise (· < ·) := by
  intro fragment created d live q
  have hcreated : Database.create 0 "books" {} = .ok (created, _) := rfl
  have hreachable : d.Reachable := .added 1 [97] fragment (.created hcreated)
  have hsize : d.current.size = 2 := by decide
  refine hreachable.query_answered (.set _ fun q hq => ?_)
    (by simp [live, Live.find?, Snapshot.binding]) rfl
  simp only [List.mem_cons, List.not_mem_nil, or_false] at hq
  rcases hq with rfl | rfl
  · exact .exact _ _
  · exact .nodes (by rw [hsize]; decide)

end XmlStore
