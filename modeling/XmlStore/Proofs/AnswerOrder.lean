import Mathlib
import XmlStore.Proofs.Compiling
import XmlStore.Proofs.LookupCourses
import XmlStore.Proofs.QueryAnswers

/-!
# The order of answers

Operators sort their operands as far as needed, so what they return is in document order.  A leaf
that nobody sorts returns its nodes as it finds them.

* `Snapshot.keepsOrder_ofTable` — a built index promises document order for exact lookups only, and
  keeps to it.
* `Snapshot.Arranges`, `Expr.Arranges` — the order of an answer, by the root of the expression.
* `Expr.returns_arranged` — compiled expressions over the snapshots of databases return their nodes
  in this order, which is document order unless the root is a list or an interval that the index
  answers.
-/

namespace XmlStore

/-- Nodes are listed in document order, each of them once. -/
def Node.InOrder (nodes : List Node) : Prop := nodes.Pairwise fun a b => a.diff b = .lt

theorem Node.inOrder_iff {nodes : List Node} : InOrder nodes ↔ nodes.Pairwise (· < ·) := by
  simp only [InOrder, diff_eq_lt]

theorem Snapshot.inOrder_nodesAt {s : Snapshot} {pres : List Nat} :
    Node.InOrder (s.nodesAt pres) ↔ pres.Pairwise (· < ·) := by
  rw [Node.inOrder_iff, nodesAt, List.pairwise_map]
  constructor
  · exact fun h => h.imp fun {a b} hlt => by simpa [Node.lt_def] using hlt
  · exact fun h => h.imp fun {a b} hlt => by simpa [Node.lt_def] using hlt

/-! ## Lookups -/

namespace Snapshot

variable {number : Nat} {name : String} {t : Table} {options : Options}

/-- **A built index keeps its promises of order**: those for exact lookups, as it makes no other. -/
theorem keepsOrder_ofTable : (ofTable number name t options).index.KeepsOrder := by
  intro lookup horders
  cases lookup with
  | range i => cases horders
  | exact kind value =>
    simp only [ofTable, ValueIndex.answer, BuiltIndex.toValueIndex]
    split
    · rename_i values hvalues
      obtain rfl := values?_ofTable hvalues
      have hpairs := (t.pairwise_valuePairs kind).sublist
        (List.filter_sublist (p := fun pair => pair.1.length ≤ options.maxLength.toNat))
      simp only [Values.ofTable, List.partition_eq_filter_filter, Postings.find_ofPairs,
        List.map_map]
      exact List.pairwise_map.2 (hpairs.sublist List.filter_sublist)
    · exact List.Pairwise.nil

/-- The order in which the nodes of a lookup come: in document order if it is exact or scanned for;
else the values within the length limit come first, then the longer ones, each group in the order
of values and positions. -/
structure Arranges (s : Snapshot) (lookup : Lookup) (nodes : List Node) : Prop where
  inOrder : lookup.isExact = true ∨ s.index.answers lookup = false → Node.InOrder nodes
  byValue : lookup.isExact = false → s.index.answers lookup = true → ∃ short long : List Nat,
    nodes = s.nodesAt (short ++ long) ∧ (short ++ long).Nodup ∧
    (∀ pre ∈ short, (s.table.valueAt pre).length ≤ s.index.maxLength) ∧
    (∀ pre ∈ long, s.index.maxLength < (s.table.valueAt pre).length) ∧
    short.Pairwise s.table.Before ∧ long.Pairwise s.table.Before

theorem arranges_listed {lookup : Lookup} (hvalid : lookup.fault? = none) :
    let s := ofTable number name t options
    s.Arranges lookup (s.nodesAt (s.listed lookup)) := by
  intro s
  constructor
  case inOrder =>
    intro hsame
    have hlisted : s.listed lookup = s.found lookup := listed_eq_found hsame
    rw [hlisted]
    exact inOrder_nodesAt.2 (s.pairwise_found lookup)
  case byValue =>
    intro hrange hanswers
    cases lookup with
    | exact kind value => cases hrange
    | range i =>
      obtain ⟨short, long, hanswer, hshort, hlong, hshortAsc, hlongAsc⟩ :=
        answer_range (isInverted_of_valid hvalid) hanswers
      have hlisted : s.listed (.range i) = short ++ long := by
        rw [listed, if_pos hanswers]
        exact hanswer
      have hnodup := (perm_of_parts hshort hlong).nodup_iff.2
        ((s.pairwise_found _).imp Nat.ne_of_lt)
      refine ⟨short, long, by rw [hlisted], hnodup, ?_, ?_, hshortAsc, hlongAsc⟩
      · intro pre hpre
        exact of_decide_eq_true (List.mem_filter.1 (hshort.subset hpre)).2
      · intro pre hpre
        have hnot := (List.mem_filter.1 (hlong.subset hpre)).2
        exact Nat.lt_of_not_le (of_decide_eq_false (Bool.not_eq_true' _ ▸ hnot))

end Snapshot

/-! ## Expressions -/

namespace Expr

/-- The order in which nodes are returned, by the root of the expression: a list returns its
positions as they are listed, a lookup as its snapshot arranges them, and everything else returns
them in document order. -/
def Arranges (live : Live) (found : List Node) : Expr → Prop
  | empty => Node.InOrder found
  | nodes binding pres => ∃ s, live.find? binding = some s ∧ found = s.nodesAt pres
  | access binding lookup _ => ∃ s, live.find? binding = some s ∧ s.Arranges lookup found
  | set .. => Node.InOrder found

variable {live : Live} {signals : Signals} {signal : SignalId} {e : Expr} {found : List Node}

/-- The nodes in the script of an expression that is said to ascend are in document order. -/
theorem inOrder_script (hindexes : ∀ s ∈ live.snapshots, s.index.KeepsOrder) (he : e.Promised live)
    (hiterable : e.iterable = true) {src : Source} (hsource : e.source live = .ok src) :
    Node.InOrder src.script.nodes := by
  have hascends : (src.script.heard fun _ => false).Pairwise (· < ·) :=
    ascends_of_iterable hindexes he hiterable hsource
  rw [Script.heard, Step.heard_of_quiet (Step.allQuiet_deaf _)] at hascends
  exact Node.inOrder_iff.2 hascends

/-- What a compiled expression that is said to ascend returns is in document order. -/
theorem inOrder_of_iterable (hindexes : ∀ s ∈ live.snapshots, s.index.KeepsOrder)
    (hiterable : (e.compile live).1.iterable = true)
    (h : (e.compile live).1.Returns live signals signal found) : Node.InOrder found := by
  obtain ⟨src, hsource, _, rfl⟩ := h.exists_source
  exact inOrder_script hindexes (promised_compile live e) hiterable hsource

/-- **Compiled expressions return their nodes in a known order**, read at once or on request.  An
operator returns them in document order, each node once, whatever the options of the databases are;
so does everything that is said to ascend.  What an index answers to an interval is returned value
by value, and listed positions as they are listed. -/
theorem returns_arranged (hlive : ∀ s ∈ live.snapshots, ∃ d : Database, d.Reachable ∧ d.current = s)
    (h : (e.compile live).1.Returns live signals signal found) :
    ((e.compile live).1.iterable = true → Node.InOrder found) ∧ e.Arranges live found := by
  have hindexes : ∀ s ∈ live.snapshots, s.index.KeepsOrder := by
    intro s hs
    obtain ⟨d, hd, rfl⟩ := hlive s hs
    obtain ⟨number, t, hcurrent⟩ := hd.exists_ofTable
    rw [hcurrent]
    exact Snapshot.keepsOrder_ofTable
  refine ⟨fun hiterable => inOrder_of_iterable hindexes hiterable h, ?_⟩
  obtain ⟨src, hsource, hfault, rfl⟩ := h.exists_source
  cases e with
  | empty => exact inOrder_of_iterable hindexes rfl h
  | nodes binding pres =>
    obtain ⟨s, hs, rfl⟩ := source_nodes hsource
    exact ⟨s, hs, Script.nodes_ofNodes _⟩
  | access binding lookup iterable =>
    obtain ⟨s, hs, hvalid, rfl⟩ := source_access.1 hsource
    obtain ⟨d, hd, rfl⟩ := hlive s (List.mem_of_find?_eq_some hs)
    obtain ⟨number, t, hcurrent⟩ := hd.exists_ofTable
    refine ⟨d.current, hs, ?_⟩
    rw [Source.nodes_ofLookup hfault, hcurrent]
    exact Snapshot.arranges_listed hvalid
  | set op es iterable =>
    refine inOrder_of_iterable hindexes ?_ h
    rw [compile_set]
    exact iterable_combine op _

/-- A union over an interval that the index answers, asked of a database with one element, whose
attributes are "b" and "a". -/
theorem returns_arranged_union :
    let created : Database := ⟨"books", {}, .ofTable 0 "books" .empty {}, false⟩
    let element : Fragment := .element [114] [([120], [98]), ([121], [97])] []
    let d := (created.addFragment 1 [97] element).database
    let live : Live := ⟨[d.current]⟩
    let e : Expr :=
      .set .union [.ofLookup d.current (.range ⟨.attribute, none, true, none, true⟩)] false
    let found : List Node := [⟨1, 2⟩, ⟨1, 3⟩]
    (∀ s ∈ live.snapshots, ∃ d : Database, d.Reachable ∧ d.current = s) ∧
      (e.compile live).1.Returns live .empty 0 found ∧
      ((e.compile live).1.iterable = true → Node.InOrder found) ∧ e.Arranges live found := by
  intro created element d live e found
  have hcreated : Database.create 0 "books" {} = .ok (created, _) := rfl
  have hlive : ∀ s ∈ live.snapshots, ∃ d : Database, d.Reachable ∧ d.current = s := by
    intro s hs
    obtain rfl := List.mem_singleton.1 hs
    exact ⟨d, .added 1 [97] _ (.created hcreated), rfl⟩
  have hreturns : (e.compile live).1.Returns live .empty 0 found := .atOnce .lazy (by cbv)
  exact ⟨hlive, hreturns, returns_arranged hlive hreturns⟩

/-- The same interval as the whole query: in both modes the attributes come in the order of their
values, which is not their order in the document. -/
theorem returns_by_value :
    let created : Database := ⟨"books", {}, .ofTable 0 "books" .empty {}, false⟩
    let element : Fragment := .element [114] [([120], [98]), ([121], [97])] []
    let d := (created.addFragment 1 [97] element).database
    let live : Live := ⟨[d.current]⟩
    let q : Query := .lookup (.range ⟨.attribute, none, true, none, true⟩)
    ∃ e found, d.Reachable ∧ q.bind d.current = .ok e ∧
      (∀ mode, ((e.compile live).1.evaluate live .empty 0 mode).result = .ok found) ∧
      ¬ Node.InOrder found := by
  intro created element d live q
  have hcreated : Database.create 0 "books" {} = .ok (created, _) := rfl
  refine ⟨.ofLookup d.current (.range ⟨.attribute, none, true, none, true⟩), [⟨1, 3⟩, ⟨1, 2⟩],
    .added 1 [97] _ (.created hcreated), rfl, ?_, ?_⟩
  · intro mode
    cases mode <;> cbv
  · rw [Node.inOrder_iff]
    decide

end Expr

end XmlStore
