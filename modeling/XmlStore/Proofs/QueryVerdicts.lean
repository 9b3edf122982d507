import XmlStore.Host.Call
import XmlStore.Proofs.Compiling
import XmlStore.Proofs.OpeningFaults
import XmlStore.Proofs.QueryAnswers

/-!
# What a hosted query can come to

A query of the current snapshot of a database is refused for the first position that it lists
outside of the snapshot.  Otherwise it is compiled, and the compiled expression fails for an
interval that is still in it and inverted; if there is none, it has a value.

* `Query.listed` — the positions that a query lists, from left to right, and `Query.bind_cases` what
  binding makes of them.
* `Expr.Bound` — expressions over one snapshot that list positions in it.  `Expr.exists_value` says
  that they have a value unless an interval in them is inverted.
* `Hosted.verdict` — the three things that a hosted query can come to.
* `Host.ask_query` — the same as the host answers it.
-/

namespace XmlStore

/-! ## Binding -/

namespace Query

mutual

/-- The positions that a query lists, from left to right. -/
def listed : Query → List Nat
  | nodes pres => pres
  | set _ operands => listedAll operands
  | _ => []

/-- The positions that several queries list. -/
def listedAll : List Query → List Nat
  | [] => []
  | q :: rest => listed q ++ listedAll rest

end

/-- The first position that a query lists outside of a snapshot of this size. -/
def outside? (size : Nat) (q : Query) : Option Nat :=
  q.listed.find? fun pre => decide (size ≤ pre)

theorem outside?_eq_none {size : Nat} {q : Query} :
    q.outside? size = none ↔ ∀ pre ∈ q.listed, pre < size := by
  simp only [outside?, List.find?_eq_none, decide_eq_true_eq, Nat.not_le]

end Query

namespace Expr

/-- A leaf over a snapshot that lists positions in it. -/
inductive LeafOf (s : Snapshot) : Expr → Prop where
  | empty : LeafOf s empty
  | nodes {pres : List Nat} : (∀ pre ∈ pres, pre < s.size) → LeafOf s (nodes s.binding pres)
  | access {lookup : Lookup} {iterable : Bool} : LeafOf s (access s.binding lookup iterable)

/-- An expression over a snapshot that lists positions in it. -/
def Bound (s : Snapshot) (e : Expr) : Prop := ∀ leaf ∈ e.leaves, LeafOf s leaf

theorem bound_set {s : Snapshot} {op : SetOp} {es : List Expr} {iterable : Bool} :
    (set op es iterable).Bound s ↔ ∀ e ∈ es, e.Bound s := by
  simp only [Bound, leaves, mem_leavesAll]
  constructor
  · intro h e he leaf hleaf
    exact h leaf ⟨e, he, hleaf⟩
  · rintro h leaf ⟨e, he, hleaf⟩
    exact h e he leaf hleaf

theorem bound_ofPres {s : Snapshot} {pres : List Nat}
    (h : (pres.find? fun pre => decide (s.size ≤ pre)) = none) :
    (nodes s.binding pres).Bound s := by
  intro leaf hleaf
  obtain rfl := List.mem_singleton.1 hleaf
  refine .nodes fun pre hpre => ?_
  simpa using List.find?_eq_none.1 h pre hpre

/-- Compiling keeps the snapshot and the listed positions. -/
theorem Bound.compile {s : Snapshot} {e : Expr} (h : e.Bound s) (live : Live) :
    (Expr.compile live e).1.Bound s := by
  induction e with
  | empty => exact h
  | nodes => exact h
  | access binding lookup iterable =>
    intro leaf hleaf
    obtain rfl := List.mem_singleton.1 hleaf
    obtain hbound := h _ (List.mem_singleton.2 rfl)
    cases hbound
    exact .access
  | set op es iterable ih =>
    rw [compile_set, compileAll_eq_map]
    intro leaf hleaf
    obtain rfl | ⟨compiled, hcompiled, hin⟩ := leaves_combine hleaf
    · exact .empty
    · obtain ⟨e, he, rfl⟩ := List.mem_map.1 hcompiled
      exact ih e he (bound_set.1 h e he) leaf hin

end Expr

namespace Query

variable {s : Snapshot}

/-- What comes of binding some queries that list these positions. -/
def BindsTo {α : Type} (s : Snapshot) (listed : List Nat) (ok : α → Prop) : Except Fault α → Prop
  | .ok a => (listed.find? fun pre => decide (s.size ≤ pre)) = none ∧ ok a
  | .error fault => ∃ pre, (listed.find? fun pre => decide (s.size ≤ pre)) = some pre ∧
      fault = .invalidNode s.name pre s.size

theorem bindAll_cases_of {qs : List Query}
    (h : ∀ q ∈ qs, BindsTo s q.listed (Expr.Bound s) (q.bind s)) :
    BindsTo s (listedAll qs) (fun es => ∀ e ∈ es, Expr.Bound s e) (bindAll s qs) := by
  induction qs with
  | nil => exact ⟨rfl, fun e he => absurd he List.not_mem_nil⟩
  | cons q rest ih =>
    obtain ⟨hfirst, hrest⟩ := List.forall_mem_cons.1 h
    have hothers := ih hrest
    rw [bindAll, listedAll]
    cases hbind : q.bind s with
    | error fault =>
      rw [hbind] at hfirst
      obtain ⟨pre, hpre, rfl⟩ := hfirst
      exact ⟨pre, by rw [List.find?_append, hpre]; rfl, rfl⟩
    | ok e =>
      rw [hbind] at hfirst
      obtain ⟨hnone, he⟩ := hfirst
      cases hbindAll : bindAll s rest with
      | error fault =>
        rw [hbindAll] at hothers
        obtain ⟨pre, hpre, rfl⟩ := hothers
        exact ⟨pre, by rw [List.find?_append, hnone, hpre]; rfl, rfl⟩
      | ok es =>
        rw [hbindAll] at hothers
        obtain ⟨hnone', hes⟩ := hothers
        exact ⟨by rw [List.find?_append, hnone, hnone']; rfl, List.forall_mem_cons.2 ⟨he, hes⟩⟩

/-- **Binding fails with the first position outside of the snapshot**, if the query lists one.  The
induction is on the query. -/
theorem bind_cases (s : Snapshot) (q : Query) : BindsTo s q.listed (Expr.Bound s) (q.bind s) := by
  induction q with
  | empty =>
    refine ⟨rfl, fun leaf hleaf => ?_⟩
    obtain rfl := List.mem_singleton.1 hleaf
    exact .empty
  | lookup l =>
    refine ⟨rfl, fun leaf hleaf => ?_⟩
    obtain rfl := List.mem_singleton.1 hleaf
    exact .access
  | nodes pres =>
    rw [bind, Expr.ofPres, listed]
    split
    · rename_i pre hpre
      exact ⟨pre, hpre, rfl⟩
    · rename_i hnone
      exact ⟨hnone, Expr.bound_ofPres hnone⟩
  | set op qs ih =>
    have hall := bindAll_cases_of ih
    rw [bind, listed]
    cases hbindAll : bindAll s qs with
    | error fault =>
      rw [hbindAll] at hall
      exact hall
    | ok es =>
      rw [hbindAll] at hall
      exact ⟨hall.1, Expr.bound_set.2 hall.2⟩

end Query

/-! ## Inverted intervals -/

namespace Expr

variable {live : Live} {s : Snapshot}

/-- An expression in which an interval is inverted. -/
def HasInverted (e : Expr) : Prop :=
  ∃ path binding interval iterable, LeafAt e path (access binding (.range interval) iterable) ∧
    interval.isInverted = true

/-- The leftmost inverted interval of an expression is at this path. -/
structure FirstInverted (e : Expr) (path : Path) (interval : Interval) : Prop where
  inverted : interval.isInverted = true
  leaf : ∃ binding iterable, LeafAt e path (access binding (.range interval) iterable)
  first : ∀ path' binding interval' iterable,
    LeafAt e path' (access binding (.range interval') iterable) → interval'.isInverted = true →
    ¬ path'.positions < path.positions

namespace FirstInverted

variable {e : Expr} {path path' : Path} {interval interval' : Interval}

theorem hasInverted (h : FirstInverted e path interval) : e.HasInverted := by
  obtain ⟨binding, iterable, hleaf⟩ := h.leaf
  exact ⟨path, binding, interval, iterable, hleaf, h.inverted⟩

theorem unique (h : FirstInverted e path interval) (h' : FirstInverted e path' interval') :
    path = path' ∧ interval = interval' := by
  obtain ⟨binding, iterable, hleaf⟩ := h.leaf
  obtain ⟨binding', iterable', hleaf'⟩ := h'.leaf
  have hpositions := List.le_antisymm (h.first _ _ _ _ hleaf' h'.inverted)
    (h'.first _ _ _ _ hleaf h.inverted)
  obtain ⟨rfl, hsame⟩ := hleaf.unique hleaf' hpositions
  cases hsame
  exact ⟨rfl, rfl⟩

end FirstInverted

theorem LeafAt.mem_leaves {e leaf : Expr} {path : Path} (h : LeafAt e path leaf) :
    leaf ∈ e.leaves := by
  induction h with
  | empty | nodes | access => exact List.mem_singleton.2 rfl
  | set hi _ ih => exact mem_leavesAll.2 ⟨_, List.mem_of_getElem? hi, ih⟩

/-- **A leaf over a snapshot that is there** is blocked for an inverted interval only. -/
theorem LeafOf.blocked_iff {leaf : Expr} {cause : Fault} (h : LeafOf s leaf)
    (hlive : live.find? s.binding = some s) :
    Blocked live leaf cause ↔ ∃ binding interval iterable,
      leaf = .access binding (.range interval) iterable ∧ interval.isInverted = true ∧
        cause = .invertedRange interval := by
  constructor
  · intro hblocked
    cases hblocked with
    | goneNodes hgone =>
      cases h
      cases hgone.symm.trans hlive
    | goneAccess hgone =>
      cases h
      cases hgone.symm.trans hlive
    | @inverted binding s' interval low high iterable _ hmin hmax hlt =>
      exact ⟨binding, interval, iterable, rfl,
        interval.isInverted_iff.2 ⟨low, high, hmin, hmax, hlt⟩, rfl⟩
  · rintro ⟨binding, interval, iterable, rfl, hinverted, rfl⟩
    obtain ⟨low, high, hmin, hmax, hlt⟩ := interval.isInverted_iff.1 hinverted
    cases h
    exact .inverted hlive hmin hmax hlt

variable {e : Expr}

theorem Bound.hasBlocked_iff (h : e.Bound s) (hlive : live.find? s.binding = some s) :
    HasBlocked live e ↔ e.HasInverted := by
  constructor
  · rintro ⟨path, leaf, cause, hleaf, hblocked⟩
    obtain ⟨binding, interval, iterable, rfl, hinverted, _⟩ :=
      ((h leaf hleaf.mem_leaves).blocked_iff hlive).1 hblocked
    exact ⟨path, binding, interval, iterable, hleaf, hinverted⟩
  · rintro ⟨path, binding, interval, iterable, hleaf, hinverted⟩
    exact ⟨path, _, _, hleaf, ((h _ hleaf.mem_leaves).blocked_iff hlive).2
      ⟨binding, interval, iterable, rfl, hinverted, rfl⟩⟩

/-- The leftmost leaf that is blocked is the leftmost inverted interval. -/
theorem Bound.firstInverted (h : e.Bound s) (hlive : live.find? s.binding = some s) {path : Path}
    {cause : Fault} (hfirst : FirstBlocked live e path cause) :
    ∃ interval, FirstInverted e path interval ∧ cause = .invertedRange interval := by
  obtain ⟨leaf, hleaf, hblocked⟩ := hfirst.blocked
  obtain ⟨binding, interval, iterable, rfl, hinverted, rfl⟩ :=
    ((h leaf hleaf.mem_leaves).blocked_iff hlive).1 hblocked
  refine ⟨interval, ⟨hinverted, ⟨binding, iterable, hleaf⟩, ?_⟩, rfl⟩
  intro path' binding' interval' iterable' hleaf' hinverted'
  exact hfirst.first path' _ _ hleaf' (((h _ hleaf'.mem_leaves).blocked_iff hlive).2
    ⟨binding', interval', iterable', rfl, hinverted', rfl⟩)

end Expr

/-! ## Values -/

namespace Expr

variable {live : Live} {signals : Signals} {signal : SignalId} {number : Nat} {name : String}
  {t : Table} {options : Options}

/-- An expression has a value, which is in a snapshot and ascends if it is said to. -/
def HasValueIn (live : Live) (signals : Signals) (signal : SignalId) (s : Snapshot) (e : Expr) :
    Prop :=
  ∃ nodes, (e.value live signals signal).result = .ok nodes ∧
    (e.iterable = true → nodes.Pairwise (· < ·)) ∧
    ∀ node ∈ nodes, node.snapshot = s.id ∧ node.pre < s.size

theorem hasValueIn_nodes (hraised : signals.isRaised signal = false) {s : Snapshot}
    (hlive : live.find? s.binding = some s) {pres : List Nat} (h : ∀ pre ∈ pres, pre < s.size) :
    HasValueIn live signals signal s (nodes s.binding pres) := by
  refine ⟨_, value_nodes hraised hlive pres,
    fun hiterable => pairwise_nodes (isAscending_nat.1 hiterable) s.id, fun node hnode => ?_⟩
  obtain ⟨pre, hpre, rfl⟩ := List.mem_map.1 hnode
  exact ⟨rfl, h pre hpre⟩

theorem hasValueIn_access (hraised : signals.isRaised signal = false)
    (hlive : live.find? (Snapshot.ofTable number name t options).binding =
      some (Snapshot.ofTable number name t options))
    {lookup : Lookup} (hvalid : lookup.fault? = none) {iterable : Bool}
    (hpromised : iterable = true →
      (Snapshot.ofTable number name t options).promises lookup = true) :
    HasValueIn live signals signal (Snapshot.ofTable number name t options)
      (access (Snapshot.ofTable number name t options).binding lookup iterable) := by
  refine ⟨_, Snapshot.value_ofTable hlive hvalid hraised iterable, fun hiterable => ?_,
    fun node hnode => ?_⟩
  · exact pairwise_nodes (Query.pairwise_listed (hpromised hiterable)) number
  · obtain ⟨pre, hpre, rfl⟩ := List.mem_map.1 hnode
    obtain ⟨row, hrow, _⟩ := Snapshot.mem_found.1 ((Snapshot.perm_listed hvalid).mem_iff.1 hpre)
    exact ⟨rfl, (Array.getElem?_eq_some_iff.1 hrow).1⟩

theorem hasValueIn_set (hraised : signals.isRaised signal = false) {s : Snapshot} (op : SetOp)
    {es : List Expr} (h : ∀ e ∈ es, HasValueIn live signals signal s e) (iterable : Bool) :
    HasValueIn live signals signal s (set op es iterable) := by
  have hvalues : ∀ e ∈ es, HasValue live signals signal e := fun e he => by
    obtain ⟨nodes, hvalue, hascends, _⟩ := h e he
    exact ⟨nodes, hvalue, hascends⟩
  obtain ⟨nodes, hselection⟩ := value_set hraised op hvalues iterable
  refine ⟨nodes, hselection.value, fun _ => hselection.ascends, fun node hnode => ?_⟩
  obtain ⟨e, he, hin⟩ := Query.selects_imp_exists ((hselection.mem node).1 hnode)
  obtain ⟨found, hvalue, _, hplaces⟩ := h e he
  exact hplaces node ((hasNode_iff hvalue node).1 hin)

/-- **An expression over a snapshot has a value unless an interval is inverted.**  The induction is
on the expression. -/
theorem exists_value (hraised : signals.isRaised signal = false)
    (hlive : live.find? (Snapshot.ofTable number name t options).binding =
      some (Snapshot.ofTable number name t options))
    {e : Expr} (hbound : e.Bound (.ofTable number name t options)) (hpromised : e.Promised live)
    (hinverted : ¬ e.HasInverted) :
    HasValueIn live signals signal (.ofTable number name t options) e := by
  induction e with
  | empty =>
    exact ⟨[], value_empty hraised, fun _ => List.Pairwise.nil, fun _ hnode => by cases hnode⟩
  | nodes binding pres =>
    have hleaf := hbound _ (List.mem_singleton.2 rfl)
    cases hleaf with
    | nodes hpres => exact hasValueIn_nodes hraised hlive hpres
  | access binding lookup iterable =>
    have hleaf := hbound _ (List.mem_singleton.2 rfl)
    cases hleaf
    have hvalid : lookup.fault? = none := by
      cases lookup with
      | exact => rfl
      | range interval =>
        rw [Lookup.fault?, if_neg fun h => hinverted ⟨[], _, interval, iterable, .access, h⟩]
    refine hasValueIn_access hraised hlive hvalid fun hiterable => ?_
    subst hiterable
    exact hpromised _ lookup (List.mem_singleton.2 rfl) _ hlive
  | set op es iterable ih =>
    refine hasValueIn_set hraised op (fun e he => ?_) iterable
    refine ih e he (bound_set.1 hbound e he) (promised_set.1 hpromised e he) ?_
    rintro ⟨path, binding, interval, iterable', hleaf, hbad⟩
    obtain ⟨i, hi⟩ := List.mem_iff_getElem?.1 he
    exact hinverted ⟨_, binding, interval, iterable', .set hi hleaf, hbad⟩

end Expr

/-! ## Hosted queries -/

namespace Hosted

open XmlStore.Expr (FirstInverted HasInverted Path)

/-- What a query that is asked of a hosted database can come to. -/
inductive Verdict (h : Hosted) (q : Query) : Except Fault (List Node) → Prop where
  /-- It lists a position outside of the snapshot. -/
  | outside {pre : Nat} : q.outside? h.snapshot.size = some pre →
      h.compile q = .error (.invalidNode h.snapshot.name pre h.snapshot.size) →
      Verdict h q (.error (.invalidNode h.snapshot.name pre h.snapshot.size))
  /-- It lists none, and an interval is inverted that is still in the compiled expression. -/
  | inverted {e : Expr} {reports : List Diagnostic} {path : Path} {interval : Interval} :
      q.outside? h.snapshot.size = none → h.compile q = .ok (e, reports) →
      FirstInverted e path interval →
      Verdict h q (.error (Path.wrap path (.invertedRange interval)))
  /-- There is no such interval either. -/
  | answered {e : Expr} {reports : List Diagnostic} {nodes : List Node} :
      q.outside? h.snapshot.size = none → h.compile q = .ok (e, reports) → ¬ HasInverted e →
      (∀ node ∈ nodes, node.snapshot = h.snapshot.id ∧ node.pre < h.snapshot.size) →
      Verdict h q (.ok nodes)

theorem find?_live (h : Hosted) : h.live.find? h.snapshot.binding = some h.snapshot := by
  simp [live, Live.find?, Snapshot.binding]

/-- What a query is compiled to, if it is, is an expression over the snapshot. -/
theorem compile_cases (h : Hosted) (q : Query) :
    (∃ pre, q.outside? h.snapshot.size = some pre ∧
        h.compile q = .error (.invalidNode h.snapshot.name pre h.snapshot.size)) ∨
      ∃ e : Expr, q.outside? h.snapshot.size = none ∧ e.Bound h.snapshot ∧
        h.compile q = .ok (e.compile h.live) := by
  have hbind := q.bind_cases h.snapshot
  rw [compile]
  cases hopened : q.bind h.snapshot with
  | error fault =>
    rw [hopened] at hbind
    obtain ⟨pre, hpre, rfl⟩ := hbind
    exact Or.inl ⟨pre, hpre, rfl⟩
  | ok e =>
    rw [hopened] at hbind
    exact Or.inr ⟨e, hbind.1, hbind.2, rfl⟩

/-- **A query of a database comes to one of these things**, in either mode. -/
theorem verdict {h : Hosted} (hreachable : h.database.Reachable) {signals : Signals}
    (hraised : signals.isRaised h.signal = false) (q : Query) (mode : Mode) :
    h.Verdict q (h.query signals q mode).result := by
  obtain ⟨pre, hpre, hcompile⟩ | ⟨e, hnone, hbound, hcompile⟩ := h.compile_cases q
  · rw [query, hcompile]
    exact .outside hpre hcompile
  · have hresult : (h.query signals q mode).result =
        ((e.compile h.live).1.value h.live signals h.signal).result := by
      rw [query, hcompile]
      rfl
    rw [hresult]
    have hcompiled := hbound.compile h.live
    have hopens := Expr.opensTo_begin h.live hraised (e.compile h.live).1
    cases hbegin : (e.compile h.live).1.begin h.live signals h.signal with
    | error fault =>
      rw [hbegin] at hopens
      obtain ⟨path, cause, hfirst, rfl⟩ := hopens
      obtain ⟨interval, hinverted, rfl⟩ := hcompiled.firstInverted h.find?_live hfirst
      rw [Expr.value, hbegin]
      exact .inverted hnone hcompile hinverted
    | ok run =>
      rw [hbegin] at hopens
      have hinverted : ¬ HasInverted (e.compile h.live).1 := fun hbad =>
        hopens ((hcompiled.hasBlocked_iff h.find?_live).2 hbad)
      obtain ⟨number, t, hcurrent⟩ := hreachable.exists_ofTable
      have hfound := h.find?_live
      rw [snapshot, hcurrent] at hfound
      rw [snapshot, hcurrent] at hcompiled
      obtain ⟨nodes, hvalue, _, hplaces⟩ := Expr.exists_value hraised hfound hcompiled
        (Expr.promised_compile h.live e) hinverted
      rw [hvalue]
      refine .answered hnone hcompile hinverted fun node hnode => ?_
      rw [snapshot, hcurrent]
      exact hplaces node hnode

end Hosted

/-! ## Replies -/

theorem Term.kind_of_failure_eq {kind kind' message message' : String}
    (h : failure kind message = failure kind' message') : kind = kind' := by
  simp only [failure, tuple.injEq, List.cons.injEq, atom.injEq] at h
  exact h.2.1.1

theorem Term.ok_ne_failure (result : Term) (kind message : String) :
    ok result ≠ failure kind message := by
  simp [ok, failure]

/-- The row of a position in a table is a tuple. -/
theorem Term.ofRow_eq_tuple {t : Table} {pre : Nat} (h : pre < t.size) :
    ∃ row name value, t.view? pre = some row ∧
      ofRow t pre = .tuple [.atom row.kind.name, .ofNat pre, name, value] := by
  have hrow : t.rows[pre]? = some t.rows[pre] := Array.getElem?_eq_getElem h
  obtain ⟨row, hview⟩ : ∃ row, t.view? pre = some row := by
    rw [Table.view?, hrow]
    exact ⟨_, rfl⟩
  rw [ofRow, hview]
  exact ⟨row, _, _, rfl, rfl⟩

namespace Host

open XmlStore.Expr (FirstInverted HasInverted Path)

/-- What the host replies to a query of a database. -/
structure Replies (h : Hosted) (q : Query) (reply : Term) : Prop where
  /-- The first position that is listed outside of the snapshot is reported, without operands. -/
  outside : ∀ pre, q.outside? h.snapshot.size = some pre → reply =
    .failure "invalid_node" (Fault.invalidNode h.snapshot.name pre h.snapshot.size).message
  /-- This is reported if and only if there is such a position. -/
  outside_iff : (∃ message, reply = .failure "invalid_node" message) ↔
    ∃ pre ∈ q.listed, h.snapshot.size ≤ pre
  /-- Otherwise the query is compiled. -/
  compiles_iff : (∃ compiled, h.compile q = .ok compiled) ↔
    ∀ pre ∈ q.listed, pre < h.snapshot.size
  /-- The leftmost inverted interval of the compiled expression is reported, with the operators on
  the way to it. -/
  inverted : ∀ e reports path interval, h.compile q = .ok (e, reports) →
    FirstInverted e path interval →
    reply = .failure "invalid_token" (Path.wrap path (.invertedRange interval)).message
  /-- This is reported if and only if there is such an interval. -/
  inverted_iff : (∃ message, reply = .failure "invalid_token" message) ↔
    ∃ e reports, h.compile q = .ok (e, reports) ∧ HasInverted e
  /-- Otherwise the reply is a list of nodes of the snapshot, none of them absent. -/
  answered : ∀ e reports, h.compile q = .ok (e, reports) → ¬ HasInverted e →
    ∃ items, reply = .ok (.list items) ∧ ∀ item ∈ items, ∃ pre row name value,
      h.snapshot.table.view? pre = some row ∧ item = .ofRow h.snapshot.table pre ∧
      item = .tuple [.atom row.kind.name, .ofNat pre, name, value]
  /-- Nothing else is reported. -/
  kinds : ∀ kind message, reply = .failure kind message →
    kind = "invalid_node" ∨ kind = "invalid_token"

section Cases

variable {h : Hosted} {q : Query}

theorem replies_outside {pre : Nat} (hpre : q.outside? h.snapshot.size = some pre)
    (hcompile : ∀ compiled, h.compile q ≠ .ok compiled) :
    Replies h q (.failure "invalid_node"
      (Fault.invalidNode h.snapshot.name pre h.snapshot.size).message) := by
  have hlisted : pre ∈ q.listed := List.mem_of_find?_eq_some hpre
  have hle : h.snapshot.size ≤ pre := by simpa using List.find?_some hpre
  constructor
  case outside =>
    intro pre' hpre'
    obtain rfl := Option.some.inj (hpre.symm.trans hpre')
    rfl
  case outside_iff => exact ⟨fun _ => ⟨pre, hlisted, hle⟩, fun _ => ⟨_, rfl⟩⟩
  case compiles_iff =>
    constructor
    · rintro ⟨compiled, heq⟩
      exact absurd heq (hcompile compiled)
    · exact fun hinside => absurd (hinside pre hlisted) (Nat.not_lt.2 hle)
  case inverted => exact fun e reports _ _ heq => absurd heq (hcompile (e, reports))
  case inverted_iff =>
    constructor
    · rintro ⟨message, heq⟩
      exact absurd (Term.kind_of_failure_eq heq) (by decide)
    · rintro ⟨e, reports, heq, _⟩
      exact absurd heq (hcompile (e, reports))
  case answered => exact fun e reports heq => absurd heq (hcompile (e, reports))
  case kinds => exact fun kind message heq => Or.inl (Term.kind_of_failure_eq heq).symm

/-- A reply that is no refusal of a position, to a query that lists none outside. -/
theorem outside_iff_of_inside {reply : Term} (hinside : ∀ pre ∈ q.listed, pre < h.snapshot.size)
    (hreply : ∀ message, reply ≠ .failure "invalid_node" message) :
    (∃ message, reply = .failure "invalid_node" message) ↔
      ∃ pre ∈ q.listed, h.snapshot.size ≤ pre := by
  constructor
  · rintro ⟨message, heq⟩
    exact absurd heq (hreply message)
  · rintro ⟨pre, hpre, hle⟩
    exact absurd (hinside pre hpre) (Nat.not_lt.2 hle)

theorem replies_inverted {e : Expr} {reports : List Diagnostic} {path : Path} {interval : Interval}
    (hnone : q.outside? h.snapshot.size = none) (hcompile : h.compile q = .ok (e, reports))
    (hfirst : FirstInverted e path interval) :
    Replies h q (.failure "invalid_token" (Path.wrap path (.invertedRange interval)).message) := by
  have hinside := Query.outside?_eq_none.1 hnone
  constructor
  case outside =>
    intro pre hpre
    cases hnone.symm.trans hpre
  case outside_iff =>
    exact outside_iff_of_inside hinside fun message heq =>
      absurd (Term.kind_of_failure_eq heq) (by decide)
  case compiles_iff => exact ⟨fun _ => hinside, fun _ => ⟨_, hcompile⟩⟩
  case inverted =>
    intro e' reports' path' interval' heq hfirst'
    cases hcompile.symm.trans heq
    obtain ⟨rfl, rfl⟩ := hfirst.unique hfirst'
    rfl
  case inverted_iff =>
    exact ⟨fun _ => ⟨e, reports, hcompile, hfirst.hasInverted⟩, fun _ => ⟨_, rfl⟩⟩
  case answered =>
    intro e' reports' heq hnot
    cases hcompile.symm.trans heq
    exact absurd hfirst.hasInverted hnot
  case kinds => exact fun kind message heq => Or.inr (Term.kind_of_failure_eq heq).symm

theorem replies_answered {e : Expr} {reports : List Diagnostic} {nodes : List Node}
    (hnone : q.outside? h.snapshot.size = none) (hcompile : h.compile q = .ok (e, reports))
    (hnot : ¬ HasInverted e) (hplaces : ∀ node ∈ nodes, node.pre < h.snapshot.size) :
    Replies h q (.ok (.ofNodes h.snapshot.table nodes)) := by
  have hinside := Query.outside?_eq_none.1 hnone
  constructor
  case outside =>
    intro pre hpre
    cases hnone.symm.trans hpre
  case outside_iff =>
    exact outside_iff_of_inside hinside fun message => Term.ok_ne_failure _ _ message
  case compiles_iff => exact ⟨fun _ => hinside, fun _ => ⟨_, hcompile⟩⟩
  case inverted =>
    intro e' reports' path' interval' heq hfirst
    cases hcompile.symm.trans heq
    exact absurd hfirst.hasInverted hnot
  case inverted_iff =>
    constructor
    · rintro ⟨message, heq⟩
      exact absurd heq (Term.ok_ne_failure _ _ message)
    · rintro ⟨e', reports', heq, hbad⟩
      cases hcompile.symm.trans heq
      exact absurd hbad hnot
  case answered =>
    intro _ _ _ _
    refine ⟨nodes.map fun node => .ofRow h.snapshot.table node.pre, rfl, fun item hitem => ?_⟩
    obtain ⟨node, hnode, rfl⟩ := List.mem_map.1 hitem
    obtain ⟨row, name, value, hview, htuple⟩ := Term.ofRow_eq_tuple (hplaces node hnode)
    exact ⟨node.pre, row, name, value, hview, rfl, htuple⟩
  case kinds => exact fun kind message heq => absurd heq (Term.ok_ne_failure _ kind message)

/-- **A reply follows the verdict.** -/
theorem replies_of_verdict {result : Except Fault (List Node)} (hverdict : h.Verdict q result) :
    Replies h q (answer h.snapshot.table result) := by
  cases hverdict with
  | outside hpre hcompile =>
    refine replies_outside hpre fun compiled heq => ?_
    cases hcompile.symm.trans heq
  | @inverted e reports path interval hnone hcompile hfirst =>
    have hreply : answer h.snapshot.table (.error (Path.wrap path (.invertedRange interval))) =
        .failure "invalid_token" (Path.wrap path (.invertedRange interval)).message := by
      rw [answer, Term.ofFault, Path.kind_wrap]
      rfl
    rw [hreply]
    exact replies_inverted hnone hcompile hfirst
  | answered hnone hcompile hnot hplaces =>
    exact replies_answered hnone hcompile hnot fun node hnode => (hplaces node hnode).2

end Cases

end Host

end XmlStore
