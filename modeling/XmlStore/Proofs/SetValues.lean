import XmlStore.Proofs.Combining
import XmlStore.Proofs.Operands
import XmlStore.Proofs.Polling

/-!
# Values of set operators

* `Expr.value_set` — if all operands have a value, an operator has one; it ascends and has the nodes
  that the operator selects.
* `Expr.value_combine` — the same value comes of what the compiler makes of the operator.
* `Expr.value_of_operands` — the law for the plain operator, the combined one, and any operator that
  compiles to it.
-/

namespace XmlStore

/-- Lists that ascend are equal if they have the same nodes. -/
theorem eq_of_ascending {a b : List Node} (ha : a.Pairwise (· < ·)) (hb : b.Pairwise (· < ·))
    (h : ∀ node, node ∈ a ↔ node ∈ b) : a = b := by
  have hnodup : ∀ {l : List Node}, l.Pairwise (· < ·) → l.Nodup := fun hl => hl.imp Node.ne_of_lt
  have hperm : a.Perm b := (List.perm_ext_iff_of_nodup (hnodup ha) (hnodup hb)).2 h
  exact hperm.eq_of_pairwise (fun x y _ _ hxy hyx => absurd hyx (Node.lt_asymm hxy)) ha hb

namespace Expr

variable {live : Live} {signals : Signals} {signal : SignalId}

/-- Whether a node is among the nodes of an expression. -/
def hasNode (live : Live) (signals : Signals) (signal : SignalId) (node : Node) (e : Expr) : Prop :=
  ∃ nodes, (e.value live signals signal).result = .ok nodes ∧ node ∈ nodes

/-- An expression has a value, which ascends if it is said to. -/
def HasValue (live : Live) (signals : Signals) (signal : SignalId) (e : Expr) : Prop :=
  ∃ nodes, (e.value live signals signal).result = .ok nodes ∧
    (e.iterable = true → nodes.Pairwise (· < ·))

/-- A list of nodes is the value of an expression, ascends, and has the nodes that an operator
selects. -/
structure IsSelection (live : Live) (signals : Signals) (signal : SignalId) (op : SetOp)
    (es : List Expr) (e : Expr) (nodes : List Node) : Prop where
  value : (e.value live signals signal).result = .ok nodes
  ascends : nodes.Pairwise (· < ·)
  mem : ∀ node, node ∈ nodes ↔ op.Selects (hasNode live signals signal node) es

/-- The nodes of an expression are those of its value. -/
theorem hasNode_iff {e : Expr} {nodes : List Node}
    (h : (e.value live signals signal).result = .ok nodes) (node : Node) :
    hasNode live signals signal node e ↔ node ∈ nodes := by
  constructor
  · rintro ⟨found, hfound, hmem⟩
    rw [hfound] at h
    exact Except.ok.inj h ▸ hmem
  · intro hmem
    exact ⟨nodes, h, hmem⟩

theorem value_empty (h : signals.isRaised signal = false) :
    (empty.value live signals signal).result = .ok [] :=
  value_eq_ok.2 ⟨h, .empty, rfl, Script.clean_empty, rfl⟩

theorem not_hasNode_of_isEmpty {e : Expr} (h : e.isEmpty = true) (node : Node) :
    ¬ hasNode live signals signal node e := by
  intro hnode
  cases e with
  | empty =>
    have hraised : signals.isRaised signal = false := by
      obtain ⟨nodes, hvalue, _⟩ := hnode
      exact (value_eq_ok.1 hvalue).1
    cases (hasNode_iff (value_empty hraised) node).1 hnode
  | nodes => cases h
  | access => cases h
  | set => cases h

/-- Operands that have values can be opened, and their scripts are clean. -/
theorem exists_operands {es : List Expr}
    (h : ∀ e ∈ es, HasValue live signals signal e) (op : SetOp) (position : Nat) :
    ∃ operands, operandsFrom live op position es = .ok operands ∧
      (∀ o ∈ operands, o.Sound (signals.hears signal) ∧
        o.source.script.Clean (signals.hears signal)) ∧
      ∀ node, operands.map (fun o => node ∈ o.source.script.heard (signals.hears signal)) =
        es.map (hasNode live signals signal node) := by
  induction es generalizing position with
  | nil => exact ⟨[], rfl, fun o ho => (by cases ho), fun _ => rfl⟩
  | cons e rest ih =>
    obtain ⟨⟨nodes, hvalue, hasc⟩, hrest⟩ := List.forall_mem_cons.1 h
    obtain ⟨others, hothers, hspec, hmem⟩ := ih hrest (position + 1)
    obtain ⟨_, src, hsource, hclean, rfl⟩ := value_eq_ok.1 hvalue
    refine ⟨_, operandsFrom_cons.2 ⟨src, others, hsource, hothers, rfl⟩,
      List.forall_mem_cons.2 ⟨⟨hasc, hclean⟩, hspec⟩, ?_⟩
    intro node
    rw [List.map_cons, List.map_cons, hmem node]
    congr 1
    exact propext (hasNode_iff hvalue node).symm

/-- **An operator whose operands have values.** -/
theorem value_set (hraised : signals.isRaised signal = false) (op : SetOp) {es : List Expr}
    (h : ∀ e ∈ es, HasValue live signals signal e) (iterable : Bool) :
    ∃ nodes, IsSelection live signals signal op es (.set op es iterable) nodes := by
  obtain ⟨operands, hoperands, hspec, hmem⟩ := exists_operands h op 0
  obtain ⟨hsound, hasc, hcomplete⟩ := Source.lists_ofSet op fun o ho => (hspec o ho).1
  obtain ⟨hclean, hall⟩ := hcomplete fun o ho => (hspec o ho).2
  have hsame : ∀ node, op.Selects (node ∈ ·) (operands.map (Operand.nodes (signals.hears signal))) ↔
      op.Selects (hasNode live signals signal node) es := by
    intro node
    simp only [SetOp.selects_map op _ (Operand.nodes _), Operand.mem_nodes]
    exact SetOp.selects_of_map_eq op (hmem node)
  refine ⟨_, value_eq_ok.2 ⟨hraised, _, source_set.2 ⟨operands, hoperands, rfl⟩, hclean, rfl⟩, hasc,
    fun node => ⟨fun hn => (hsame node).1 (hsound node hn), fun hn => ?_⟩⟩
  exact hall node ((hsame node).2 hn)

/-- **What the compiler makes of an operator has the same nodes.** -/
theorem value_combine (hraised : signals.isRaised signal = false) (op : SetOp) {es : List Expr}
    (h : ∀ e ∈ es, HasValue live signals signal e) :
    ∃ nodes, IsSelection live signals signal op es (combine op es).1 nodes := by
  have hempty : ∀ e, e.isEmpty = true → ∀ node, ¬ hasNode live signals signal node e :=
    fun e he node => not_hasNode_of_isEmpty he node
  have hnothing : (∀ node, ¬ op.Selects (hasNode live signals signal node) es) →
      (combine op es).1 = .empty → ∃ nodes, IsSelection live signals signal op es (combine op es).1
        nodes := fun hnot hcombine =>
    ⟨[], hcombine ▸ value_empty hraised, List.Pairwise.nil,
      fun node => ⟨fun hn => (by cases hn), fun hn => absurd hn (hnot node)⟩⟩
  rcases combine_cases op es with ⟨hdrop, hcombine⟩ | ⟨hdrop, hcombine⟩ |
    ⟨e, hdrop, hiterable, hcombine⟩ | ⟨kept, hdrop, -, -, hcombine⟩
  · exact hnothing
      (fun node => not_selects_of_dropEmpty (fun e he => hempty e he node) hdrop) hcombine
  · refine hnothing (fun node hn => ?_) hcombine
    rw [← selects_dropEmpty (fun e he => hempty e he node) hdrop] at hn
    cases op <;> simp [SetOp.Selects] at hn
  · obtain ⟨hkept, _⟩ := dropEmpty_eq_some hdrop
    have he : e ∈ es := (List.mem_filter.1 (hkept ▸ List.mem_cons_self : e ∈ es.filter _)).1
    obtain ⟨nodes, hvalue, hasc⟩ := h e he
    refine ⟨nodes, hcombine ▸ hvalue, hasc hiterable, ?_⟩
    intro node
    rw [← selects_dropEmpty (fun e he => hempty e he node) hdrop]
    have hone : op.Selects (hasNode live signals signal node) [e] ↔
        hasNode live signals signal node e := by
      cases op <;> simp [SetOp.Selects]
    rw [hone, hasNode_iff hvalue]
  · obtain ⟨hkept, _⟩ := dropEmpty_eq_some hdrop
    have hvalues : ∀ e ∈ kept, HasValue live signals signal e := fun e he =>
      h e (List.mem_filter.1 (hkept ▸ he)).1
    obtain ⟨nodes, hvalue, hasc, hmem⟩ := value_set hraised op hvalues true
    refine ⟨nodes, hcombine ▸ hvalue, hasc, ?_⟩
    intro node
    rw [hmem, selects_dropEmpty (fun e he => hempty e he node) hdrop]

/-- Values that are listed one by one. -/
theorem selects_hasNode {es : List Expr} {values : List (List Node)}
    (h : es.map (fun e => (e.value live signals signal).result) = values.map .ok) (op : SetOp)
    (node : Node) :
    op.Selects (hasNode live signals signal node) es ↔ op.Selects (node ∈ ·) values := by
  have hresult : op.Selects (hasNode live signals signal node) es ↔
      op.Selects (fun r : Except Fault (List Node) => ∃ nodes, r = .ok nodes ∧ node ∈ nodes)
        (es.map fun e => (e.value live signals signal).result) := by
    rw [SetOp.selects_map]; rfl
  rw [hresult, h, SetOp.selects_map]
  simp

theorem hasValue_of_values {es : List Expr} {values : List (List Node)}
    (h : es.map (fun e => (e.value live signals signal).result) = values.map .ok)
    (hasc : ∀ p ∈ es.zip values, p.1.iterable = true → p.2.Pairwise (· < ·)) :
    ∀ e ∈ es, HasValue live signals signal e := by
  induction es generalizing values with
  | nil => exact fun e he => by cases he
  | cons e rest ih =>
    cases values with
    | nil => cases h
    | cons nodes others =>
      obtain ⟨hvalue, hothers⟩ := List.cons.inj h
      refine List.forall_mem_cons.2 ⟨⟨nodes, hvalue, ?_⟩, ih hothers fun p hp => ?_⟩
      · exact hasc (e, nodes) (by rw [List.zip_cons_cons]; exact List.mem_cons_self)
      · exact hasc p (by rw [List.zip_cons_cons]; exact List.mem_cons_of_mem _ hp)

/-- **The set merge law.**  Operators on any number of operands, which may come from different
snapshots and may be known to ascend or not, give the nodes that they select in ascending order,
each of them once; it does not matter whether the operator has been compiled. -/
theorem value_of_operands (hraised : signals.isRaised signal = false) (op : SetOp)
    (es : List Expr) (values : List (List Node))
    (hvalues : es.map (fun e => (e.value live signals signal).result) = values.map .ok)
    (hascends : ∀ p ∈ es.zip values, p.1.iterable = true →
      p.2.Pairwise fun a b => a.diff b = .lt) :
    ∃ nodes : List Node, nodes.Pairwise (fun a b => a.diff b = .lt) ∧
      (∀ node, node ∈ nodes ↔ op.Selects (node ∈ ·) values) ∧
      (∀ iterable, ((set op es iterable).value live signals signal).result = .ok nodes) ∧
      ((combine op es).1.value live signals signal).result = .ok nodes ∧
      ∀ (compiledAt : Live) (plain : List Expr) (iterable : Bool),
        (compileAll compiledAt plain).1 = es →
        ((compile compiledAt (set op plain iterable)).1.value live signals signal).result =
          .ok nodes := by
  simp only [Node.diff_eq_lt] at hascends ⊢
  have hall := hasValue_of_values hvalues hascends
  obtain ⟨nodes, hcombined⟩ := value_combine hraised op hall
  refine ⟨nodes, hcombined.ascends, ?_, ?_, hcombined.value, ?_⟩
  · intro node
    rw [hcombined.mem, selects_hasNode hvalues]
  · intro iterable
    obtain ⟨nodes', hset⟩ := value_set hraised op hall iterable
    have hsame : nodes' = nodes := eq_of_ascending hset.ascends hcombined.ascends fun node => by
      rw [hset.mem, hcombined.mem]
    exact hsame ▸ hset.value
  · intro compiledAt plain iterable hplain
    rw [compile_set, hplain]
    exact hcombined.value

/-- A list that is out of order and one that ascends, of two snapshots. -/
theorem value_of_two_lists :
    let snapshot : Nat → Snapshot := fun id => .ofTable id "books" .empty {}
    let live : Live := { snapshots := [snapshot 0, snapshot 1] }
    let es : List Expr := [.nodes ⟨"books", 1⟩ [2, 1, 2], .nodes ⟨"books", 0⟩ [3, 4]]
    let values : List (List Node) := [[⟨1, 2⟩, ⟨1, 1⟩, ⟨1, 2⟩], [⟨0, 3⟩, ⟨0, 4⟩]]
    ∃ nodes : List Node, nodes.Pairwise (fun a b => a.diff b = .lt) ∧
      (∀ node, node ∈ nodes ↔ SetOp.union.Selects (node ∈ ·) values) ∧
      (∀ iterable, ((set .union es iterable).value live .empty 0).result = .ok nodes) ∧
      ((combine .union es).1.value live .empty 0).result = .ok nodes ∧
      ∀ (compiledAt : Live) (plain : List Expr) (iterable : Bool),
        (compileAll compiledAt plain).1 = es →
        ((compile compiledAt (set .union plain iterable)).1.value live .empty 0).result =
          .ok nodes :=
  value_of_operands rfl .union _ _ rfl (by decide)

end Expr

end XmlStore
