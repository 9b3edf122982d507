import XmlStore.Proofs.Compiling

/-!
# What the compiler leaves

One pass over an expression leaves nothing for a second one: what was empty is gone from all
operators, and what was a single operand has taken their place.

* `Expr.Normal` — the normal form of an expression, told by its parts.
* `Expr.normal_combine`, `Expr.normal_compile` — compiled expressions are in normal form.
* `Expr.Settled` — every lookup has the flag that its snapshot gives it.
* `Expr.Normal.compile_eq` — such an expression is compiled to itself, and only scans are reported.
* `Expr.compile_normal_settled` — hence what compiling does once, and once more.
-/

namespace XmlStore.Expr

variable {live : Live} {e part : Expr} {op : SetOp} {es : List Expr} {iterable : Bool}

/-! ## Normal forms -/

/-- An expression without operands. -/
def IsLeaf : Expr → Prop
  | set .. => False
  | _ => True

/-- What may be left of an operator: it sorts its result, it has operands, none of them is empty,
and a single one is a leaf that has to be sorted. -/
structure Needed (iterable : Bool) (operands : List Expr) : Prop where
  sorts : iterable = true
  ne_nil : operands ≠ []
  nonempty : empty ∉ operands
  single : ∀ e, operands = [e] → e.IsLeaf ∧ e.iterable = false

/-- An expression in normal form. -/
structure Normal (e : Expr) : Prop where
  needed : ∀ op operands iterable, (set op operands iterable).PartOf e → Needed iterable operands
  /-- Nothing is empty but the whole. -/
  nonempty : empty.PartOf e → e = empty

theorem isEmpty_iff : e.isEmpty = true ↔ e = empty := by
  cases e <;> simp [isEmpty]

theorem partOf_set :
    part.PartOf (set op es iterable) ↔ part = set op es iterable ∨ ∃ e ∈ es, part.PartOf e := by
  constructor
  · intro h
    cases h with
    | self => exact Or.inl rfl
    | operand he hpart => exact Or.inr ⟨_, he, hpart⟩
  · rintro (rfl | ⟨e, he, hpart⟩)
    · exact .self _
    · exact .operand he hpart

theorem IsLeaf.eq_of_partOf (h : e.IsLeaf) (hpart : part.PartOf e) : part = e := by
  cases hpart with
  | self => rfl
  | operand => exact h.elim

theorem IsLeaf.normal (h : e.IsLeaf) : e.Normal where
  needed op operands iterable hpart := by
    rw [← h.eq_of_partOf hpart] at h
    exact h.elim
  nonempty hpart := (h.eq_of_partOf hpart).symm

/-- An operator on operands in normal form. -/
theorem Normal.set (h : Needed iterable es) (hes : ∀ e ∈ es, e.Normal) :
    (set op es iterable).Normal where
  needed op' operands iterable' hpart := by
    rcases partOf_set.1 hpart with heq | ⟨e, he, hpart⟩
    · obtain ⟨rfl, rfl, rfl⟩ := Expr.set.inj heq
      exact h
    · exact (hes e he).needed _ _ _ hpart
  nonempty hpart := by
    rcases partOf_set.1 hpart with heq | ⟨e, he, hpart⟩
    · cases heq
    · exact absurd ((hes e he).nonempty hpart ▸ he) h.nonempty

theorem Normal.operand (h : (Expr.set op es iterable).Normal) (he : e ∈ es) : e.Normal where
  needed _ _ _ hpart := h.needed _ _ _ (.operand he hpart)
  nonempty hpart := by
    cases h.nonempty (.operand he hpart)

/-- In normal form, operators are said to ascend. -/
theorem Normal.isLeaf_of_not_iterable (h : e.Normal) (hiterable : e.iterable = false) :
    e.IsLeaf := by
  cases e with
  | set op es flag =>
    have hflag := (h.needed op es flag (.self _)).sorts
    rw [Expr.iterable, hflag] at hiterable
    cases hiterable
  | _ => trivial

/-- **Combining keeps normal forms**: dropped operands leave no trace. -/
theorem normal_combine (op : SetOp) (hes : ∀ e ∈ es, e.Normal) : (combine op es).1.Normal := by
  have hkept : ∀ {kept : List Expr}, (dropEmpty op true es).1 = some kept →
      ∀ e ∈ kept, e.Normal ∧ e ≠ empty := by
    intro kept hdrop e he
    obtain ⟨rfl, _⟩ := dropEmpty_eq_some hdrop
    obtain ⟨hmem, hnonempty⟩ := List.mem_filter.1 he
    refine ⟨hes e hmem, fun hempty => ?_⟩
    rw [isEmpty_iff.2 hempty] at hnonempty
    cases hnonempty
  rcases combine_cases op es with ⟨_, hcombine⟩ | ⟨_, hcombine⟩ | ⟨e, hdrop, _, hcombine⟩ |
    ⟨kept, hdrop, hne, hsingle, hcombine⟩
  · rw [hcombine]
    exact IsLeaf.normal trivial
  · rw [hcombine]
    exact IsLeaf.normal trivial
  · rw [hcombine]
    exact (hkept hdrop e List.mem_cons_self).1
  · rw [hcombine]
    refine .set ⟨rfl, hne, fun hempty => (hkept hdrop empty hempty).2 rfl, ?_⟩
      fun e he => (hkept hdrop e he).1
    rintro e rfl
    have hiterable := hsingle e rfl
    exact ⟨(hkept hdrop e List.mem_cons_self).1.isLeaf_of_not_iterable hiterable, hiterable⟩

/-- **Compiled expressions are in normal form.**  The induction is on the expression. -/
theorem normal_compile (live : Live) (e : Expr) : (compile live e).1.Normal := by
  induction e with
  | empty => exact IsLeaf.normal trivial
  | nodes => exact IsLeaf.normal trivial
  | access => exact IsLeaf.normal trivial
  | set op es _ ih =>
    rw [compile_set, compileAll_eq_map]
    refine normal_combine op fun e' he' => ?_
    obtain ⟨e, he, rfl⟩ := List.mem_map.1 he'
    exact ih e he

/-! ## Compiling what is in normal form -/

/-- The report on a leaf that is a lookup with a scan. -/
def scan? (live : Live) : Expr → Option Diagnostic
  | access binding lookup _ =>
    match live.find? binding with
    | none => none
    | some s => if s.index.answers lookup then none else some (.scanning binding.name lookup)
  | _ => none

/-- The reports on the lookups with a scan, from left to right. -/
def scans (live : Live) (e : Expr) : List Diagnostic := e.leaves.filterMap (scan? live)

/-- Every lookup has the flag that its snapshot gives it. -/
def Settled (live : Live) (e : Expr) : Prop :=
  ∀ binding lookup iterable, access binding lookup iterable ∈ e.leaves →
    iterable = (ordersLookup live binding lookup).1

theorem settled_set : (set op es iterable).Settled live ↔ ∀ e ∈ es, e.Settled live := by
  simp only [Settled, leaves, mem_leavesAll]
  constructor
  · intro h e he b l flag hleaf
    exact h b l flag ⟨e, he, hleaf⟩
  · rintro h b l flag ⟨e, he, hleaf⟩
    exact h e he b l flag hleaf

theorem dropEmpty_of_nonempty (op : SetOp) (first : Bool) (h : empty ∉ es) :
    dropEmpty op first es = (some es, []) := by
  induction es generalizing first with
  | nil => rfl
  | cons e rest ih =>
    obtain ⟨hfirst, hrest⟩ := not_or.1 (mt List.mem_cons.2 h)
    have hnonempty : e.isEmpty = false :=
      Bool.eq_false_iff.2 fun hempty => hfirst (isEmpty_iff.1 hempty).symm
    simp [dropEmpty, hnonempty, ih false hrest]

/-- An operator that is needed stays, without a report. -/
theorem combine_of_needed (op : SetOp) (h : Needed iterable es) :
    combine op es = (set op es true, []) := by
  have hdrop := dropEmpty_of_nonempty op true h.nonempty
  match es with
  | [] => exact absurd rfl h.ne_nil
  | [e] =>
    have hiterable := (h.single e rfl).2
    simp [combine, hdrop, hiterable]
  | e :: e' :: rest => simp [combine, hdrop]

/-- Of a lookup, a scan is reported. -/
theorem scans_access (live : Live) (binding : Binding) (lookup : Lookup) (iterable : Bool) :
    (access binding lookup iterable).scans live = (ordersLookup live binding lookup).2 := by
  show [access binding lookup iterable].filterMap (scan? live) = _
  rw [List.filterMap_cons, scan?, ordersLookup]
  cases live.find? binding with
  | none => rfl
  | some s => cases h : s.index.answers lookup <;> simp [h]

theorem compileAll_eq (h : ∀ e ∈ es, compile live e = (e, e.scans live)) :
    compileAll live es = (es, (leavesAll es).filterMap (scan? live)) := by
  induction es with
  | nil => rfl
  | cons e rest ih =>
    obtain ⟨hfirst, hrest⟩ := List.forall_mem_cons.1 h
    rw [compileAll, hfirst, ih hrest, leavesAll, List.filterMap_append]
    rfl

/-- **An expression in normal form is compiled to itself** if its lookups are settled, and only
scans are reported. -/
theorem Normal.compile_eq (h : e.Normal) (hsettled : e.Settled live) :
    compile live e = (e, e.scans live) := by
  induction e with
  | empty => rfl
  | nodes => rfl
  | access binding lookup iterable =>
    have hflag := hsettled binding lookup iterable (List.mem_singleton.2 rfl)
    rw [scans_access, compile]
    simp only [← hflag]
  | set op es iterable ih =>
    have hneeded := h.needed op es iterable (.self _)
    have hes : ∀ e ∈ es, compile live e = (e, e.scans live) := fun e he =>
      ih e he (h.operand he) (settled_set.1 hsettled e he)
    rw [compile, compileAll_eq hes]
    simp only [combine_of_needed op hneeded, hneeded.sorts, List.append_nil]
    rfl

/-- A later collection that finds the same snapshots for the lookups settles what was compiled. -/
theorem settled_compile {later : Live}
    (hsame : ∀ binding lookup iterable, access binding lookup iterable ∈ e.leaves →
      later.find? binding = live.find? binding) : (compile live e).1.Settled later := by
  intro binding lookup iterable hleaf
  obtain ⟨hflag, before, hbefore⟩ := access_of_mem_leaves_compile hleaf
  rw [hflag, ordersLookup, ordersLookup, hsame binding lookup before hbefore]

/-- **Compiling once and once more.**  A compiled expression is in normal form, and as long as the
snapshots of its lookups are found as before it is compiled to itself; nothing is reported then but
the scans. -/
theorem compile_normal_settled (live : Live) (e : Expr) :
    (compile live e).1.Normal ∧
      ∀ later : Live,
        (∀ binding lookup iterable, access binding lookup iterable ∈ e.leaves →
          later.find? binding = live.find? binding) →
        compile later (compile live e).1 = ((compile live e).1, (compile live e).1.scans later) :=
  ⟨normal_compile live e, fun _ hsame => (normal_compile live e).compile_eq (settled_compile hsame)⟩

/-- An operator is taken out of another one, and its lookup has to scan. -/
theorem compile_normal_settled_nested :
    let index : ValueIndex :=
      { enabled := fun _ => false, maxLength := 8, exact := fun _ _ => [], range := fun _ => []
        orderedRanges := false }
    let live : Live := { snapshots := [{ id := 0, name := "books", table := .empty, index }] }
    let lookup : Lookup := .exact .text [98]
    let unordered : Expr := .nodes ⟨"books", 0⟩ [2, 1]
    let e : Expr := .set .union
      [.set .except [.access ⟨"books", 0⟩ lookup false, .empty] false, unordered] false
    let compiled : Expr := .set .union [.access ⟨"books", 0⟩ lookup true, unordered] true
    compile live e = (compiled,
        [.scanning "books" lookup, .removedEmpty .except, .singleOperand .except]) ∧
      compiled.Normal ∧ compile live compiled = (compiled, [.scanning "books" lookup]) := by
  intro index live lookup unordered e compiled
  have hcompiled : compile live e = (compiled,
      [.scanning "books" lookup, .removedEmpty .except, .singleOperand .except]) := rfl
  obtain ⟨hnormal, hsettled⟩ := compile_normal_settled live e
  exact ⟨hcompiled, hnormal, hsettled live fun _ _ _ _ => rfl⟩

end XmlStore.Expr
