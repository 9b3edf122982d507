import XmlStore.Evaluation
import XmlStore.Proofs.Opening

/-!
# Why an expression cannot be opened

* `Expr.LeafAt` — the leaves of an expression, each with the operators on the way to it.
* `Expr.Blocked` — a leaf that cannot be opened: its snapshot is gone, or else its interval is
  inverted.
* `Expr.FirstBlocked` — the leftmost of these leaves.
* `Expr.opensTo_source` — an expression is opened unless it has such a leaf, and else its fault is
  that of the leftmost one, with one layer for every operator on the way.
-/

namespace XmlStore

theorem Interval.isInverted_iff (i : Interval) :
    i.isInverted = true ↔ ∃ low high, i.min = some low ∧ i.max = some high ∧ high < low := by
  obtain ⟨kind, min, minIncluded, max, maxIncluded⟩ := i
  cases min <;> cases max <;> simp [Interval.isInverted]

theorem Live.resolve_cases (live : Live) (binding : Binding) :
    (live.find? binding = none ∧
        live.resolve binding = .error (.storeUnavailable binding.name)) ∨
      ∃ s, live.find? binding = some s ∧ live.resolve binding = .ok s := by
  unfold resolve
  cases live.find? binding with
  | none => exact Or.inl ⟨rfl, rfl⟩
  | some s => exact Or.inr ⟨s, rfl, rfl⟩

namespace Expr

variable {live : Live}

/-- The way from an expression to a part of it: the operators, and the positions of the operands. -/
abbrev Path := List (SetOp × Nat)

/-- The positions of operands on the way.  The leaves of an expression are in depth-first order if
these are in lexicographic order. -/
def Path.positions (path : Path) : List Nat := path.map Prod.snd

/-- The leaf of an expression at the end of a path. -/
inductive LeafAt : Expr → Path → Expr → Prop where
  | empty : LeafAt empty [] empty
  | nodes {binding : Binding} {pres : List Nat} :
      LeafAt (nodes binding pres) [] (nodes binding pres)
  | access {binding : Binding} {lookup : Lookup} {iterable : Bool} :
      LeafAt (access binding lookup iterable) [] (access binding lookup iterable)
  | set {op : SetOp} {operands : List Expr} {iterable : Bool} {i : Nat} {e leaf : Expr}
      {path : Path} : operands[i]? = some e → LeafAt e path leaf →
      LeafAt (set op operands iterable) ((op, i) :: path) leaf

/-- A leaf that cannot be opened, and why. -/
inductive Blocked (live : Live) : Expr → Fault → Prop where
  /-- The snapshot of listed nodes is gone. -/
  | goneNodes {binding : Binding} {pres : List Nat} : live.find? binding = none →
      Blocked live (nodes binding pres) (.storeUnavailable binding.name)
  /-- The snapshot of a lookup is gone, whatever the lookup is. -/
  | goneAccess {binding : Binding} {lookup : Lookup} {iterable : Bool} :
      live.find? binding = none →
      Blocked live (access binding lookup iterable) (.storeUnavailable binding.name)
  /-- The snapshot is there, and the lower end of the interval exceeds its upper end. -/
  | inverted {binding : Binding} {s : Snapshot} {interval : Interval} {low high : Bytes}
      {iterable : Bool} : live.find? binding = some s → interval.min = some low →
      interval.max = some high → high < low →
      Blocked live (access binding (.range interval) iterable) (.invertedRange interval)

/-- An expression with a leaf that cannot be opened. -/
def HasBlocked (live : Live) (e : Expr) : Prop :=
  ∃ path leaf cause, LeafAt e path leaf ∧ Blocked live leaf cause

/-- The leftmost leaf that cannot be opened is at this path, for this cause. -/
structure FirstBlocked (live : Live) (e : Expr) (path : Path) (cause : Fault) : Prop where
  blocked : ∃ leaf, LeafAt e path leaf ∧ Blocked live leaf cause
  first : ∀ path' leaf' cause', LeafAt e path' leaf' → Blocked live leaf' cause' →
    ¬ path'.positions < path.positions

/-- A fault at the end of a path: one layer for every operator on the way, the outermost first. -/
def Path.wrap (path : Path) (cause : Fault) : Fault :=
  path.foldr (fun (op, i) fault => .operand op i fault) cause

/-! ## Leaves -/

namespace LeafAt

variable {e leaf leaf' : Expr} {path path' : Path}

/-- There is one leaf at the same positions. -/
theorem unique (h : LeafAt e path leaf) (h' : LeafAt e path' leaf')
    (hpositions : path.positions = path'.positions) : path = path' ∧ leaf = leaf' := by
  induction h generalizing path' with
  | empty | nodes | access =>
    cases h'
    exact ⟨rfl, rfl⟩
  | set hi _ ih =>
    cases h' with
    | set hi' hleaf =>
      obtain ⟨rfl, hrest⟩ := List.cons.inj hpositions
      obtain rfl := Option.some.inj (hi.symm.trans hi')
      obtain ⟨rfl, rfl⟩ := ih hleaf hrest
      exact ⟨rfl, rfl⟩

end LeafAt

namespace Blocked

variable {leaf : Expr} {cause cause' : Fault}

/-- A leaf is blocked for one cause. -/
theorem unique (h : Blocked live leaf cause) (h' : Blocked live leaf cause') : cause = cause' := by
  cases h with
  | goneNodes => cases h'; rfl
  | goneAccess hgone =>
    cases h' with
    | goneAccess => rfl
    | inverted hfound => cases hgone.symm.trans hfound
  | inverted hfound =>
    cases h' with
    | goneAccess hgone => cases hgone.symm.trans hfound
    | inverted => rfl

theorem ne_interrupted (h : Blocked live leaf cause) : cause ≠ .interrupted := by
  cases h <;> exact Fault.noConfusion

end Blocked

theorem FirstBlocked.unique {e : Expr} {path path' : Path} {cause cause' : Fault}
    (h : FirstBlocked live e path cause) (h' : FirstBlocked live e path' cause') :
    path = path' ∧ cause = cause' := by
  obtain ⟨leaf, hleaf, hblocked⟩ := h.blocked
  obtain ⟨leaf', hleaf', hblocked'⟩ := h'.blocked
  have hpositions := List.le_antisymm (h.first path' leaf' cause' hleaf' hblocked')
    (h'.first path leaf cause hleaf hblocked)
  obtain ⟨rfl, rfl⟩ := hleaf.unique hleaf' hpositions
  exact ⟨rfl, hblocked.unique hblocked'⟩

/-- The fault of an operand is wrapped once more. -/
theorem Path.wrap_cons (op : SetOp) (i : Nat) (path : Path) {cause : Fault}
    (h : cause ≠ .interrupted) :
    wrap ((op, i) :: path) cause = (path.wrap cause).inOperand op i := by
  have hwrap : path.wrap cause ≠ .interrupted := by
    cases path with
    | nil => exact h
    | cons => exact Fault.noConfusion
  show Fault.operand op i (path.wrap cause) = _
  generalize path.wrap cause = fault at hwrap
  cases fault <;> first | rfl | exact absurd rfl hwrap

theorem Path.kind_wrap (path : Path) (cause : Fault) : (path.wrap cause).kind = cause.kind := by
  induction path with
  | nil => rfl
  | cons first rest ih => exact ih

/-! ## Opening -/

/-- What comes of opening an expression. -/
def OpensTo {α : Type} (live : Live) (e : Expr) : Except Fault α → Prop
  | .ok _ => ¬ HasBlocked live e
  | .error fault => ∃ path cause, FirstBlocked live e path cause ∧ fault = path.wrap cause

/-- What comes of opening a leaf. -/
def OpensLeaf {α : Type} (live : Live) (leaf : Expr) : Except Fault α → Prop
  | .ok _ => ∀ cause, ¬ Blocked live leaf cause
  | .error fault => Blocked live leaf fault

theorem OpensLeaf.bind_ok {α β : Type} {leaf : Expr} {x : Except Fault α}
    (h : OpensLeaf live leaf x) (f : α → β) : OpensLeaf live leaf (x >>= fun a => .ok (f a)) := by
  cases x <;> exact h

theorem opensLeaf_nodes (live : Live) (binding : Binding) (pres : List Nat) :
    OpensLeaf live (nodes binding pres) (live.resolve binding) := by
  obtain ⟨hgone, hresolve⟩ | ⟨s, hfound, hresolve⟩ := live.resolve_cases binding
  · rw [hresolve]
    exact .goneNodes hgone
  · rw [hresolve]
    intro cause hblocked
    cases hblocked with
    | goneNodes hgone => cases hfound.symm.trans hgone

/-- A lookup is opened if its snapshot is there and its interval is not inverted. -/
theorem opensLeaf_access (live : Live) (binding : Binding) (lookup : Lookup) (iterable : Bool) :
    OpensLeaf live (access binding lookup iterable) (openLookup live binding lookup) := by
  rw [openLookup]
  obtain ⟨hgone, hresolve⟩ | ⟨s, hfound, hresolve⟩ := live.resolve_cases binding
  · rw [hresolve]
    exact .goneAccess hgone
  · rw [hresolve]
    cases lookup with
    | exact kind value =>
      intro cause hblocked
      cases hblocked with
      | goneAccess hgone => cases hfound.symm.trans hgone
    | range interval =>
      simp only [bind, Except.bind, Lookup.fault?]
      by_cases hinverted : interval.isInverted = true
      · obtain ⟨low, high, hmin, hmax, hlt⟩ := interval.isInverted_iff.1 hinverted
        rw [if_pos hinverted]
        exact .inverted hfound hmin hmax hlt
      · rw [if_neg hinverted]
        intro cause hblocked
        cases hblocked with
        | goneAccess hgone => cases hfound.symm.trans hgone
        | inverted _ hmin hmax hlt =>
          exact hinverted (interval.isInverted_iff.2 ⟨_, _, hmin, hmax, hlt⟩)

/-- An expression that is a leaf is opened as this leaf. -/
theorem OpensLeaf.opensTo {α : Type} {e : Expr} {x : Except Fault α} (h : OpensLeaf live e x)
    (hleaf : LeafAt e [] e) (honly : ∀ path leaf, LeafAt e path leaf → path = [] ∧ leaf = e) :
    OpensTo live e x := by
  cases x with
  | ok a =>
    rintro ⟨path, leaf, cause, hat, hblocked⟩
    obtain ⟨_, rfl⟩ := honly path leaf hat
    exact h cause hblocked
  | error fault =>
    refine ⟨[], fault, ⟨⟨e, hleaf, h⟩, fun path' leaf' _ hat _ => ?_⟩, rfl⟩
    rw [(honly path' leaf' hat).1]
    exact List.lt_irrefl []

/-- The leaf at the leftmost blocked operand is the leftmost one of all. -/
theorem FirstBlocked.set {op : SetOp} {operands : List Expr} {iterable : Bool} {i : Nat} {e : Expr}
    {path : Path} {cause : Fault} (h : FirstBlocked live e path cause) (hi : operands[i]? = some e)
    (hbefore : ∀ j e', j < i → operands[j]? = some e' → ¬ HasBlocked live e') :
    FirstBlocked live (set op operands iterable) ((op, i) :: path) cause where
  blocked := by
    obtain ⟨leaf, hleaf, hblocked⟩ := h.blocked
    exact ⟨leaf, .set hi hleaf, hblocked⟩
  first path' leaf' cause' hleaf hblocked := by
    cases hleaf with
    | @set _ _ _ j e' _ rest hj hrest =>
      show ¬ j :: Path.positions rest < i :: path.positions
      rw [List.cons_lt_cons_iff]
      rintro (hlt | ⟨rfl, hlt⟩)
      · exact hbefore j e' hlt hj ⟨rest, leaf', cause', hrest, hblocked⟩
      · obtain rfl := Option.some.inj (hi.symm.trans hj)
        exact h.first rest leaf' cause' hrest hblocked hlt

theorem opensTo_operands (op : SetOp) (position : Nat) {es : List Expr}
    (h : ∀ e ∈ es, OpensTo live e (e.source live)) :
    match operandsFrom live op position es with
    | .ok _ => ∀ e ∈ es, ¬ HasBlocked live e
    | .error fault => ∃ i e path cause, es[i]? = some e ∧ FirstBlocked live e path cause ∧
        (∀ j e', j < i → es[j]? = some e' → ¬ HasBlocked live e') ∧
        fault = Path.wrap ((op, position + i) :: path) cause := by
  induction es generalizing position with
  | nil => exact fun _ he => absurd he List.not_mem_nil
  | cons e rest ih =>
    obtain ⟨hfirst, hrest⟩ := List.forall_mem_cons.1 h
    rw [operandsFrom]
    cases hsource : e.source live with
    | error fault =>
      rw [hsource] at hfirst
      obtain ⟨path, cause, hblocked, rfl⟩ := hfirst
      obtain ⟨leaf, _, hcause⟩ := hblocked.blocked
      refine ⟨0, e, path, cause, rfl, hblocked, fun j _ hj => absurd hj (Nat.not_lt_zero j), ?_⟩
      exact (Path.wrap_cons op position path hcause.ne_interrupted).symm
    | ok src =>
      rw [hsource] at hfirst
      have hothers := ih (position + 1) hrest
      cases hoperands : operandsFrom live op (position + 1) rest with
      | error fault =>
        rw [hoperands] at hothers
        obtain ⟨i, e', path, cause, hi, hblocked, hbefore, rfl⟩ := hothers
        refine ⟨i + 1, e', path, cause, hi, hblocked, fun j e'' hj he'' => ?_, ?_⟩
        · cases j with
          | zero =>
            obtain rfl := Option.some.inj he''
            exact hfirst
          | succ j => exact hbefore j e'' (Nat.lt_of_succ_lt_succ hj) he''
        · rw [Nat.add_right_comm, Nat.add_assoc]
      | ok operands =>
        rw [hoperands] at hothers
        exact List.forall_mem_cons.2 ⟨hfirst, hothers⟩

/-- **An expression is opened, or fails with its leftmost blocked leaf.**  The induction is on the
expression. -/
theorem opensTo_source (live : Live) (e : Expr) : OpensTo live e (e.source live) := by
  induction e with
  | empty =>
    rintro ⟨_, _, _, hleaf, hblocked⟩
    cases hleaf
    cases hblocked
  | nodes binding pres =>
    rw [source]
    have hleaf := opensLeaf_nodes live binding pres
    refine (hleaf.bind_ok _).opensTo .nodes fun _ _ h => ?_
    cases h
    exact ⟨rfl, rfl⟩
  | access binding lookup iterable =>
    rw [source]
    have hleaf := opensLeaf_access live binding lookup iterable
    refine (hleaf.bind_ok _).opensTo .access fun _ _ h => ?_
    cases h
    exact ⟨rfl, rfl⟩
  | set op operands iterable ih =>
    have hoperands := opensTo_operands op 0 ih
    rw [source]
    cases hsources : operandsFrom live op 0 operands with
    | error fault =>
      rw [hsources] at hoperands
      obtain ⟨i, e, path, cause, hi, hblocked, hbefore, rfl⟩ := hoperands
      rw [Nat.zero_add]
      exact ⟨(op, i) :: path, cause, hblocked.set hi hbefore, rfl⟩
    | ok sources =>
      rw [hsources] at hoperands
      rintro ⟨_, leaf, cause, hleaf, hblocked⟩
      cases hleaf with
      | set hi hrest =>
        exact hoperands _ (List.mem_of_getElem? hi) ⟨_, leaf, cause, hrest, hblocked⟩

theorem begin_eq {signals : Signals} {signal : SignalId}
    (hraised : signals.isRaised signal = false) (e : Expr) :
    e.begin live signals signal =
      (e.source live).map fun source => ⟨signal, source.script, source.held⟩ := by
  rw [begin, if_neg (by simp [hraised])]
  cases e.source live <;> rfl

/-- What is opened for a run that is not cancelled is opened as its source. -/
theorem opensTo_begin (live : Live) {signals : Signals} {signal : SignalId}
    (hraised : signals.isRaised signal = false) (e : Expr) :
    OpensTo live e (e.begin live signals signal) := by
  have hsource := opensTo_source live e
  rw [begin_eq hraised]
  cases hopened : e.source live with
  | error fault =>
    rw [hopened] at hsource
    exact hsource
  | ok source =>
    rw [hopened] at hsource
    exact hsource

/-- **The fault of an expression** is that of its leftmost blocked leaf. -/
theorem OpensTo.eq_error_iff {α : Type} {e : Expr} {x : Except Fault α} (h : OpensTo live e x)
    (fault : Fault) : x = .error fault ↔
      ∃ path cause, FirstBlocked live e path cause ∧ fault = Path.wrap path cause := by
  cases x with
  | ok a =>
    constructor
    · intro heq
      cases heq
    · rintro ⟨path, cause, hfirst, rfl⟩
      obtain ⟨leaf, hleaf, hblocked⟩ := hfirst.blocked
      exact absurd ⟨path, leaf, cause, hleaf, hblocked⟩ h
  | error fault' =>
    obtain ⟨path', cause', hfirst', rfl⟩ := h
    constructor
    · intro heq
      exact ⟨path', cause', hfirst', (Except.error.inj heq).symm⟩
    · rintro ⟨path, cause, hfirst, rfl⟩
      obtain ⟨rfl, rfl⟩ := hfirst.unique hfirst'
      rfl

/-- An expression fails at its opening if and only if it has a blocked leaf. -/
theorem OpensTo.exists_error_iff {α : Type} {e : Expr} {x : Except Fault α} (h : OpensTo live e x) :
    (∃ fault, x = .error fault) ↔ HasBlocked live e := by
  cases x with
  | ok a =>
    constructor
    · rintro ⟨fault, heq⟩
      cases heq
    · exact fun hblocked => absurd hblocked h
  | error fault =>
    obtain ⟨path, cause, hfirst, _⟩ := h
    obtain ⟨leaf, hleaf, hblocked⟩ := hfirst.blocked
    exact ⟨fun _ => ⟨path, leaf, cause, hleaf, hblocked⟩, fun _ => ⟨fault, rfl⟩⟩

end Expr

end XmlStore
