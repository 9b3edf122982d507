import XmlStore.Proofs.Compiling
import XmlStore.Proofs.Keeping
import XmlStore.Proofs.LookupCourses

/-!
# A fault names the leaf it comes from

A fault is wrapped once for every operator between the root and the leaf where it arises, in
whatever way and at whatever time it comes out: at the opening, while an operand is put in order, at
its first node or later in a merge.  An interrupt is never wrapped.

* `Expr.FailsAlone` — the cause for which a leaf fails when it is evaluated alone.
* `Expr.Located` — a fault that comes from such a leaf, with the way to it.
* `Expr.located_of_error`, `Expr.located_of_fault` — the faults of opening an expression and of its
  script are located.
* `Expr.Fails` — all ways in which an evaluation can fail; `Expr.fails_located` says that each of
  these faults is located, or an interrupt.
-/

namespace XmlStore

/-- A fault as it arises in a leaf: neither an interrupt nor seen from an operator. -/
def Fault.IsBare : Fault → Prop
  | interrupted => False
  | operand .. => False
  | _ => True

/-- Nobody raises a signal by reading an index of some snapshots. -/
def Live.Spares (live : Live) (signal : SignalId) : Prop :=
  ∀ s ∈ live.snapshots, ∀ lookup, ∀ entry ∈ s.index.answer lookup, signal ∉ entry.raises

namespace Expr

variable {live : Live} {e leaf : Expr} {cause fault : Fault}

/-- **The cause for which a leaf fails alone.**  It comes to nothing else unless it is interrupted,
and it is not under a signal that nobody raises. -/
structure FailsAlone (live : Live) (leaf : Expr) (cause : Fault) : Prop where
  bare : cause.IsBare
  always : ∀ signals signal mode,
    (leaf.evaluate live signals signal mode).result = .error cause ∨
      (leaf.evaluate live signals signal mode).result = .error .interrupted
  spared : ∀ signals signal mode, signals.isRaised signal = false → live.Spares signal →
    (leaf.evaluate live signals signal mode).result = .error cause

/-- A fault comes from a leaf, wrapped once for every operator on the way to it. -/
def Located (live : Live) (e : Expr) (fault : Fault) : Prop :=
  ∃ path leaf cause, LeafAt e path leaf ∧ FailsAlone live leaf cause ∧ fault = Path.wrap path cause

theorem FailsAlone.ne_interrupted (h : FailsAlone live leaf cause) : cause ≠ .interrupted := by
  rintro rfl
  exact h.bare

/-! ## Leaves alone -/

theorem result_value_of_raised {signals : Signals} {signal : SignalId}
    (h : signals.isRaised signal = true) :
    (e.value live signals signal).result = .error .interrupted := by
  rw [result_value, begin, if_pos h]

/-- A leaf that cannot be opened fails at its opening. -/
theorem failsAlone_of_error (hbare : cause.IsBare) (h : leaf.source live = .error cause) :
    FailsAlone live leaf cause := by
  have hopening : ∀ signals signal, signals.isRaised signal = false →
      (leaf.value live signals signal).result = .error cause := by
    intro signals signal hraised
    rw [result_value, begin_eq hraised, h]
    rfl
  constructor
  case bare => exact hbare
  case always =>
    intro signals signal mode
    rw [result_evaluate]
    cases hraised : signals.isRaised signal with
    | false => exact Or.inl (hopening signals signal hraised)
    | true => exact Or.inr (result_value_of_raised hraised)
  case spared => exact fun signals signal _ hraised _ => hopening signals signal hraised

/-- A leaf whose script has a fault comes to this fault. -/
theorem failsAlone_of_fault {src : Source} (hbare : cause.IsBare) (h : leaf.source live = .ok src)
    (hfault : src.script.fault = some cause)
    (hquiet : ∀ signal, live.Spares signal →
      Step.allQuiet (·.contains signal) src.script.steps = true) : FailsAlone live leaf cause := by
  constructor
  case bare => exact hbare
  case always =>
    intro signals signal mode
    rw [result_evaluate]
    cases hraised : signals.isRaised signal with
    | false =>
      rw [(course_of_source hraised h).1]
      rcases src.script.course_cases signal signals with hcourse | hinterrupted
      · rw [hcourse, Course.value, hfault]
        exact Or.inl rfl
      · rw [Course.value, hinterrupted]
        exact Or.inr rfl
    | true => exact Or.inr (result_value_of_raised hraised)
  case spared =>
    intro signals signal mode hraised hspares
    rw [result_evaluate, (course_of_source hraised h).1,
      Script.course_of_quiet hraised (hquiet signal hspares), Course.value, hfault]

theorem Blocked.isBare (h : Blocked live leaf cause) : cause.IsBare := by
  cases h <;> trivial

theorem Blocked.source_eq (h : Blocked live leaf cause) : leaf.source live = .error cause := by
  cases h with
  | goneNodes hgone =>
    simp only [source, Live.resolve, hgone]
    rfl
  | goneAccess hgone =>
    simp only [source, openLookup, Live.resolve, hgone]
    rfl
  | @inverted _ s interval _ _ _ hfound hmin hmax hlt =>
    have hinverted : interval.isInverted = true :=
      interval.isInverted_iff.2 ⟨_, _, hmin, hmax, hlt⟩
    simp only [source, openLookup, Live.resolve, hfound, Lookup.fault?, hinverted]
    rfl

/-! ## Faults of expressions -/

/-- **A fault at the opening is located**, at the leftmost leaf that cannot be opened. -/
theorem located_of_error (h : e.source live = .error fault) : Located live e fault := by
  have hopens := opensTo_source live e
  rw [h] at hopens
  obtain ⟨path, cause, hfirst, rfl⟩ := hopens
  obtain ⟨leaf, hleaf, hblocked⟩ := hfirst.blocked
  exact ⟨path, leaf, cause, hleaf, failsAlone_of_error hblocked.isBare hblocked.source_eq, rfl⟩

/-- The fault of an operand is located, seen from the operator. -/
theorem Located.operand {op : SetOp} {operands : List Expr} {iterable : Bool} {i : Nat}
    (h : Located live e fault) (hi : operands[i]? = some e) :
    Located live (set op operands iterable) (fault.inOperand op i) := by
  obtain ⟨path, leaf, cause, hleaf, hfails, rfl⟩ := h
  refine ⟨(op, i) :: path, leaf, cause, .set hi hleaf, hfails, ?_⟩
  exact (Path.wrap_cons op i path hfails.ne_interrupted).symm

/-- **A fault of a script is located.**  The induction is on the expression. -/
theorem located_of_fault {src : Source} (h : e.source live = .ok src)
    (hfault : src.script.fault = some fault) : Located live e fault := by
  induction e generalizing src fault with
  | empty =>
    obtain rfl := Except.ok.inj h
    cases hfault
  | nodes binding pres =>
    obtain ⟨s, _, rfl⟩ := source_nodes h
    cases hfault
  | access binding lookup iterable =>
    obtain ⟨s, hs, _, rfl⟩ := source_access.1 h
    refine ⟨[], _, fault, .access, failsAlone_of_fault ?_ h hfault fun signal hspares => ?_, rfl⟩
    · obtain ⟨pre, reason, rfl⟩ := Source.fault_ofLookup hfault
      trivial
    · exact Source.quiet_ofLookup (hspares s (List.mem_of_find?_eq_some hs) lookup)
  | set op es iterable ih =>
    obtain ⟨operands, hoperands, rfl⟩ := source_set.1 h
    have hconfined : (Source.ofSet op operands).script.Confined
        (Located live (set op es iterable)) fun _ => True := by
      refine Source.confined_ofSet fun i o ho => ⟨fun cause hcause => ?_, fun _ _ => trivial⟩
      obtain ⟨e, he, hsource⟩ := exists_of_operandsFrom hoperands ho
      exact (ih e (List.mem_of_getElem? he) hsource hcause).operand he
    exact hconfined.fault fault hfault

end Expr

/-! ## Faults of readings -/

/-- The iterations that one becomes by being asked for nodes, in any state of the signals. -/
inductive Iteration.Becomes (i : Iteration) : Iteration → Prop where
  | start : Becomes i i
  | asked {j k : Iteration} {answer : Except Fault (Option Node)} {signals after : Signals} :
      Becomes i j → Settles (fun fuel => j.next fuel signals) ((answer, k), after) → Becomes i k

namespace Iterates

variable {i j k : Iteration} {r : Run} {signals after : Signals}

/-- What one request comes to, and what is left of the run. -/
theorem of_next {answer : Except Fault (Option Node)} (h : Iterates i r)
    (hnext : Settles (fun fuel => i.next fuel signals) ((answer, j), after)) :
    ∃ r', Iterates j r' ∧ (∀ fault, r'.script.fault = some fault → r.script.fault = some fault) ∧
      ∀ fault, answer = .error fault → fault = .interrupted ∨ r.script.fault = some fault := by
  obtain ⟨answer', j', r', after', hsettles, hr, hiterates⟩ := h.next signals
  cases hnext.unique hsettles
  exact ⟨r', hiterates, Run.fault_of_next hr⟩

/-- However often an iteration is asked, no new fault turns up. -/
theorem of_becomes (h : Iterates i r) (hbecomes : i.Becomes j) :
    ∃ r', Iterates j r' ∧ ∀ fault, r'.script.fault = some fault → r.script.fault = some fault := by
  induction hbecomes with
  | start => exact ⟨r, h, fun _ hfault => hfault⟩
  | asked _ hnext ih =>
    obtain ⟨r', hiterates, hkept⟩ := ih
    obtain ⟨r'', hlast, hkept', _⟩ := hiterates.of_next hnext
    exact ⟨r'', hlast, fun fault hfault => hkept fault (hkept' fault hfault)⟩

end Iterates

namespace Expr

/-- **The faults of an evaluation**: of the opening, of a request for the next node, of reading all
that is left after some requests, and of reading everything at once.  The signals may have changed
before every request. -/
inductive Fails (live : Live) (signals : Signals) (signal : SignalId) (e : Expr) (fault : Fault) :
    Prop where
  | opening : e.iterate live signals signal = .error fault → Fails live signals signal e fault
  | request {i j k : Iteration} {signals' after : Signals} :
      e.iterate live signals signal = .ok i → i.Becomes j →
      Settles (fun fuel => j.next fuel signals') ((.error fault, k), after) →
      Fails live signals signal e fault
  | rest {i j : Iteration} {signals' after : Signals} :
      e.iterate live signals signal = .ok i → i.Becomes j →
      Settles (fun fuel => j.drain fuel signals') (.error fault, after) →
      Fails live signals signal e fault
  | atOnce (mode : Mode) : (e.evaluate live signals signal mode).result = .error fault →
      Fails live signals signal e fault

variable {live : Live} {signals : Signals} {signal : SignalId} {e : Expr} {fault : Fault}

/-- The fault of opening a run is an interrupt, or that of the script. -/
theorem begin_eq_error (h : e.begin live signals signal = .error fault) :
    fault = .interrupted ∨ e.source live = .error fault := by
  unfold begin at h
  split at h
  · exact Or.inl (Except.error.inj h).symm
  · right
    cases hsource : e.source live with
    | error fault' =>
      rw [hsource] at h
      obtain rfl : fault' = fault := Except.error.inj h
      rfl
    | ok src =>
      rw [hsource] at h
      cases h

/-- An evaluation fails with an interrupt, at the opening of its script or with its fault. -/
theorem Fails.cases_source (h : e.Fails live signals signal fault) :
    fault = .interrupted ∨ e.source live = .error fault ∨
      ∃ src, e.source live = .ok src ∧ src.script.fault = some fault := by
  cases h with
  | opening hiterate =>
    have hopened := e.opened_iterate live signals signal
    rw [hiterate] at hopened
    generalize hbegin : e.begin live signals signal = x at hopened
    cases hopened with
    | failed => exact (begin_eq_error hbegin).imp_right Or.inl
  | request hiterate hbecomes hnext =>
    obtain ⟨src, r, hsource, hscript, hiterates⟩ := exists_source_of_iterate hiterate
    obtain ⟨r', hlast, hkept⟩ := hiterates.of_becomes hbecomes
    obtain ⟨_, _, _, hfault⟩ := hlast.of_next hnext
    refine (hfault fault rfl).imp_right fun hlate => Or.inr ⟨src, hsource, ?_⟩
    exact hscript ▸ hkept fault hlate
  | rest hiterate hbecomes hdrain =>
    obtain ⟨src, r, hsource, hscript, hiterates⟩ := exists_source_of_iterate hiterate
    obtain ⟨r', hlast, hkept⟩ := hiterates.of_becomes hbecomes
    have hfault := Run.fault_of_drain (congrArg Prod.fst ((hlast.drain _).unique hdrain))
    refine hfault.imp_right fun hlate => Or.inr ⟨src, hsource, ?_⟩
    exact hscript ▸ hkept fault hlate
  | atOnce mode hvalue =>
    rw [result_evaluate] at hvalue
    cases hbegin : e.begin live signals signal with
    | error fault' =>
      rw [result_value, hbegin] at hvalue
      obtain rfl := Except.error.inj hvalue
      exact (begin_eq_error hbegin).imp_right Or.inl
    | ok r =>
      obtain ⟨src, hsource, hscript⟩ := exists_source_of_begin hbegin
      have hdrain : (r.drain signals).1 = .error fault := by
        rw [value, hbegin] at hvalue
        exact hvalue
      refine (Run.fault_of_drain hdrain).imp_right fun hlate => Or.inr ⟨src, hsource, ?_⟩
      exact hscript ▸ hlate

/-- **A fault names the leaf it comes from.**  Whatever the indexes of the snapshots answer, every
fault of an evaluation but an interrupt is a cause wrapped once for every operator on the way from
the root to a leaf, and evaluating this leaf alone fails for just this cause.  The kind of the fault
is that of the cause; an interrupt is never wrapped. -/
theorem fails_located (h : e.Fails live signals signal fault) :
    fault = .interrupted ∨ ∃ path leaf cause, LeafAt e path leaf ∧ FailsAlone live leaf cause ∧
      fault = Path.wrap path cause ∧ fault.kind = cause.kind ∧ fault.kind ≠ .interrupted := by
  refine h.cases_source.imp_right fun hsource => ?_
  have hlocated : Located live e fault := by
    rcases hsource with hopening | ⟨src, hsource, hfault⟩
    · exact located_of_error hopening
    · exact located_of_fault hsource hfault
  obtain ⟨path, leaf, cause, hleaf, hfails, rfl⟩ := hlocated
  refine ⟨path, leaf, cause, hleaf, hfails, rfl, path.kind_wrap cause, ?_⟩
  rw [path.kind_wrap]
  have hbare := hfails.bare
  cases cause <;> simp_all [Fault.kind, Fault.IsBare]

/-- An index that goes wrong after its first entry, read from within two operators while the inner
one is comparing: the entry is found to be wrong in operand 1 of this one. -/
theorem fails_located_comparing :
    let row : Bytes → Row := fun value => ⟨.text, 1, 1, 0, 0, value⟩
    let index : ValueIndex :=
      { enabled := fun _ => true, maxLength := 8, exact := fun _ _ => [⟨1, []⟩, ⟨9, []⟩]
        range := fun _ => [], orderedRanges := true }
    let s : Snapshot := ⟨0, "books", { rows := #[row [98], row [98], row [97]] }, index⟩
    let lookup : Lookup := .exact .text [98]
    let e : Expr := set .union [empty,
      set .intersect [nodes s.binding [0, 1, 2], access s.binding lookup true] true] true
    let cause : Fault := .indexInconsistent lookup 9 .outside
    e.Fails ⟨[s]⟩ .empty 0 (.operand .union 1 (.operand .intersect 1 cause)) ∧
      FailsAlone ⟨[s]⟩ (access s.binding lookup true) cause := by
  intro row index s lookup e cause
  have hfails : e.Fails ⟨[s]⟩ .empty 0 (.operand .union 1 (.operand .intersect 1 cause)) :=
    .atOnce .lazy (by cbv)
  refine ⟨hfails, ?_⟩
  obtain hinterrupted | ⟨path, leaf, cause', hleaf, hfailsAlone, hwrap, _⟩ := fails_located hfails
  · cases hinterrupted
  · simp only [e] at hleaf
    cases hleaf with
    | set hi hleaf =>
      obtain ⟨-, rfl, hinner⟩ := Fault.operand.inj hwrap
      obtain rfl := Option.some.inj hi
      cases hleaf with
      | set hi hleaf =>
        obtain ⟨-, rfl, hcause⟩ := Fault.operand.inj hinner
        obtain rfl := Option.some.inj hi
        cases hleaf with
        | access =>
          obtain rfl : cause' = cause := hcause.symm
          exact hfailsAlone

end Expr

end XmlStore
