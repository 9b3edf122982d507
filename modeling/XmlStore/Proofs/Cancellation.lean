import XmlStore.Proofs.FirmScripts
import XmlStore.Proofs.LazyEager
import XmlStore.Proofs.Polling
import XmlStore.Proofs.Sparing

/-!
# Cancellation is all or nothing

A reading that is cancelled is compared with one over indexes that spare the signal of the query,
begun with the signal taken back.

* `Script.course_sparing` — a course that is not cancelled has all nodes of its script.
* `Run.next_cases`, `Run.fault_of_next`, `Run.fault_of_drain` — what a request, or reading all that
  is left, finds out about the script of a run, whatever its signal is.
* `Truncates` — what is seen of a reading node by node that may be cancelled at any time;
  `Iterates.truncates` says so of every run.
* `Expr.all_or_nothing` — a cancelled evaluation is interrupted, or comes to what it would have come
  to without.
-/

namespace XmlStore

variable {signal : SignalId} {signals : Signals}

/-! ## Readings that are not cancelled -/

namespace Signals

theorem isRaised_reset (s : Signals) (id : SignalId) : (s.reset id).isRaised id = false := by
  unfold reset isRaised
  rw [Array.getElem?_setIfInBounds]
  split
  · split <;> rfl
  · rename_i hne
    exact absurd rfl hne

/-- A signal that is spared is not raised. -/
theorem isRaised_raiseAll_spared (s : Signals) (id : SignalId) (raises : List SignalId) :
    (s.raiseAll (raises.filter (· != id))).isRaised id = s.isRaised id := by
  rw [isRaised_raiseAll, hears]
  simp

end Signals

namespace Script

/-- **A course that is not cancelled** has all nodes of its script, and its fault. -/
theorem course_sparing (s : Script) (h : signals.isRaised signal = false) :
    (s.sparing signal).course signal signals = ⟨s.nodes, s.fault⟩ := by
  obtain ⟨steps, fault⟩ := s
  show courseFrom signal fault (steps.map (Step.sparing signal)) signals =
    ⟨steps.filterMap Step.result?, fault⟩
  induction steps generalizing signals with
  | nil => rfl
  | cons step rest ih =>
    cases step with
    | visit raises => exact ih ((signals.isRaised_raiseAll_spared signal raises).trans h)
    | poll => exact (if_neg (by simp [h])).trans (ih h)
    | release => exact ih h
    | yield node => exact congrArg (Course.cons node) (ih h)

/-- **A course is that of its script, or is interrupted.** -/
theorem course_cases (signal : SignalId) (s : Script) (signals : Signals) :
    s.course signal signals = ⟨s.nodes, s.fault⟩ ∨
      (s.course signal signals).fault = some .interrupted := by
  obtain ⟨steps, fault⟩ := s
  show courseFrom signal fault steps signals = ⟨steps.filterMap Step.result?, fault⟩ ∨
    (courseFrom signal fault steps signals).fault = some .interrupted
  induction steps generalizing signals with
  | nil => exact Or.inl rfl
  | cons step rest ih =>
    cases step with
    | visit raises => exact ih _
    | poll =>
      rw [courseFrom]
      split
      · exact Or.inr rfl
      · exact ih _
    | release => exact ih _
    | yield node =>
      rcases ih signals with hcourse | hcourse
      · exact Or.inl (congrArg (Course.cons node) hcourse)
      · exact Or.inr hcourse

/-- What a script that is pulled has come to, without regard to its signal. -/
theorem pull_cases (signal : SignalId) (s : Script) (signals : Signals) :
    match (s.pull signal signals).1 with
    | .error fault => fault = .interrupted ∨ s.nodes = [] ∧ s.fault = some fault
    | .ok none => s.nodes = [] ∧ s.fault = none
    | .ok (some (node, rest)) => s.nodes = node :: rest.nodes ∧ rest.fault = s.fault := by
  obtain ⟨steps, fault⟩ := s
  unfold pull nodes
  induction steps generalizing signals with
  | nil =>
    cases fault with
    | none => exact ⟨rfl, rfl⟩
    | some fault => exact Or.inr ⟨rfl, rfl⟩
  | cons step rest ih =>
    cases step with
    | visit => exact ih _
    | poll =>
      simp only [pullFrom]
      cases signals.isRaised signal with
      | true => exact Or.inl rfl
      | false => exact ih _
    | release => exact ih _
    | yield => exact ⟨rfl, rfl⟩

end Script

namespace Run

variable {r r' : Run} {signals' : Signals} {answer : Except Fault (Option Node)}

theorem signal_next (h : r.next signals = (answer, r', signals')) : r'.signal = r.signal := by
  obtain ⟨held, hnext⟩ := r.next_eq signals
  rw [h] at hnext
  unfold pulled at hnext
  split at hnext <;> cases hnext <;> rfl

/-- What one request finds out about the script of a run. -/
theorem next_cases (r : Run) (signals : Signals) :
    match r.next signals with
    | (.error fault, r', _) =>
      r'.script = .empty ∧
        (fault = .interrupted ∨ r.script.nodes = [] ∧ r.script.fault = some fault)
    | (.ok none, r', _) => r'.script = .empty ∧ r.script.nodes = [] ∧ r.script.fault = none
    | (.ok (some node), r', _) =>
      r.script.nodes = node :: r'.script.nodes ∧ r'.script.fault = r.script.fault := by
  obtain ⟨held, hnext⟩ := r.next_eq signals
  have hcases := r.script.pull_cases r.signal signals
  rw [hnext]
  generalize r.script.pull r.signal signals = pull at hcases
  obtain ⟨outcome, signals'⟩ := pull
  cases outcome with
  | error fault => exact ⟨rfl, hcases⟩
  | ok found =>
    cases found with
    | none => exact ⟨rfl, hcases⟩
    | some found => exact hcases

/-- What a request fails with is an interrupt or the fault of the script, and what is left of the
run has no other fault. -/
theorem fault_of_next (h : r.next signals = (answer, r', signals')) :
    (∀ fault, r'.script.fault = some fault → r.script.fault = some fault) ∧
      ∀ fault, answer = .error fault → fault = .interrupted ∨ r.script.fault = some fault := by
  have hcases := r.next_cases signals
  rw [h] at hcases
  cases answer with
  | error fault =>
    obtain ⟨hempty, hfault⟩ := hcases
    constructor
    · intro _ hsome
      rw [hempty] at hsome
      cases hsome
    · intro fault' heq
      obtain rfl := Except.error.inj heq
      exact hfault.imp_right And.right
  | ok found =>
    refine ⟨fun fault hsome => ?_, fun _ heq => by cases heq⟩
    cases found with
    | none =>
      rw [hcases.1] at hsome
      cases hsome
    | some node => exact hcases.2 ▸ hsome

/-- A run that is drained fails with an interrupt or with the fault of its script. -/
theorem fault_of_drain {fault : Fault} (h : (r.drain signals).1 = .error fault) :
    fault = .interrupted ∨ r.script.fault = some fault := by
  have hvalue : (r.script.course r.signal signals).value = .error fault := by
    rw [← Script.drain_eq_course, ← drain_eq, h]
  rw [Course.value] at hvalue
  split at hvalue
  · cases hvalue
  · rename_i fault' hfault
    obtain rfl := Except.error.inj hvalue
    rcases r.script.course_cases r.signal signals with hcourse | hinterrupted
    · rw [hcourse] at hfault
      exact Or.inr hfault
    · exact Or.inl (Option.some.inj (hfault.symm.trans hinterrupted))

end Run

/-! ## Reading node by node -/

/-- The nodes that were handed out. -/
def yielded (pulls : List Pulled) : List Node :=
  pulls.filterMap fun p => match p.1 with
    | .ok node? => node?
    | .error _ => none

/-- What is seen of a reading node by node that may be cancelled at any time, if `c` is its course
when it is not. -/
structure Truncates (signal : SignalId) (c : Course) (pulls : List Pulled) : Prop where
  /-- The nodes are the first ones of the course. -/
  nodes : yielded pulls <+: c.nodes
  /-- No node comes once the signal is raised. -/
  unraised : ∀ node signals, (.ok (some node), signals) ∈ pulls → signals.isRaised signal = false
  /-- The end is told after a fault, or if all nodes of the course have come. -/
  complete : ∀ before signals after, pulls = before ++ (.ok none, signals) :: after →
    (∃ fault signals, (.error fault, signals) ∈ before) ∨ yielded before = c.nodes ∧ c.fault = none
  /-- A fault is an interrupt, or the one of the course after all of its nodes. -/
  faults : ∀ before fault signals after, pulls = before ++ (.error fault, signals) :: after →
    fault = .interrupted ∨ yielded before = c.nodes ∧ c.fault = some fault

namespace Truncates

variable {c : Course} {pulls : List Pulled}

theorem nil : Truncates signal c [] where
  nodes := List.nil_prefix
  unraised _ _ h := by cases h
  complete before _ _ h := by cases before <;> cases h
  faults before _ _ _ h := by cases before <;> cases h

theorem node (h : Truncates signal c pulls) {node : Node}
    (hraised : signals.isRaised signal = false) :
    Truncates signal (.cons node c) ((.ok (some node), signals) :: pulls) where
  nodes := (List.prefix_cons_inj node).2 h.nodes
  unraised _ _ hmem := by
    rcases List.mem_cons.1 hmem with heq | hmem
    · cases heq
      exact hraised
    · exact h.unraised _ _ hmem
  complete before _ after heq := by
    cases before with
    | nil => cases heq
    | cons first rest =>
      obtain ⟨rfl, hrest⟩ := List.cons.inj heq
      rcases h.complete rest _ after hrest with ⟨fault, signals', hmem⟩ | ⟨hall, hfault⟩
      · exact Or.inl ⟨fault, signals', List.mem_cons_of_mem _ hmem⟩
      · exact Or.inr ⟨congrArg (node :: ·) hall, hfault⟩
  faults before fault _ after heq := by
    cases before with
    | nil => cases heq
    | cons first rest =>
      obtain ⟨rfl, hrest⟩ := List.cons.inj heq
      rcases h.faults rest fault _ after hrest with hinterrupted | ⟨hall, hfault⟩
      · exact Or.inl hinterrupted
      · exact Or.inr ⟨congrArg (node :: ·) hall, hfault⟩

/-- The end was told, and nothing more comes. -/
theorem ended (hnodes : c.nodes = []) (hfault : c.fault = none)
    (hsilent : ∀ p ∈ pulls, p.1 = .ok none) :
    Truncates signal c ((.ok none, signals) :: pulls) := by
  have hall : ∀ p ∈ (Except.ok none, signals) :: pulls, p.1 = .ok none :=
    List.forall_mem_cons.2 ⟨rfl, hsilent⟩
  have hyielded : ∀ l : List Pulled, (∀ p ∈ l, p.1 = .ok none) → yielded l = [] := by
    intro l hl
    refine List.filterMap_eq_nil_iff.2 fun p hp => ?_
    rw [hl p hp]
  constructor
  case nodes => exact hyielded _ hall ▸ List.nil_prefix
  case unraised =>
    intro node signals' hmem
    have hnone : Except.ok (some node) = Except.ok none := hall _ hmem
    cases hnone
  case complete =>
    intro before signals' after heq
    refine Or.inr ⟨?_, hfault⟩
    rw [hnodes]
    exact hyielded before fun p hp => hall p (heq ▸ List.mem_append_left _ hp)
  case faults =>
    intro before fault signals' after heq
    have hnone : Except.error fault = Except.ok none :=
      hall (.error fault, signals') (heq ▸ List.mem_append_right _ List.mem_cons_self)
    cases hnone

/-- A fault was told, and nothing more comes. -/
theorem failed {fault : Fault}
    (hfault : fault = .interrupted ∨ c.nodes = [] ∧ c.fault = some fault)
    (hsilent : ∀ p ∈ pulls, p.1 = .ok none) :
    Truncates signal c ((.error fault, signals) :: pulls) := by
  have hyielded : yielded ((.error fault, signals) :: pulls) = [] := by
    refine List.filterMap_eq_nil_iff.2 fun p hp => ?_
    rcases List.mem_cons.1 hp with rfl | hp
    · rfl
    · rw [hsilent p hp]
  constructor
  case nodes => exact hyielded ▸ List.nil_prefix
  case unraised =>
    intro node signals' hmem
    rcases List.mem_cons.1 hmem with heq | hmem
    · cases heq
    · cases hsilent _ hmem
  case complete =>
    intro before signals' after heq
    cases before with
    | nil => cases heq
    | cons first rest =>
      obtain ⟨rfl, -⟩ := List.cons.inj heq
      exact Or.inl ⟨fault, signals, List.mem_cons_self⟩
  case faults =>
    intro before fault' signals' after heq
    cases before with
    | nil =>
      obtain ⟨hfirst, -⟩ := List.cons.inj heq
      cases hfirst
      rcases hfault with hinterrupted | ⟨hnodes, hfault⟩
      · exact Or.inl hinterrupted
      · exact Or.inr ⟨hnodes.symm, hfault⟩
    | cons first rest =>
      obtain ⟨-, hrest⟩ := List.cons.inj heq
      cases hsilent (.error fault', signals') (hrest ▸ List.mem_append_right _ List.mem_cons_self)

end Truncates

/-- A reader polls before it hands out a node. -/
theorem Reader.unraised_of_next {r r' : Reader} {fuel : Nat} {node : Node} {signals' : Signals}
    (h : r.next signal fuel signals = some (.ok (some node, r'), signals')) :
    signals'.isRaised signal = false := by
  cases fuel with
  | zero => rw [next] at h; cases h
  | succ fuel =>
    rw [next_eq] at h
    obtain ⟨⟨result, signals''⟩, _, hfound⟩ := Option.map_eq_some_iff.1 h
    cases result with
    | error fault => cases hfound
    | ok found =>
      obtain ⟨found, r''⟩ := found
      cases found with
      | none => cases hfound
      | some node' =>
        simp only [handOut] at hfound
        split at hfound
        · cases hfound
        · rename_i hraised
          cases hfound
          simpa using hraised

/-- Once a run has ended, every answer is that nothing more comes. -/
theorem Run.pulls_ended {r : Run} (h : r.script = .empty) (signals : Signals)
    (others : List (List SignalId)) : ∀ p ∈ (r.pulls signals others).1, p.1 = .ok none := by
  induction others generalizing r signals with
  | nil => exact fun p hp => by cases hp
  | cons raises others ih =>
    simp only [pulls, next_ended h]
    exact List.forall_mem_cons.2 ⟨rfl, ih rfl _⟩

namespace Iterates

variable {i i' : Iteration} {r : Run}

/-- An iteration that hands out a node is not cancelled. -/
theorem unraised (h : Iterates i r) {fuel : Nat} {node : Node} {signals' : Signals}
    (hfound : i.next fuel signals = some ((.ok (some node), i'), signals')) :
    signals'.isRaised r.signal = false := by
  cases h with
  | ended hdone =>
    rw [Iteration.next_done hdone] at hfound
    cases hfound
  | going hdone hsignal =>
    rw [Iteration.next_eq hdone, hsignal] at hfound
    obtain ⟨⟨result, signals₁⟩, hread, htold⟩ := Option.map_eq_some_iff.1 hfound
    cases result with
    | error fault => cases htold
    | ok found =>
      obtain ⟨found, reader⟩ := found
      cases found with
      | none => cases htold
      | some node' =>
        cases htold
        exact Reader.unraised_of_next hread

/-- **A reading that may be cancelled at any time** gives the first nodes of its script, none of
them once it is cancelled, and does not look complete before it is.  The induction is on the
requests. -/
theorem truncates (h : Iterates i r) (signals : Signals) (others : List (List SignalId)) :
    Truncates r.signal ⟨r.script.nodes, r.script.fault⟩ (r.pulls signals others).1 := by
  induction others generalizing i r signals with
  | nil => exact .nil
  | cons raises others ih =>
    obtain ⟨answer, i₁, r₁, signals₁, hi, hr, hiterates⟩ := h.next (signals.raiseAll raises)
    have hcases := r.next_cases (signals.raiseAll raises)
    simp only [Run.pulls, hr]
    rw [hr] at hcases
    cases answer with
    | error fault =>
      obtain ⟨hempty, hfault⟩ := hcases
      exact .failed hfault (Run.pulls_ended hempty _ _)
    | ok found =>
      cases found with
      | none =>
        obtain ⟨hempty, hnodes, hfault⟩ := hcases
        exact .ended hnodes hfault (Run.pulls_ended hempty _ _)
      | some node =>
        obtain ⟨hnodes, hfault⟩ := hcases
        rw [hnodes, ← hfault, ← Run.signal_next hr]
        obtain ⟨fuel, hfound⟩ := hi.exists_fuel
        exact (ih hiterates _).node (Run.signal_next hr ▸ h.unraised hfound)

end Iterates

/-! ## Expressions -/

/-- With enough fuel an iteration answers this while others raise signals. -/
def Iteration.Answers (signals : Signals) (i : Iteration) (others : List (List SignalId))
    (pulls : List Pulled) : Prop :=
  Settles (fun fuel => (i.pulls fuel others signals).map fun found => found.1.1) pulls

/-- A run answers this while others raise signals. -/
def Run.Answers (signals : Signals) (r : Run) (others : List (List SignalId))
    (pulls : List Pulled) : Prop := (r.pulls signals others).1 = pulls

/-- What becomes of a reading node by node that may be cancelled at any time, by what becomes of it
if it is not. -/
inductive CancelledLike {ι : Type} (signal : SignalId)
    (answers : ι → List (List SignalId) → List Pulled → Prop) (shows : ι → Nat → Seen → Prop) :
    Except Fault ι → Except Fault ι → Prop where
  /-- It is cancelled before it is opened. -/
  | interrupted {x : Except Fault ι} : CancelledLike signal answers shows (.error .interrupted) x
  /-- It cannot be opened either way. -/
  | unopened {fault : Fault} : CancelledLike signal answers shows (.error fault) (.error fault)
  /-- It gives the beginning of the course that the other one shows, whatever signals others raise
  before each request. -/
  | opened {i spared : ι} {course : Course} :
      (∀ n, shows spared n (course.answers n, course.left n)) →
      (∀ others, ∃ pulls, answers i others pulls ∧ Truncates signal course pulls) →
      CancelledLike signal answers shows (.ok i) (.ok spared)

namespace Expr

variable {live : Live}

/-- A run of an expression runs its script. -/
theorem exists_source_of_begin {e : Expr} {r : Run} (h : e.begin live signals signal = .ok r) :
    ∃ src, e.source live = .ok src ∧ r.script = src.script := by
  unfold begin at h
  split at h
  · cases h
  · cases hsource : e.source live with
    | error fault => rw [hsource] at h; cases h
    | ok src =>
      rw [hsource] at h
      cases h
      exact ⟨src, rfl, rfl⟩

theorem begin_sparing (e : Expr) :
    e.begin (live.sparing signal) (signals.reset signal) signal =
      (e.source live).map fun src =>
        ⟨signal, src.script.sparing signal, src.held.map (Snapshot.sparing signal)⟩ := by
  rw [begin, if_neg (by simp [Signals.isRaised_reset]), source_sparing]
  cases e.source live <;> rfl

/-- An expression is opened over indexes that spare the signal as it is opened otherwise, unless
the signal is raised. -/
theorem begin_cases (live : Live) (signals : Signals) (signal : SignalId) (e : Expr) :
    e.begin live signals signal = .error .interrupted ∨
      (∃ fault, e.begin live signals signal = .error fault ∧
        e.begin (live.sparing signal) (signals.reset signal) signal = .error fault) ∨
      ∃ script held held', e.begin live signals signal = .ok ⟨signal, script, held⟩ ∧
        e.begin (live.sparing signal) (signals.reset signal) signal =
          .ok ⟨signal, script.sparing signal, held'⟩ := by
  rw [begin_sparing, begin]
  split
  · exact Or.inl rfl
  · cases e.source live with
    | error fault => exact Or.inr (Or.inl ⟨fault, rfl, rfl⟩)
    | ok src => exact Or.inr (Or.inr ⟨src.script, src.held, _, rfl, rfl⟩)

/-- **Reading at once is all or nothing.** -/
theorem value_spared (live : Live) (signals : Signals) (signal : SignalId) (e : Expr) :
    (e.value live signals signal).result =
        (e.value (live.sparing signal) (signals.reset signal) signal).result ∨
      (e.value live signals signal).result = .error .interrupted := by
  rw [result_value, result_value]
  rcases e.begin_cases live signals signal with
    hbegin | ⟨fault, hbegin, hspared⟩ | ⟨script, _, _, hbegin, hspared⟩
  · rw [hbegin]
    exact Or.inr rfl
  · rw [hbegin, hspared]
    exact Or.inl rfl
  · rw [hbegin, hspared]
    dsimp only
    rw [Script.course_sparing script (signals.isRaised_reset signal)]
    rcases script.course_cases signal signals with hcourse | hcourse
    · exact Or.inl (congrArg Course.value hcourse)
    · right
      rw [Course.value, hcourse]

/-- Nothing but the signal interrupts a reading. -/
theorem firm_value_spared (live : Live) (signals : Signals) (signal : SignalId) (e : Expr) :
    FirmResult (· ≠ .interrupted) (fun _ => True)
      (e.value (live.sparing signal) (signals.reset signal) signal).result := by
  have hfirm := e.firm_source live
  rw [result_value, begin_sparing]
  cases hsource : e.source live with
  | error fault =>
    rw [hsource] at hfirm
    show fault.kind ≠ .interrupted
    obtain hkind | hkind := hfirm
    · rw [hkind]
      exact FaultKind.noConfusion
    · rw [hkind]
      exact FaultKind.noConfusion
  | ok src =>
    rw [hsource] at hfirm
    show FirmResult _ _ ((src.script.sparing signal).course signal (signals.reset signal)).value
    rw [Script.course_sparing _ (signals.isRaised_reset signal), Course.value]
    cases hfault : src.script.fault with
    | none => trivial
    | some fault =>
      show fault.kind ≠ .interrupted
      rw [hfirm fault hfault]
      exact FaultKind.noConfusion

/-- **Reading node by node is all or nothing.** -/
theorem iterate_spared (live : Live) (signals : Signals) (signal : SignalId) (e : Expr) :
    CancelledLike signal (Iteration.Answers signals) (Iteration.Shows (signals.reset signal))
        (e.iterate live signals signal)
        (e.iterate (live.sparing signal) (signals.reset signal) signal) ∧
      CancelledLike signal (Run.Answers signals) (Run.Shows (signals.reset signal))
        (e.begin live signals signal)
        (e.begin (live.sparing signal) (signals.reset signal) signal) := by
  have hopened := e.opened_iterate live signals signal
  have hopened' := e.opened_iterate (live.sparing signal) (signals.reset signal) signal
  rcases e.begin_cases live signals signal with
    hbegin | ⟨fault, hbegin, hspared⟩ | ⟨script, held, held', hbegin, hspared⟩
  · rw [hbegin] at hopened ⊢
    rw [hopened.error_of_error]
    exact ⟨.interrupted, .interrupted⟩
  · rw [hbegin] at hopened ⊢
    rw [hspared] at hopened' ⊢
    rw [hopened.error_of_error, hopened'.error_of_error]
    exact ⟨.unopened, .unopened⟩
  · rw [hbegin] at hopened ⊢
    rw [hspared] at hopened' ⊢
    obtain ⟨i, hi, hiterates⟩ := hopened.exists_of_ok
    obtain ⟨spared, hspared, hiterates'⟩ := hopened'.exists_of_ok
    rw [hi, hspared]
    have hseen : ∀ n, (Run.mk signal (script.sparing signal) held').seen (signals.reset signal) n =
        ((Course.mk script.nodes script.fault).answers n,
          (Course.mk script.nodes script.fault).left n) := by
      intro n
      rw [Run.seen_eq, Script.course_sparing script (signals.isRaised_reset signal)]
    constructor
    · refine .opened (fun n => hseen n ▸ hiterates'.shows _ n) fun others => ?_
      obtain ⟨pulls, i', r', signals', hpulls, hrun, _⟩ := hiterates.pulls signals others
      have htruncates := hiterates.truncates signals others
      rw [hrun] at htruncates
      exact ⟨pulls, hpulls.map fun found => found.1.1, htruncates⟩
    · exact .opened hseen fun others => ⟨_, rfl, hiterates.truncates signals others⟩

/-- **Cancellation is all or nothing**, whenever the signal of a query is raised: before the query
is opened, by others between two requests for a node, or by an index while it is read.  Reading at
once comes to what it comes to without that, or is interrupted, and an interrupt carries no operand.
Reading node by node gives the beginning of the reading that is not cancelled.  Every reading comes
to an end, and a run answers as the reader does. -/
theorem all_or_nothing (live : Live) (signals : Signals) (signal : SignalId) (e : Expr) :
    (∃ value after spared after', Settles (fun fuel => e.collect live signal fuel signals)
          (value, after) ∧
      Settles (fun fuel => e.collect (live.sparing signal) signal fuel (signals.reset signal))
        (spared, after') ∧
      (value = spared ∨ value = .error .interrupted) ∧
      (∀ fault, spared = .error fault → fault.kind ≠ .interrupted) ∧
      (e.value live signals signal).result = value ∧
      (e.value (live.sparing signal) (signals.reset signal) signal).result = spared) ∧
    CancelledLike signal (Iteration.Answers signals) (Iteration.Shows (signals.reset signal))
      (e.iterate live signals signal)
      (e.iterate (live.sparing signal) (signals.reset signal) signal) ∧
    CancelledLike signal (Run.Answers signals) (Run.Shows (signals.reset signal))
      (e.begin live signals signal)
      (e.begin (live.sparing signal) (signals.reset signal) signal) := by
  refine ⟨⟨_, _, _, _, e.collect_settles _ _ _, e.collect_settles _ _ _,
    e.value_spared live signals signal, ?_, rfl, rfl⟩, e.iterate_spared live signals signal⟩
  intro fault hspared
  have hfirm := e.firm_value_spared live signals signal
  rw [hspared] at hfirm
  exact hfirm

end Expr

end XmlStore
