import XmlStore.Proofs.CompleteReadings
import XmlStore.Proofs.LookupValues
import XmlStore.Proofs.OpeningFaults

/-!
# The courses of leaves

What a leaf gives is known from its script alone, unless the query is cancelled.

* `Script.course_of_quiet` — a script that nobody interrupts has all of its nodes, and its fault.
* `Source.nodes_ofLookup` — a lookup that is read to its end gives its positions as they are listed.
* `Source.quiet_ofLookup` — a lookup interrupts nothing if the entries of its answer do not.
* `Expr.course_of_source` — what is read of an expression, at once and on request, is the course of
  its script.
-/

namespace XmlStore

/-- The nodes at given positions, in the order given. -/
def Snapshot.nodesAt (s : Snapshot) (pres : List Nat) : List Node :=
  pres.map fun pre => ⟨s.id, pre⟩

namespace Script

/-- **The course of a script that nobody interrupts.** -/
theorem course_of_quiet {signal : SignalId} {signals : Signals} {s : Script}
    (hraised : signals.isRaised signal = false)
    (hquiet : Step.allQuiet (·.contains signal) s.steps = true) :
    s.course signal signals = ⟨s.nodes, s.fault⟩ := by
  obtain ⟨steps, fault⟩ := s
  show courseFrom signal fault steps signals = ⟨steps.filterMap Step.result?, fault⟩
  induction steps generalizing signals with
  | nil => rfl
  | cons step rest ih =>
    rw [Step.allQuiet_cons, Bool.and_eq_true] at hquiet
    cases step with
    | visit raises =>
      have hunheard : signals.hears signal raises = false := by
        have hnames : raises.contains signal = false := by simpa [Step.isQuiet] using hquiet.1
        rw [Signals.hears, hnames, Bool.and_false]
      refine ih ?_ hquiet.2
      rw [Signals.isRaised_raiseAll, hraised, hunheard, Bool.or_false]
    | poll => exact (if_neg (by simp [hraised])).trans (ih hraised hquiet.2)
    | release => exact ih hraised hquiet.2
    | yield node => exact congrArg (Course.cons node) (ih hraised hquiet.2)

variable {snapshot : Nat} {fault? : Nat → Option Fault} {steps : List (Step Nat)}

/-- A cursor without a bad position gives all of them. -/
theorem nodes_ofSteps (h : (ofSteps snapshot fault? steps).fault = none) :
    (ofSteps snapshot fault? steps).nodes =
      (steps.filterMap Step.result?).map fun pre => ⟨snapshot, pre⟩ := by
  induction steps with
  | nil => rfl
  | cons step rest ih =>
    cases step with
    | visit => exact ih h
    | poll => exact ih h
    | release => exact ih h
    | yield pre =>
      rw [ofSteps] at h ⊢
      split at h
      · cases h
      · rename_i hpre
        rw [Step.filterMap_yield, List.map_cons, ← ih h]
        rfl

/-- The fault of a cursor is that of one of its positions. -/
theorem fault_ofSteps {fault : Fault} (h : (ofSteps snapshot fault? steps).fault = some fault) :
    ∃ pre, fault? pre = some fault := by
  induction steps with
  | nil => cases h
  | cons step rest ih =>
    cases step with
    | visit => exact ih h
    | poll => exact ih h
    | release => exact ih h
    | yield pre =>
      rw [ofSteps] at h
      split at h
      · rename_i hpre
        exact ⟨pre, hpre.trans h⟩
      · exact ih h

/-- Checking the positions of a cursor interrupts nothing. -/
theorem quiet_ofSteps {hears : List SignalId → Bool} (h : Step.allQuiet hears steps = true) :
    Step.allQuiet hears (ofSteps snapshot fault? steps).steps = true := by
  induction steps with
  | nil => rfl
  | cons step rest ih =>
    rw [Step.allQuiet_cons, Bool.and_eq_true] at h
    have hrest := ih h.2
    cases step with
    | visit =>
      show (_ && Step.allQuiet hears (ofSteps snapshot fault? rest).steps) = true
      rw [hrest, Bool.and_true]
      exact h.1
    | poll => exact hrest
    | release => exact hrest
    | yield pre =>
      rw [ofSteps]
      split
      · rfl
      · exact hrest

end Script

namespace Source

variable {s : Snapshot} {lookup : Lookup}

theorem nodes_ofLookup (h : (ofLookup s lookup).script.fault = none) :
    (ofLookup s lookup).script.nodes = s.nodesAt (s.listed lookup) := by
  unfold ofLookup at h ⊢
  unfold Snapshot.listed
  cases hanswers : s.index.answers lookup with
  | true =>
    simp only [hanswers, if_true] at h ⊢
    rw [Script.nodes_ofSteps h, Step.filterMap_result?_entries]
    rfl
  | false =>
    simp only [hanswers, Bool.false_eq_true, if_false] at h ⊢
    rw [Script.nodes_ofSteps h, Snapshot.filterMap_scanSteps]
    rfl

/-- The fault of a lookup is that of an entry. -/
theorem fault_ofLookup {fault : Fault} (h : (ofLookup s lookup).script.fault = some fault) :
    ∃ pre reason, fault = .indexInconsistent lookup pre reason := by
  unfold ofLookup at h
  cases hanswers : s.index.answers lookup with
  | true =>
    simp only [hanswers, if_true] at h
    obtain ⟨pre, hpre⟩ := Script.fault_ofSteps h
    obtain ⟨reason, _, rfl⟩ := Option.map_eq_some_iff.1 hpre
    exact ⟨pre, reason, rfl⟩
  | false =>
    simp only [hanswers, Bool.false_eq_true, if_false] at h
    obtain ⟨pre, hpre⟩ := Script.fault_ofSteps h
    cases hpre

theorem quiet_ofLookup {signal : SignalId}
    (h : ∀ entry ∈ s.index.answer lookup, signal ∉ entry.raises) :
    Step.allQuiet (·.contains signal) (ofLookup s lookup).script.steps = true := by
  unfold ofLookup
  split
  · refine Script.quiet_ofSteps (Step.allQuiet_entries fun entry he => ?_)
    simpa using h entry he
  · exact Script.quiet_ofSteps (s.allQuiet_scanSteps rfl lookup)

end Source

namespace Expr

variable {live : Live} {signals : Signals} {signal : SignalId} {e : Expr} {src : Source}

/-- **What is read of an expression is the course of its script**, at once and on request. -/
theorem course_of_source (hraised : signals.isRaised signal = false)
    (hsource : e.source live = .ok src) :
    (e.value live signals signal).result = (src.script.course signal signals).value ∧
      ∃ i, e.iterate live signals signal = .ok i ∧ ∀ n, i.Shows signals n
        ((src.script.course signal signals).answers n,
          (src.script.course signal signals).left n) := by
  have hbegin : e.begin live signals signal = .ok ⟨signal, src.script, src.held⟩ := by
    rw [begin_eq hraised, hsource]
    rfl
  have hopened := e.opened_iterate live signals signal
  rw [hbegin] at hopened
  obtain ⟨i, hi, hiterates⟩ := hopened.exists_of_ok
  refine ⟨by rw [result_value, hbegin], i, hi, fun n => ?_⟩
  exact (Run.mk signal src.script src.held).seen_eq signals n ▸ hiterates.shows signals n

end Expr

end XmlStore
