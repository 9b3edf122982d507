import XmlStore.Proofs.FollowingExprs

/-!
# Iterations and runs

* `Run.pulls`, `Iteration.pulls` — asking for nodes several times while others raise signals.
* `Iterates` — an iteration whose reader follows the script of a run.  `Iterates.pulls` and
  `Iterates.drain` say that it always ends, with the answers of the run.
* `Expr.opened_iterate`, `Expr.collect_settles` — an expression is read by a reader as by its
  script, node by node and at once.
-/

namespace XmlStore

/-- The answer to a request for the next node, and the signals after it. -/
abbrev Pulled := Except Fault (Option Node) × Signals

/-- Requests for the next node, before each of which others raise signals. -/
def Run.pulls (r : Run) (signals : Signals) :
    List (List SignalId) → List Pulled × Run × Signals
  | [] => ([], r, signals)
  | raises :: others =>
    let (answer, r, signals) := r.next (signals.raiseAll raises)
    let (pulls, r, last) := pulls r signals others
    ((answer, signals) :: pulls, r, last)

namespace Iteration

/-- Requests for the next node, before each of which others raise signals. -/
def pulls (fuel : Nat) (i : Iteration) : List (List SignalId) → Reading (List Pulled × Iteration)
  | [] => return ([], i)
  | raises :: others => do
    modify (·.raiseAll raises)
    let (answer, i) ← i.next fuel
    let signals ← get
    let (pulls, i) ← pulls fuel i others
    return ((answer, signals) :: pulls, i)

/-- What an iteration answers, and what it is after its reader was asked. -/
def told (i : Iteration) : Except Fault (Option Node × Reader) × Signals →
    (Except Fault (Option Node) × Iteration) × Signals
  | (.error fault, signals) => ((.error fault, { i with done := true }), signals)
  | (.ok (none, reader), signals) => ((.ok none, { i with reader, done := true }), signals)
  | (.ok (some node, reader), signals) => ((.ok (some node), { i with reader }), signals)

variable {i : Iteration}

theorem next_eq (h : i.done = false) (fuel : Nat) (signals : Signals) :
    i.next fuel signals = (i.reader.next i.signal fuel signals).map i.told := by
  rw [next, if_neg (by simp [h]), Reading.bind_apply]
  cases i.reader.next i.signal fuel signals with
  | none => rfl
  | some found =>
    obtain ⟨result, signals'⟩ := found
    cases result with
    | error fault => rfl
    | ok found =>
      obtain ⟨node, reader⟩ := found
      cases node <;> rfl

theorem next_done (h : i.done = true) (fuel : Nat) (signals : Signals) :
    i.next fuel signals = some ((.ok none, i), signals) := by
  rw [next, if_pos h]
  rfl

theorem drain_eq (h : i.done = false) (fuel : Nat) :
    i.drain fuel = i.reader.collect i.signal fuel [] := by
  rw [drain, if_neg (by simp [h])]

theorem drain_done (h : i.done = true) (fuel : Nat) (signals : Signals) :
    i.drain fuel signals = some (.ok [], signals) := by
  rw [drain, if_pos h]
  rfl

theorem pulls_cons {i₁ i₂ : Iteration} {raises : List SignalId} {others : List (List SignalId)}
    {signals signals₁ signals₂ : Signals} {answer : Except Fault (Option Node)}
    {pulls : List Pulled}
    (hnext : Settles (fun fuel => i.next fuel (signals.raiseAll raises)) ((answer, i₁), signals₁))
    (hpulls : Settles (fun fuel => i₁.pulls fuel others signals₁) ((pulls, i₂), signals₂)) :
    Settles (fun fuel => i.pulls fuel (raises :: others) signals)
      (((answer, signals₁) :: pulls, i₂), signals₂) :=
  hnext.bind (hpulls.bind (.const _))

end Iteration

/-! ## Runs by their scripts -/

namespace Run

/-- What a run is after its script was pulled. -/
def pulled (r : Run) (held : List Snapshot) :
    Except Fault (Option (Node × Script)) × Signals → Except Fault (Option Node) × Run × Signals
  | (.error fault, signals) => (.error fault, r.ended held, signals)
  | (.ok none, signals) => (.ok none, r.ended held, signals)
  | (.ok (some (node, rest)), signals) =>
    (.ok (some node), { r with script := rest, held := held }, signals)

theorem next_eq (r : Run) (signals : Signals) :
    ∃ held, r.next signals = r.pulled held (r.script.pull r.signal signals) := by
  unfold next Script.pull
  generalize r.script.steps = steps
  generalize r.held = held
  induction steps generalizing signals held with
  | nil =>
    refine ⟨held, ?_⟩
    unfold nextFrom Script.pullFrom
    cases r.script.fault <;> rfl
  | cons step rest ih =>
    cases step with
    | visit raises => exact ih _ _
    | poll =>
      rw [nextFrom, Script.pullFrom]
      split
      · exact ⟨held, rfl⟩
      · exact ih _ _
    | release ids => exact ih _ _
    | yield node => exact ⟨held, rfl⟩

theorem drain_eq (r : Run) (signals : Signals) :
    r.drain signals = r.script.drain r.signal [] signals := by
  unfold drain Script.drain Script.nodes
  generalize r.script.steps = steps
  generalize ([] : List Node) = done
  induction steps generalizing signals done with
  | nil =>
    rw [drainFrom, Script.play, andThen]
    cases r.script.fault with
    | none => exact congrArg (fun l => (Except.ok l, signals)) (List.append_nil _).symm
    | some fault => rfl
  | cons step rest ih =>
    cases step with
    | visit raises => exact ih _ _
    | poll =>
      rw [drainFrom, Script.play]
      split
      · rfl
      · exact ih _ _
    | release ids => exact ih _ _
    | yield node =>
      rw [drainFrom, Script.play, ih, Step.filterMap_yield, List.reverse_cons]
      simp only [List.append_assoc, List.singleton_append]

/-- Nothing comes after the end of a run. -/
theorem next_ended {r : Run} (h : r.script = .empty) (signals : Signals) :
    r.next signals = (.ok none, r.ended r.held, signals) := by
  rw [next, h]
  rw [Script.empty, nextFrom, h]
  rfl

theorem drain_ended {r : Run} (h : r.script = .empty) (signals : Signals) :
    r.drain signals = (.ok [], signals) := by
  rw [drain_eq, h]
  rfl

end Run

/-! ## Iterations that follow runs -/

/-- An iteration gives the nodes of a run, or both have ended. -/
inductive Iterates (i : Iteration) (r : Run) : Prop where
  | going : i.done = false → i.signal = r.signal → Follows r.signal i.reader r.script →
      Iterates i r
  | ended : i.done = true → r.script = .empty → Iterates i r

namespace Iterates

variable {i : Iteration} {r : Run}

/-- **An iteration answers as the run does.** -/
theorem next (h : Iterates i r) (signals : Signals) :
    ∃ answer i' r' signals', Settles (fun fuel => i.next fuel signals) ((answer, i'), signals') ∧
      r.next signals = (answer, r', signals') ∧ Iterates i' r' := by
  cases h with
  | ended hdone hscript =>
    refine ⟨.ok none, i, r.ended r.held, signals, ?_, Run.next_ended hscript signals,
      .ended hdone rfl⟩
    simp only [Iteration.next_done hdone]
    exact .const _
  | going hdone hsignal hfollows =>
    obtain ⟨held, hnext⟩ := r.next_eq signals
    obtain ⟨outcome, hfound, hsame⟩ := hfollows.next signals
    have hsettles := hfound.map i.told
    rw [← hsignal] at hsettles
    simp only [← Iteration.next_eq hdone] at hsettles
    rw [hnext]
    generalize r.script.pull r.signal signals = pulled at hsame
    cases hsame with
    | failed => exact ⟨_, _, _, _, hsettles, rfl, .ended rfl rfl⟩
    | ok hsame =>
      cases hsame with
      | ended => exact ⟨_, _, _, _, hsettles, rfl, .ended rfl rfl⟩
      | node hrest => exact ⟨_, _, _, _, hsettles, rfl, .going hdone hsignal hrest⟩

/-- **An iteration answers as the run does, as often as it is asked.** -/
theorem pulls (h : Iterates i r) (signals : Signals) (others : List (List SignalId)) :
    ∃ pulls i' r' signals',
      Settles (fun fuel => i.pulls fuel others signals) ((pulls, i'), signals') ∧
      r.pulls signals others = (pulls, r', signals') ∧ Iterates i' r' := by
  induction others generalizing i r signals with
  | nil => exact ⟨[], i, r, signals, .const _, rfl, h⟩
  | cons raises others ih =>
    obtain ⟨answer, i₁, r₁, signals₁, hi, hr, hnext⟩ := h.next (signals.raiseAll raises)
    obtain ⟨pulls, i₂, r₂, signals₂, his, hrs, hlast⟩ := ih hnext signals₁
    refine ⟨(answer, signals₁) :: pulls, i₂, r₂, signals₂, Iteration.pulls_cons hi his, ?_, hlast⟩
    simp only [Run.pulls, hr, hrs]

/-- **An iteration gives all that is left as the run does.** -/
theorem drain (h : Iterates i r) (signals : Signals) :
    Settles (fun fuel => i.drain fuel signals) (r.drain signals) := by
  cases h with
  | ended hdone hscript =>
    simp only [Iteration.drain_done hdone, Run.drain_ended hscript]
    exact .const _
  | going hdone hsignal hfollows =>
    simp only [Iteration.drain_eq hdone, Run.drain_eq, hsignal]
    obtain ⟨outcome, hsettles, hall⟩ := hfollows.collect [] signals
    generalize r.script.drain r.signal [] signals = drained at hall
    cases hall with
    | failed => exact hsettles
    | ok hnodes => exact hnodes ▸ hsettles

end Iterates

namespace Expr

/-- **An expression is opened by a reader as by its script.** -/
theorem opened_iterate (live : Live) (signals : Signals) (signal : SignalId) (e : Expr) :
    Opened Iterates (e.iterate live signals signal) (e.begin live signals signal) := by
  unfold iterate begin
  cases hraised : signals.isRaised signal with
  | true =>
    rw [reader_of_raised hraised, if_pos rfl]
    exact .failed
  | false =>
    rw [if_neg (by simp)]
    have hopened := opened_reader live hraised e
    generalize e.reader live signals signal = x at hopened
    generalize e.source live = y at hopened
    cases hopened with
    | failed => exact .failed
    | ok hfollows => exact .ok (.going rfl rfl hfollows)

variable {live : Live} {signals : Signals} {signal : SignalId} {e : Expr}

theorem collect_of_unopened {fault : Fault} (h : e.iterate live signals signal = .error fault)
    (fuel : Nat) : e.collect live signal fuel signals = some (.error fault, signals) := by
  unfold iterate at h
  cases hreader : e.reader live signals signal with
  | ok r => rw [hreader] at h; cases h
  | error fault' =>
    rw [hreader] at h
    cases h
    simp only [collect, Reading.bind_apply, Reading.get_eq, Option.bind_some, hreader]
    rfl

theorem collect_of_opened {i : Iteration} (h : e.iterate live signals signal = .ok i)
    (fuel : Nat) : e.collect live signal fuel signals = i.drain fuel signals := by
  unfold iterate at h
  cases hreader : e.reader live signals signal with
  | error fault => rw [hreader] at h; cases h
  | ok r =>
    rw [hreader] at h
    cases h
    simp only [collect, Reading.bind_apply, Reading.get_eq, Option.bind_some, hreader]
    rfl

/-- **An expression is read at once by its reader as by its script.** -/
theorem collect_settles (live : Live) (signals : Signals) (signal : SignalId) (e : Expr) :
    Settles (fun fuel => e.collect live signal fuel signals)
      ((e.value live signals signal).result, (e.value live signals signal).signals) := by
  have hopened := e.opened_iterate live signals signal
  rw [value]
  cases hbegin : e.begin live signals signal with
  | error fault =>
    rw [hbegin] at hopened
    simp only [collect_of_unopened hopened.error_of_error]
    exact .const _
  | ok r =>
    rw [hbegin] at hopened
    obtain ⟨i, hi, hiterates⟩ := hopened.exists_of_ok
    simp only [collect_of_opened hi]
    exact hiterates.drain signals

end Expr

end XmlStore
