import XmlStore.Evaluation

/-!
# Reading an evaluation node by node

* `Run.Pulls` — pulling a run until it says that nothing more comes gives some nodes.
* `Run.pulls_of_drain` — these are the nodes of the run at once, if it comes to its end.
* `Expr.exists_pulls` — hence an expression that has a value gives it node by node too.
-/

namespace XmlStore

namespace Run

/-- Pulling a run gives these nodes, and then nothing more comes. -/
inductive Pulls : Run → Signals → List Node → Prop where
  | ended {r r' : Run} {signals signals' : Signals} :
      r.next signals = (.ok none, r', signals') → Pulls r signals []
  | next {r r' : Run} {signals signals' : Signals} {node : Node} {nodes : List Node} :
      r.next signals = (.ok (some node), r', signals') → Pulls r' signals' nodes →
      Pulls r signals (node :: nodes)

/-- A run with other steps to come. -/
def resume (r : Run) (held : List Snapshot) (steps : List (Step Node)) : Run :=
  { r with script := { r.script with steps := steps }, held := held }

/-- How a run goes on depends on the steps to come only. -/
theorem nextFrom_resume (r : Run) (signals : Signals) (held held' : List Snapshot)
    (steps steps' : List (Step Node)) :
    (r.resume held' steps').nextFrom signals held steps = r.nextFrom signals held steps := by
  induction steps generalizing signals held with
  | nil => rfl
  | cons step rest ih =>
    cases step with
    | visit raises => exact ih (signals.raiseAll raises) held
    | poll =>
      rw [nextFrom, nextFrom, ih signals held]
      rfl
    | release ids => exact ih signals (Source.letGo held ids)
    | yield => rfl

theorem next_resume (r : Run) (signals : Signals) (held : List Snapshot)
    (steps : List (Step Node)) :
    (r.resume held steps).next signals = r.nextFrom signals held steps :=
  nextFrom_resume r signals held held steps steps

/-- A step that yields nothing may be run on the way to the next node. -/
theorem Pulls.of_next_eq {r r' : Run} {signals signals' : Signals} {nodes : List Node}
    (h : r.Pulls signals nodes) (heq : r'.next signals' = r.next signals) :
    r'.Pulls signals' nodes := by
  cases h with
  | ended hnext => exact .ended (heq.trans hnext)
  | next hnext hlater => exact .next (heq.trans hnext) hlater

theorem pulls_resume {r : Run} {signals : Signals} (held : List Snapshot) {steps : List (Step Node)}
    {done all : List Node} (h : (r.drainFrom done signals steps).1 = .ok all) :
    ∃ nodes, all = done.reverse ++ nodes ∧ (r.resume held steps).Pulls signals nodes := by
  induction steps generalizing signals held done with
  | nil =>
    rw [drainFrom] at h
    split at h
    · rename_i hfault
      obtain rfl := Except.ok.inj h
      have hnext : (r.resume held []).next signals = (.ok none, r.ended held, signals) := by
        rw [next_resume, nextFrom, hfault]
      exact ⟨[], (List.append_nil _).symm, .ended hnext⟩
    · cases h
  | cons step rest ih =>
    cases step with
    | visit raises =>
      obtain ⟨nodes, hall, hpulls⟩ := ih held h
      refine ⟨nodes, hall, hpulls.of_next_eq ?_⟩
      rw [next_resume, next_resume, nextFrom]
    | poll =>
      rw [drainFrom] at h
      split at h
      · cases h
      · rename_i hraised
        obtain ⟨nodes, hall, hpulls⟩ := ih held h
        refine ⟨nodes, hall, hpulls.of_next_eq ?_⟩
        rw [next_resume, next_resume, nextFrom, if_neg hraised]
    | release ids =>
      obtain ⟨nodes, hall, hpulls⟩ := ih (Source.letGo held ids) h
      refine ⟨nodes, hall, hpulls.of_next_eq ?_⟩
      rw [next_resume, next_resume, nextFrom]
    | yield node =>
      obtain ⟨nodes, hall, hpulls⟩ := ih held h
      have hnext : (r.resume held (.yield node :: rest)).next signals =
          (.ok (some node), r.resume held rest, signals) := by
        rw [next_resume, nextFrom]; rfl
      refine ⟨node :: nodes, ?_, .next hnext hpulls⟩
      rw [hall, List.reverse_cons, List.append_assoc]; rfl

/-- **Reading a run node by node gives what it gives at once.** -/
theorem pulls_of_drain {r : Run} {signals : Signals} {nodes : List Node}
    (h : (r.drain signals).1 = .ok nodes) : r.Pulls signals nodes := by
  obtain ⟨later, rfl, hpulls⟩ := pulls_resume r.held h
  exact hpulls

end Run

theorem Expr.exists_pulls {live : Live} {signals : Signals} {signal : SignalId} {e : Expr}
    {nodes : List Node} (h : (e.value live signals signal).result = .ok nodes) :
    ∃ run, e.begin live signals signal = .ok run ∧ run.Pulls signals nodes := by
  unfold value at h
  cases hbegin : e.begin live signals signal with
  | error fault => rw [hbegin] at h; cases h
  | ok run =>
    rw [hbegin] at h
    exact ⟨run, rfl, Run.pulls_of_drain h⟩

end XmlStore
