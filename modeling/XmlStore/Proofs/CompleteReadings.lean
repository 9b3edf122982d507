import XmlStore.Proofs.Cancellation

/-!
# Readings that come to their end

A reading that comes to its end without a fault has given every node of its script, in whatever
portions it was read and whatever signals were raised meanwhile.

* `Expr.Returns` — the nodes that an evaluation returns, read at once or on request.
* `Run.nodes_of_pulls` — a run that is asked for some nodes and then for the rest has given the
  nodes of its script.
* `Expr.Returns.exists_source` — hence an evaluation returns the nodes of its script.
-/

namespace XmlStore

theorem Settles.unique {α : Type} {m : Nat → Option α} {a b : α} (h : Settles m a)
    (h' : Settles m b) : a = b := by
  obtain ⟨least, hm⟩ := h
  obtain ⟨least', hm'⟩ := h'
  apply Option.some.inj
  rw [← hm (max least least') (Nat.le_max_left _ _), hm' _ (Nat.le_max_right _ _)]

/-- What is asked for on request is handed out, or is told to be the end. -/
theorem handedOut_eq_cons {taken : List Node} {ended : Nat} {answer : Except Fault (Option Node)}
    {answers : List (Except Fault (Option Node))}
    (h : answer :: answers = handedOut taken ++ List.replicate ended (.ok none)) :
    (∃ node rest, taken = node :: rest ∧ answer = .ok (some node) ∧
      answers = handedOut rest ++ List.replicate ended (.ok none)) ∨
    (∃ more, taken = [] ∧ answer = .ok none ∧ answers = List.replicate more (.ok none)) := by
  cases taken with
  | nil =>
    cases ended with
    | zero => cases h
    | succ more =>
      obtain ⟨rfl, rfl⟩ := List.cons.inj h
      exact Or.inr ⟨more, rfl, rfl, rfl⟩
  | cons node rest =>
    obtain ⟨rfl, rfl⟩ := List.cons.inj h
    exact Or.inl ⟨node, rest, rfl, rfl, rfl⟩

/-- A script that is read to its end without a fault gives its nodes. -/
theorem Script.nodes_of_drain {signal : SignalId} {s : Script} {signals after : Signals}
    {nodes : List Node} (h : s.drain signal [] signals = (.ok nodes, after)) :
    s.fault = none ∧ s.nodes = nodes := by
  unfold drain at h
  rcases play_cases signal s.steps signals with ⟨signals', hplay⟩ | ⟨signals', hplay⟩
  · rw [hplay] at h
    cases h
  · rw [hplay] at h
    cases hfault : s.fault with
    | none =>
      simp only [andThen, hfault, Prod.mk.injEq, Except.ok.injEq] at h
      exact ⟨rfl, h.1⟩
    | some fault =>
      simp only [andThen, hfault] at h
      cases h

namespace Run

/-- **A run that is read to its end gives the nodes of its script**: those that are handed out on
request and then all that are left.  The induction is on the requests. -/
theorem nodes_of_pulls {r r' : Run} {signals signals₁ signals₂ after : Signals}
    {others : List (List SignalId)} {pulls : List Pulled} {taken rest : List Node} {ended : Nat}
    (hpulls : r.pulls signals others = (pulls, r', signals₁))
    (htaken : pulls.map Prod.fst = handedOut taken ++ List.replicate ended (.ok none))
    (hrest : r'.drain signals₂ = (.ok rest, after)) :
    r.script.fault = none ∧ r.script.nodes = taken ++ rest := by
  induction others generalizing r signals pulls taken ended with
  | nil =>
    cases hpulls
    have hnone : handedOut taken = [] := (List.append_eq_nil_iff.1 htaken.symm).1
    obtain rfl : taken = [] := List.map_eq_nil_iff.1 hnone
    rw [drain_eq] at hrest
    exact Script.nodes_of_drain hrest
  | cons raises others ih =>
    have hcases := r.next_cases (signals.raiseAll raises)
    rw [Run.pulls] at hpulls
    generalize r.next (signals.raiseAll raises) = found at hcases hpulls
    obtain ⟨answer, r₁, signals'⟩ := found
    cases hpulls
    rw [List.map_cons] at htaken
    rcases handedOut_eq_cons htaken with ⟨node, taken', rfl, rfl, hanswers⟩ |
      ⟨more, rfl, rfl, hanswers⟩
    · obtain ⟨hnodes, hfault⟩ := hcases
      obtain ⟨hnone, hlaterNodes⟩ := ih rfl hanswers
      exact ⟨hfault ▸ hnone, by rw [hnodes, hlaterNodes, List.cons_append]⟩
    · obtain ⟨hempty, hnodes, hfault⟩ := hcases
      obtain ⟨-, hlaterNodes⟩ := @ih r₁ signals' _ [] more rfl hanswers
      rw [hempty] at hlaterNodes
      exact ⟨hfault, hnodes.trans hlaterNodes⟩

end Run

namespace Expr

/-- The nodes that the evaluation of an expression returns.  Read on request, it is asked any number
of times, even after the end, while others raise signals before each request; whatever is left is
then read at once, in any state of the signals. -/
inductive Returns (live : Live) (signals : Signals) (signal : SignalId) (e : Expr)
    (nodes : List Node) : Prop where
  | atOnce (mode : Mode) :
      (e.evaluate live signals signal mode).result = .ok nodes → Returns live signals signal e nodes
  | onRequest {i i' : Iteration} {others : List (List SignalId)} {pulls : List Pulled}
      {taken rest : List Node} {ended : Nat} {signals₁ signals₂ after : Signals} :
      e.iterate live signals signal = .ok i →
      Settles (fun fuel => i.pulls fuel others signals) ((pulls, i'), signals₁) →
      pulls.map Prod.fst = handedOut taken ++ List.replicate ended (.ok none) →
      Settles (fun fuel => i'.drain fuel signals₂) (.ok rest, after) →
      nodes = taken ++ rest → Returns live signals signal e nodes

variable {live : Live} {signals : Signals} {signal : SignalId} {e : Expr}

/-- The script of an expression that was opened. -/
theorem exists_source_of_iterate {i : Iteration} (h : e.iterate live signals signal = .ok i) :
    ∃ src r, e.source live = .ok src ∧ r.script = src.script ∧ Iterates i r := by
  have hopened := e.opened_iterate live signals signal
  rw [h] at hopened
  generalize hbegin : e.begin live signals signal = x at hopened
  cases hopened with
  | @ok _ r hiterates =>
    obtain ⟨src, hsource, hscript⟩ := exists_source_of_begin hbegin
    exact ⟨src, r, hsource, hscript, hiterates⟩

/-- **An evaluation returns the nodes of its script**, which has no fault. -/
theorem Returns.exists_source {nodes : List Node} (h : e.Returns live signals signal nodes) :
    ∃ src, e.source live = .ok src ∧ src.script.fault = none ∧ src.script.nodes = nodes := by
  cases h with
  | atOnce mode hvalue =>
    rw [result_evaluate] at hvalue
    obtain ⟨_, src, hsource, hclean, hheard⟩ := value_eq_ok.1 hvalue
    exact ⟨src, hsource, hclean.fault, hclean.heard.symm.trans hheard⟩
  | onRequest hiterate hpulls htaken hrest hnodes =>
    obtain ⟨src, r, hsource, hscript, hiterates⟩ := exists_source_of_iterate hiterate
    obtain ⟨pulls', i'', r', signals', hi, hr, hlast⟩ := hiterates.pulls signals _
    cases hpulls.unique hi
    have hdrain := (hlast.drain _).unique hrest
    obtain ⟨hfault, hall⟩ := Run.nodes_of_pulls hr htaken hdrain
    rw [hscript] at hfault hall
    exact ⟨src, hsource, hfault, hall.trans hnodes.symm⟩

end Expr

end XmlStore
