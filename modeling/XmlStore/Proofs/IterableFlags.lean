import XmlStore.Proofs.AnswerOrder

/-!
# What the iterable flag promises

An operator does not sort an operand that is said to be iterable, so a wrong flag anywhere in an
expression would cost it nodes.  Flags are set when an expression is compiled, and they stay where
it is used as an operand later, of expressions that are compiled again.

* `Snapshot.Trusted` — a snapshot whose index keeps its promises of order.
* `Iterates.prefix_of_answers` — what is handed out on request begins the nodes of the script.
* `Expr.Built.inOrder_part` — every part of an expression that is said to ascend does so.
-/

namespace XmlStore

/-- A snapshot whose index was built for its table, or keeps its promises of order by itself. -/
def Snapshot.Trusted (s : Snapshot) : Prop :=
  (∃ number name t options, s = ofTable number name t options) ∨ s.index.KeepsOrder

theorem Snapshot.Trusted.keepsOrder {s : Snapshot} (h : s.Trusted) : s.index.KeepsOrder := by
  rcases h with ⟨number, name, t, options, rfl⟩ | h
  · exact keepsOrder_ofTable
  · exact h

/-- Whatever others raise meanwhile, the first nodes of a script are handed out. -/
theorem Iterates.prefix_of_answers {i : Iteration} {r : Run} (h : Iterates i r) {signals : Signals}
    {others : List (List SignalId)} {pulls : List Pulled}
    (hanswers : i.Answers signals others pulls) : yielded pulls <+: r.script.nodes := by
  obtain ⟨pulls', i', r', signals', hpulls, hrun, _⟩ := h.pulls signals others
  have htruncates := h.truncates signals others
  rw [hrun] at htruncates
  obtain rfl := hanswers.unique (hpulls.map fun found => found.1.1)
  exact htruncates.nodes

namespace Expr

/-- **The iterable flag is sound.**  However an expression came about while the snapshots of the
history came and went, every part of it that is said to ascend returns its nodes in document order,
read at once or on request.  The nodes that it hands out before it fails or is interrupted are in
document order, too. -/
theorem Built.inOrder_part {live history : Live} (hlive : live.Within history)
    (hindexes : ∀ s ∈ live.snapshots, s.Trusted) {e part : Expr} (he : e.Built history)
    (hpart : part.PartOf e) (hiterable : part.iterable = true) (signals : Signals)
    (signal : SignalId) :
    (∀ found, part.Returns live signals signal found → Node.InOrder found) ∧
      ∀ i others pulls, part.iterate live signals signal = .ok i →
        i.Answers signals others pulls → Node.InOrder (yielded pulls) := by
  have hscript : ∀ {src}, part.source live = .ok src → Node.InOrder src.script.nodes :=
    inOrder_script (fun s hs => (hindexes s hs).keepsOrder)
      ((he.part hpart).promised.within hlive) hiterable
  constructor
  · intro found hreturns
    obtain ⟨src, hsource, _, rfl⟩ := hreturns.exists_source
    exact hscript hsource
  · intro i others pulls hiterate hanswers
    obtain ⟨src, r, hsource, hrun, hiterates⟩ := exists_source_of_iterate hiterate
    have hprefix := hiterates.prefix_of_answers hanswers
    rw [hrun] at hprefix
    exact (hscript hsource).sublist hprefix.sublist

/-- An interval that the index answers is compiled in a union, which becomes an operand later. -/
theorem Built.inOrder_part_union :
    let t : Table :=
      { rows := #[⟨.document, 0, 4, 0, 0, [97]⟩, ⟨.element, 1, 3, 2, 1, []⟩,
          ⟨.attribute, 1, 1, 0, 2, [98]⟩, ⟨.attribute, 2, 1, 0, 3, [97]⟩]
        names := ⟨#[[114], [120], [121]]⟩ }
    let live : Live := ⟨[.ofTable 7 "books" t {}]⟩
    let interval : Expr := .access ⟨"books", 7⟩ (.range ⟨.attribute, none, true, none, true⟩) false
    let part : Expr := (compile live (.set .union [interval] false)).1
    let e : Expr := .set .intersect [part, .nodes ⟨"books", 7⟩ [3, 2]] false
    let found : List Node := [⟨7, 2⟩, ⟨7, 3⟩]
    e.Built live ∧ part.PartOf e ∧ part.iterable = true ∧ part.Returns live .empty 0 found ∧
      Node.InOrder found := by
  intro t live interval part e found
  have hbuilt : e.Built live := by
    refine .set .intersect fun e' he' => ?_
    simp only [List.mem_cons, List.not_mem_nil, or_false] at he'
    rcases he' with rfl | rfl
    · refine .compiled (fun _ _ h => h) (.set .union fun e' he' => ?_)
      obtain rfl := List.mem_singleton.1 he'
      exact .lookup _ _
    · exact .nodes _ _
  have hpart : part.PartOf e := .operand List.mem_cons_self (.self part)
  have hiterable : part.iterable = true := by cbv
  have hreturns : part.Returns live .empty 0 found := .atOnce .lazy (by cbv)
  have hindexes : ∀ s ∈ live.snapshots, s.Trusted :=
    fun s hs => Or.inl ⟨7, "books", t, {}, List.mem_singleton.1 hs⟩
  have hinOrder := hbuilt.inOrder_part (fun _ _ h => h) hindexes hpart hiterable .empty 0
  exact ⟨hbuilt, hpart, hiterable, hreturns, hinOrder.1 found hreturns⟩

end Expr

end XmlStore
