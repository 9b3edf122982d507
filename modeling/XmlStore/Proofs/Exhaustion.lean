import XmlStore.Proofs.OperandFaults
import XmlStore.Proofs.Supplies

/-!
# Merges that come to an end

However an operator is read, whatever its operands give and whoever raises signals meanwhile, every
request ends, no more nodes come than its operands supply, and nothing comes after the end.

* `Iteration.Hands` — the nodes that an iteration hands out on some requests.
* `Iterates.prefix_of_hands` — they begin the nodes of its script, by induction on the requests.
* `Reader.advance_merge` — a merge that has told its end is exhausted.
* `Ending` — all that is said of a reading at some point; `Expr.merge_ends` says it of every
  operator, nested to any depth.
-/

namespace XmlStore

/-- The node in an answer, if there is one. -/
def handed : Except Fault (Option Node) → List Node
  | .ok node => node.toList
  | .error _ => []

/-- The nodes that an iteration hands out on some requests, each in any state of the signals, and
what the iteration is then. -/
inductive Iteration.Hands (i : Iteration) : List Node → Iteration → Prop where
  | start : Hands i [] i
  | asked {nodes : List Node} {j k : Iteration} {answer : Except Fault (Option Node)}
      {signals after : Signals} : Hands i nodes j →
      Settles (fun fuel => j.next fuel signals) ((answer, k), after) →
      Hands i (nodes ++ handed answer) k

/-! ## Nodes -/

namespace Iterates

variable {i j : Iteration} {r : Run} {nodes : List Node}

/-- **What is handed out begins the nodes of the script**, and what is left of the script may
follow.  The induction is on the requests. -/
theorem prefix_of_hands (h : Iterates i r) (hhands : i.Hands nodes j) :
    ∃ r', Iterates j r' ∧ nodes ++ r'.script.nodes <+: r.script.nodes := by
  induction hhands with
  | start => exact ⟨r, h, List.prefix_rfl⟩
  | @asked nodes j k answer signals after _ hnext ih =>
    obtain ⟨r₁, hj, hprefix⟩ := ih
    obtain ⟨answer', k', r₂, after', hsettles, hr, hk⟩ := hj.next signals
    cases hnext.unique hsettles
    have hcases := r₁.next_cases signals
    rw [hr] at hcases
    have hended : r₂.script = .empty → nodes ++ r₂.script.nodes <+: r.script.nodes := by
      intro hempty
      have hnone : r₂.script.nodes = [] := by rw [hempty]; rfl
      rw [hnone, List.append_nil]
      exact (List.prefix_append nodes _).trans hprefix
    refine ⟨r₂, hk, ?_⟩
    cases answer with
    | error fault =>
      rw [handed, List.append_nil]
      exact hended hcases.1
    | ok found =>
      cases found with
      | none =>
        rw [handed, Option.toList_none, List.append_nil]
        exact hended hcases.1
      | some node =>
        have hnodes : r₁.script.nodes = [node] ++ r₂.script.nodes := hcases.1
        rw [handed, Option.toList_some, List.append_assoc, ← hnodes]
        exact hprefix

/-- What is left may be read at once. -/
theorem nodes_of_drain {signals after : Signals} {rest : List Node} (h : Iterates i r)
    (hdrain : Settles (fun fuel => i.drain fuel signals) (.ok rest, after)) :
    r.script.nodes = rest := by
  have hrun := (h.drain signals).unique hdrain
  rw [Run.drain_eq] at hrun
  exact (Script.nodes_of_drain hrun).2

end Iterates

/-! ## The end -/

namespace Reader

variable {signal : SignalId}

theorem advance_exhausted (fuel : Nat) (op : SetOp) (heads : List (Head Reader))
    (signals : Signals) :
    Reader.advance signal (fuel + 1) (.merge op .exhausted heads) signals =
      some (.ok (none, .merge op .exhausted heads), signals) := by
  rw [Reader.advance]
  rfl

/-- What a merge becomes that was asked for its next node. -/
def Told (op : SetOp) (found : Option Node) (r : Reader) : Prop :=
  ∃ heads, r = .merge op (if found.isSome then .emitting else .exhausted) heads

variable {fuel : Nat} {op : SetOp} {heads : List (Head Reader)} {signals after : Signals}
  {found : Option Node} {r : Reader}

theorem advance_emitting
    (h : Reader.advance signal fuel (.merge op .emitting heads) signals =
      some (.ok (found, r), after)) : Told op found r := by
  cases fuel with
  | zero => rw [Reader.advance] at h; cases h
  | succ fuel =>
    rw [Reader.advance, Reading.bind_apply] at h
    cases hmerging : Reader.merging signal fuel op heads signals with
    | none => rw [hmerging] at h; cases h
    | some result =>
      obtain ⟨fault | ⟨_ | node, next⟩, signals'⟩ := result
      · rw [hmerging] at h; cases h
      · rw [hmerging] at h; cases h; exact ⟨next, rfl⟩
      · rw [hmerging] at h; cases h; exact ⟨next, rfl⟩

/-- **A merge stays a merge, and is exhausted as soon as it tells its end.** -/
theorem advance_merge {stage : Stage}
    (h : Reader.advance signal fuel (.merge op stage heads) signals =
      some (.ok (found, r), after)) : Told op found r := by
  cases stage with
  | emitting => exact advance_emitting h
  | filling =>
    cases fuel with
    | zero => rw [Reader.advance] at h; cases h
    | succ fuel =>
      rw [Reader.advance, Reading.bind_apply] at h
      cases hstart : Reader.start signal fuel op 0 heads signals with
      | none => rw [hstart] at h; cases h
      | some result =>
        rw [hstart] at h
        obtain ⟨fault | next, signals'⟩ := result
        · cases h
        · exact advance_emitting h
  | exhausted =>
    cases fuel with
    | zero => rw [Reader.advance] at h; cases h
    | succ fuel =>
      rw [advance_exhausted] at h
      cases h
      exact ⟨heads, rfl⟩

/-- What is handed out was looked for. -/
theorem advance_of_next {r r' : Reader}
    (h : r.next signal fuel signals = some (.ok (found, r'), after)) :
    ∃ fuel', r.advance signal fuel' signals = some (.ok (found, r'), after) := by
  cases fuel with
  | zero => rw [Reader.next] at h; cases h
  | succ fuel =>
    refine ⟨fuel, ?_⟩
    rw [next_eq] at h
    cases hadvance : r.advance signal fuel signals with
    | none => rw [hadvance] at h; cases h
    | some result =>
      rw [hadvance, Option.map_some] at h
      obtain ⟨fault | ⟨_ | node, next⟩, signals'⟩ := result
      · cases h
      · exact h
      · -- the poll before the node is handed out
        simp only [handOut] at h
        split at h
        · cases h
        · exact h

/-- A request that ends has looked for its node to the end. -/
theorem advance_ends {r : Reader} {outcome : Except Fault (Option Node × Reader) × Signals}
    (h : Settles (fun fuel => r.next signal fuel signals) outcome) :
    ∃ least, ∀ fuel, least ≤ fuel → (r.advance signal fuel signals).isSome = true := by
  obtain ⟨least, hleast⟩ := h
  refine ⟨least, fun fuel hfuel => ?_⟩
  have hnext : r.next signal (fuel + 1) signals = some outcome :=
    hleast (fuel + 1) (Nat.le_succ_of_le hfuel)
  rw [next_eq] at hnext
  cases hadvance : r.advance signal fuel signals with
  | none => rw [hadvance] at hnext; cases hnext
  | some result => rfl

end Reader

namespace Iteration

/-- What a request makes of an iteration. -/
inductive Asked (i : Iteration) (signals after : Signals) :
    Except Fault (Option Node) → Iteration → Prop where
  /-- Nothing more comes. -/
  | ended : i.done = true → Asked i signals after (.ok none) i
  | failed {fault : Fault} : i.done = false →
      Asked i signals after (.error fault) { i with done := true }
  | found {fuel : Nat} {found : Option Node} {r : Reader} : i.done = false →
      i.reader.next i.signal fuel signals = some (.ok (found, r), after) →
      Asked i signals after (.ok found) { i with reader := r, done := found.isNone }

variable {i j k : Iteration} {nodes : List Node} {signals after : Signals} {op : SetOp}
  {answer : Except Fault (Option Node)}

theorem asked_of_next (h : Settles (fun fuel => i.next fuel signals) ((answer, j), after)) :
    i.Asked signals after answer j := by
  obtain ⟨fuel, hfuel⟩ := h.exists_fuel
  cases hdone : i.done with
  | true =>
    rw [next_done hdone] at hfuel
    cases hfuel
    exact .ended hdone
  | false =>
    rw [next_eq hdone] at hfuel
    cases hnext : i.reader.next i.signal fuel signals with
    | none => rw [hnext] at hfuel; cases hfuel
    | some result =>
      rw [hnext, Option.map_some] at hfuel
      obtain ⟨fault | ⟨_ | node, r⟩, signals'⟩ := result
      · cases hfuel
        exact .failed hdone
      · cases hfuel
        exact .found hdone hnext
      · cases hfuel
        have hfound := Asked.found hdone hnext
        rwa [Option.isNone_some, ← hdone] at hfound

/-- An iteration that reads a merge. -/
def Merging (op : SetOp) (i : Iteration) : Prop := ∃ stage heads, i.reader = .merge op stage heads

/-- **A request makes of a merge what it tells**, and nothing comes after the end. -/
theorem Asked.merging (h : i.Asked signals after answer j) (hmerging : i.Merging op) :
    j.Merging op ∧ (answer = .ok none → j.done = true) ∧
      (answer = .ok none → i.done = false → ∃ heads, j.reader = .merge op .exhausted heads) := by
  cases h with
  | ended hdone =>
    refine ⟨hmerging, fun _ => hdone, fun _ hnot => ?_⟩
    rw [hdone] at hnot
    cases hnot
  | failed hdone => exact ⟨hmerging, nofun, nofun⟩
  | @found fuel found r hdone hnext =>
    obtain ⟨stage, heads, hreader⟩ := hmerging
    rw [hreader] at hnext
    obtain ⟨fuel', hadvance⟩ := Reader.advance_of_next hnext
    obtain ⟨next, rfl⟩ := Reader.advance_merge hadvance
    refine ⟨⟨_, next, rfl⟩, fun hend => ?_, fun hend _ => ?_⟩
    all_goals obtain rfl := Except.ok.inj hend
    · rfl
    · exact ⟨next, rfl⟩

/-- A merge stays a merge.  The induction is on the requests. -/
theorem Hands.merging (h : i.Hands nodes j) (hmerging : i.Merging op) : j.Merging op := by
  induction h with
  | start => exact hmerging
  | asked _ hnext ih => exact ((asked_of_next hnext).merging ih).1

/-- Nothing is handed out after the end.  The induction is on the requests. -/
theorem Hands.of_done (h : i.Hands nodes j) (hdone : i.done = true) : nodes = [] ∧ j = i := by
  induction h with
  | start => exact ⟨rfl, rfl⟩
  | asked _ hnext ih =>
    obtain ⟨rfl, rfl⟩ := ih
    cases asked_of_next hnext with
    | ended => exact ⟨rfl, rfl⟩
    | failed hnot => rw [hdone] at hnot; cases hnot
    | found hnot => rw [hdone] at hnot; cases hnot

end Iteration

/-! ## Operators -/

/-- What is true of an operator that is read, at the point where it has handed out some nodes. -/
structure Ending (bound : Nat → Prop) (nodes : List Node) (j : Iteration) : Prop where
  /-- Every request ends. -/
  next : ∀ signals, ∃ answer k after,
    Settles (fun fuel => j.next fuel signals) ((answer, k), after)
  /-- Every advance of the merge ends, too, as long as it is asked. -/
  advance : j.done = false → ∀ signals, ∃ least, ∀ fuel, least ≤ fuel →
    (j.reader.advance j.signal fuel signals).isSome = true
  /-- Reading all that is left ends. -/
  drain : ∀ signals, ∃ result after, Settles (fun fuel => j.drain fuel signals) (result, after)
  /-- No more nodes have come than the bound allows. -/
  handed : bound nodes.length
  /-- No more nodes will have come if all that is left is read. -/
  drained : ∀ {signals after : Signals} {rest : List Node},
    Settles (fun fuel => j.drain fuel signals) (.ok rest, after) →
    bound (nodes.length + rest.length)
  /-- Once the end is told, the merge stays at its end, and nothing more is handed out. -/
  ended : ∀ {signals after : Signals} {k : Iteration},
    Settles (fun fuel => j.next fuel signals) ((.ok none, k), after) →
    (j.done = false → ∀ fuel signals, k.reader.advance k.signal (fuel + 1) signals =
      some (.ok (none, k.reader), signals)) ∧
    ∀ {more : List Node} {l : Iteration}, k.Hands more l → more = [] ∧
      ∀ signals, Settles (fun fuel => l.next fuel signals) ((.ok none, l), signals)

/-- **Whatever follows a script ends as the script does.** -/
theorem Iterates.ending {i j : Iteration} {r : Run} {op : SetOp} {bound : Nat → Prop}
    {nodes : List Node} (h : Iterates i r) (hmerging : i.Merging op)
    (hbound : ∀ n, n ≤ r.script.nodes.length → bound n) (hhands : i.Hands nodes j) :
    Ending bound nodes j := by
  obtain ⟨r', hj, hprefix⟩ := h.prefix_of_hands hhands
  have hlength := hprefix.length_le
  rw [List.length_append] at hlength
  constructor
  case next =>
    intro signals
    obtain ⟨answer, k, _, after, hsettles, _⟩ := hj.next signals
    exact ⟨answer, k, after, hsettles⟩
  case advance =>
    intro hdone signals
    cases hj with
    | ended hnot => rw [hdone] at hnot; cases hnot
    | going _ hsignal hfollows =>
      obtain ⟨outcome, hsettles, _⟩ := hfollows.next signals
      exact Reader.advance_ends (hsignal ▸ hsettles)
  case drain => exact fun signals => ⟨_, _, hj.drain signals⟩
  case handed => exact hbound _ (Nat.le_of_add_right_le hlength)
  case drained =>
    intro signals after rest hdrain
    exact hbound _ (hj.nodes_of_drain hdrain ▸ hlength)
  case ended =>
    intro signals after k hend
    obtain ⟨_, hdone, hexhausted⟩ :=
      (Iteration.asked_of_next hend).merging (hhands.merging hmerging)
    refine ⟨fun hgoing fuel signals => ?_, fun hmore => ?_⟩
    · obtain ⟨heads, hreader⟩ := hexhausted rfl hgoing
      rw [hreader, Reader.advance_exhausted]
    · obtain ⟨hnone, rfl⟩ := hmore.of_done (hdone rfl)
      refine ⟨hnone, fun signals => ?_⟩
      simp only [Iteration.next_done (hdone rfl)]
      exact .const _

namespace Expr

variable {live : Live} {signals : Signals} {signal : SignalId}

theorem merging_of_iterate {op : SetOp} {es : List Expr} {iterable : Bool} {i : Iteration}
    (h : (set op es iterable).iterate live signals signal = .ok i) : i.Merging op := by
  rw [iterate, reader] at h
  split at h
  · cases h
  · cases hheads : heads live signals signal op 0 es with
    | error fault =>
      rw [hheads] at h
      cases h
    | ok heads =>
      rw [hheads] at h
      cases h
      exact ⟨.filling, heads, rfl⟩

/-- **Every merge ends**, nested to any depth, whatever its indexes answer, in whatever order, and
wherever they go wrong, and whoever raises signals meanwhile.  Each of its advances ends, and so
does reading it.  It hands out no more nodes than its operands supply and than they have entries; an
intersection hands out no more than any operand, and a difference no more than the first one.  Once
it has told its end, it stays there. -/
theorem merge_ends {op : SetOp} {es : List Expr} {iterable : Bool} {i j : Iteration}
    {nodes : List Node} (h : (set op es iterable).iterate live signals signal = .ok i)
    (hhands : i.Hands nodes j) :
    Ending (fun n => op.Within (es.map (supply live)) n ∧ op.Within (es.map (entries live)) n)
      nodes j := by
  obtain ⟨src, r, hsource, hscript, hiterates⟩ := exists_source_of_iterate h
  refine hiterates.ending (merging_of_iterate h) (fun n hn => ?_) hhands
  have hsupply : n ≤ op.most (es.map (supply live)) :=
    (hscript ▸ hn).trans (length_nodes_set hsource)
  have hentries : op.most (es.map (supply live)) ≤ op.most (es.map (entries live)) := by
    refine op.most_mono ?_
    rw [List.forall₂_map_left_iff, List.forall₂_map_right_iff, List.forall₂_same]
    exact fun e _ => e.supply_le_entries
  exact ⟨SetOp.within_of_le_most hsupply, SetOp.within_of_le_most (hsupply.trans hentries)⟩

/-- An index that is said to be in order but repeats itself, and goes wrong in the end. -/
theorem merge_ends_unsorted :
    let row : Row := ⟨.text, 1, 1, 0, 0, [0x61]⟩
    let index : ValueIndex :=
      { enabled := fun _ => true, maxLength := 8
        exact := fun _ _ => [⟨2, []⟩, ⟨0, []⟩, ⟨2, []⟩, ⟨9, []⟩]
        range := fun _ => [], orderedRanges := true }
    let s : Snapshot := ⟨0, "db", { rows := #[row, row, row] }, index⟩
    let lookup : Lookup := .exact .text [0x61]
    let es : List Expr :=
      [set .intersect [access s.binding lookup true, access s.binding lookup true] true,
        nodes s.binding [1, 2]]
    let e : Expr := set .union es true
    es.map (entries ⟨[s]⟩) = [4, 2] ∧ es.map (supply ⟨[s]⟩) = [2, 2] ∧
      (e.value ⟨[s]⟩ .empty 0).result = .error (.operand .union 0
        (.operand .intersect 0 (.indexInconsistent lookup 9 .outside))) ∧
      ∃ i j answer, e.iterate ⟨[s]⟩ .empty 0 = .ok i ∧ i.Hands (handed answer) j ∧
        Ending (fun n => SetOp.Within .union (es.map (supply ⟨[s]⟩)) n ∧
          SetOp.Within .union (es.map (entries ⟨[s]⟩)) n) (handed answer) j := by
  intro row index s lookup es e
  refine ⟨rfl, by cbv, by cbv, ?_⟩
  obtain ⟨i, hiterate⟩ : ∃ i, e.iterate ⟨[s]⟩ .empty 0 = .ok i := ⟨_, rfl⟩
  obtain ⟨answer, j, _, hnext⟩ := (merge_ends hiterate .start).next .empty
  have hhands : i.Hands (handed answer) j := .asked .start hnext
  exact ⟨i, j, answer, hiterate, hhands, merge_ends hiterate hhands⟩

end Expr

end XmlStore
