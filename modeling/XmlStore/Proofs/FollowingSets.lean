import XmlStore.Proofs.Following

/-!
# Merges that follow scripts

* `HeadsAt` — the heads of a merge hold what the slots of a script hold, and are followed by them
  from there on.
* `HeadsAt.pullWhere`, `HeadAt.skip` — moving heads agrees with moving slots.
* `HeadsAt.turn` — one round of a merge of heads agrees with one of slots.
* `Follows.merging` — a merge of heads follows the script that is made of rounds over the slots.
-/

namespace XmlStore

variable {signal : SignalId}

open Script (Slot Stretch)

/-- A head of a merge and the slot that it is followed by. -/
structure HeadAt (signal : SignalId) (position : Nat) (h : Head Reader) (s : Slot) : Prop where
  front : h.front = s.front
  position : s.position = position
  /-- There is more to come while a node is at the front. -/
  follows : s.front.isSome = true → Follows signal h.source s.rest

/-- The heads of a merge and the slots that they are followed by, from a position on. -/
inductive HeadsAt (signal : SignalId) : Nat → List (Head Reader) → List Slot → Prop where
  | nil {position : Nat} : HeadsAt signal position [] []
  | cons {position : Nat} {h : Head Reader} {s : Slot} {heads : List (Head Reader)}
      {slots : List Slot} :
      HeadAt signal position h s → HeadsAt signal (position + 1) heads slots →
      HeadsAt signal position (h :: heads) (s :: slots)

theorem HeadsAt.fronts {position : Nat} {heads : List (Head Reader)} {slots : List Slot}
    (hs : HeadsAt signal position heads slots) : heads.map Head.front = slots.map Slot.front := by
  induction hs with
  | nil => rfl
  | cons hhead _ ih => rw [List.map_cons, List.map_cons, hhead.front, ih]

theorem HeadsAt.filterMap_front {position : Nat} {heads : List (Head Reader)} {slots : List Slot}
    (hs : HeadsAt signal position heads slots) :
    heads.filterMap Head.front = slots.filterMap Slot.front := by
  have hfronts := congrArg (List.filterMap id) hs.fronts
  rwa [List.filterMap_map, List.filterMap_map] at hfronts

theorem HeadsAt.all_front {position : Nat} {heads : List (Head Reader)} {slots : List Slot}
    (hs : HeadsAt signal position heads slots) (pick : Option Node → Bool) :
    (heads.all fun h => pick h.front) = slots.all fun s => pick s.front := by
  have hfronts := congrArg (List.all · pick) hs.fronts
  simp only [List.all_map] at hfronts
  exact hfronts

theorem HeadsAt.any_front {position : Nat} {heads : List (Head Reader)} {slots : List Slot}
    (hs : HeadsAt signal position heads slots) (pick : Option Node → Bool) :
    (heads.any fun h => pick h.front) = slots.any fun s => pick s.front := by
  have hfronts := congrArg (List.any · pick) hs.fronts
  simp only [List.any_map] at hfronts
  exact hfronts

theorem mapM_front_eq_fronts? {position : Nat} {heads : List (Head Reader)} {slots : List Slot}
    (hs : HeadsAt signal position heads slots) : heads.mapM Head.front = Script.fronts? slots := by
  induction hs with
  | nil => rfl
  | cons hhead _ ih => rw [List.mapM_cons, hhead.front, ih]; rfl

/-! ## Moving heads -/

/-- **A head moves on as its slot does.** -/
theorem pull_agrees (op : SetOp) {position : Nat} {h : Head Reader} {s : Slot}
    (hposition : s.position = position) (hfollows : Follows signal h.source s.rest)
    (signals : Signals) :
    Agrees (HeadAt signal position) (fun fuel => Reader.pull signal fuel op position h signals)
      ((s.advance op).exec signal signals) := by
  refine .succ ?_
  simp only [Reader.pull, Script.exec_advance]
  refine (hfollows.next signals).bind_outcome fun result signals' hx => ?_
  generalize s.rest.pull signal signals = pulled at hx
  cases hx with
  | failed => subst hposition; exact .failed
  | ok hsame =>
    cases hsame with
    | ended r => exact .ok ⟨rfl, hposition, fun hsome => by cases hsome⟩
    | node hrest => exact .ok ⟨rfl, hposition, fun _ => hrest⟩

theorem pullIf_agrees (op : SetOp) {which : Head Reader → Bool} {which' : Slot → Bool}
    {position : Nat} {h : Head Reader} {s : Slot} (hhead : HeadAt signal position h s)
    (hpick : which h = which' s) (hlive : which' s = true → s.front.isSome = true)
    (signals : Signals) :
    Agrees (HeadAt signal position)
      (fun fuel => Reader.pullIf signal fuel op which position h signals)
      ((Script.moveIf op which' s).exec signal signals) := by
  refine .succ ?_
  simp only [Reader.pullIf, Script.moveIf, hpick]
  split
  · rename_i hpicked
    exact pull_agrees op hhead.position (hhead.follows (hlive hpicked)) signals
  · exact .ok hhead

/-- **Heads that are picked move on as their slots do.**  A head is picked by its front only. -/
theorem HeadsAt.pullWhere (op : SetOp) (pick : Option Node → Bool) {position : Nat}
    {heads : List (Head Reader)} {slots : List Slot} (hs : HeadsAt signal position heads slots)
    (hlive : ∀ s ∈ slots, pick s.front = true → s.front.isSome = true) (signals : Signals) :
    Agrees (HeadsAt signal position)
      (fun fuel => Reader.pullWhere signal fuel op (fun h => pick h.front) position heads signals)
      ((Script.moveAll (Script.moveIf op fun s => pick s.front) slots).exec signal signals) := by
  induction hs generalizing signals with
  | nil =>
    refine .succ ?_
    simp only [Reader.pullWhere]
    exact .ok .nil
  | cons hhead _ ih =>
    obtain ⟨hfirst, hrest⟩ := List.forall_mem_cons.1 hlive
    refine .succ ?_
    simp only [Reader.pullWhere]
    rw [Script.moveAll, Script.exec_bind]
    refine (pullIf_agrees op hhead (by rw [hhead.front]) hfirst signals).bind (fun _ _ _ => rfl) ?_
    intro h t signals' ht
    rw [Script.exec_bind]
    refine (ih hrest signals').bind (fun _ _ _ => rfl) ?_
    intro hs ts signals'' hts
    exact .ok (.cons ht hts)

theorem Script.exec_eq_ok {α : Type} {st : Stretch α} {signals signals' : Signals} {a : α}
    (h : st.exec signal signals = (.ok a, signals')) : st.result = .ok a := by
  unfold Stretch.exec andThen at h
  split at h
  · cases h
  · exact (Prod.mk.inj h).1

/-- **A head passes over nodes as its slot does.**  The induction is on the nodes that the slot
still has. -/
theorem HeadAt.skip {node : Node} {position : Nat} {h : Head Reader} {s : Slot}
    (hhead : HeadAt signal position h s) (signals : Signals) :
    Agrees (HeadAt signal position) (fun fuel => Reader.skip signal fuel node position h signals)
      ((Script.skipBelow .except node s).exec signal signals) := by
  induction hwork : s.work using Nat.strongRecOn generalizing h s signals with
  | ind work ih =>
    subst hwork
    refine .succ ?_
    simp only [Reader.skip, hhead.front]
    cases hfront : s.front with
    | none =>
      rw [Script.skipBelow_of_not_lt _ fun front h => by rw [hfront] at h; cases h]
      exact .ok hhead
    | some front =>
      rw [Option.any_some]
      by_cases hlt : front < node
      · have hsome : s.front.isSome = true := by rw [hfront]; rfl
        have hpull := pull_agrees .except hhead.position (hhead.follows hsome) signals
        simp only [decide_eq_true hlt, if_true]
        rw [Script.skipBelow_of_lt _ hfront hlt, Script.exec_bind]
        refine hpull.known.bind (fun _ _ _ => rfl) ?_
        rintro h' t signals' ⟨ht, _, hexec⟩
        exact ih _ (Slot.work_advance_lt (Script.exec_eq_ok hexec) hsome) ht signals' rfl
      · simp only [decide_eq_false hlt, Bool.false_eq_true, if_false]
        rw [Script.skipBelow_of_not_lt]
        · exact .ok hhead
        · intro front' hfront'
          obtain rfl := Option.some.inj (hfront.symm.trans hfront')
          exact hlt

theorem HeadsAt.skipAll {node : Node} {position : Nat} {heads : List (Head Reader)}
    {slots : List Slot} (hs : HeadsAt signal position heads slots) (signals : Signals) :
    Agrees (HeadsAt signal position)
      (fun fuel => Reader.skipAll signal fuel node position heads signals)
      ((Script.moveAll (Script.skipBelow .except node) slots).exec signal signals) := by
  induction hs generalizing signals with
  | nil =>
    refine .succ ?_
    simp only [Reader.skipAll]
    exact .ok .nil
  | cons hhead _ ih =>
    refine .succ ?_
    simp only [Reader.skipAll]
    rw [Script.moveAll, Script.exec_bind]
    refine (hhead.skip signals).bind (fun _ _ _ => rfl) ?_
    intro h t signals' ht
    rw [Script.exec_bind]
    refine (ih signals').bind (fun _ _ _ => rfl) ?_
    intro hs ts signals'' hts
    exact .ok (.cons ht hts)

/-! ## Rounds -/

/-- What comes out of a round, and the heads after it. -/
abbrev LikeRound (signal : SignalId) (a : Option Node × List (Head Reader))
    (b : Option Node × List Slot) : Prop :=
  a.1 = b.1 ∧ HeadsAt signal 0 a.2 b.2

/-- A merge goes on after a round from which no node comes out. -/
def Reader.afterRound (signal : SignalId) (fuel : Nat) (op : SetOp) :
    Except Fault (Option Node × List (Head Reader)) →
      Reading (Except Fault (Option Node × List (Head Reader)))
  | .error fault => return .error fault
  | .ok (none, heads) => Reader.merging signal (fuel + 1) op heads
  | .ok (some node, heads) => return .ok (some node, heads)

/-- A round in which heads move and something comes out. -/
def Reader.moved (x : Reading (Except Fault (List (Head Reader)))) (out : Option Node) :
    Reading (Except Fault (Option Node × List (Head Reader))) := do
  return (← x).map (out, ·)

theorem moved_bind {x : Reading (Except Fault (List (Head Reader)))} {out : Option Node}
    {fuel : Nat} {op : SetOp} {k : Except Fault (List (Head Reader)) →
      Reading (Except Fault (Option Node × List (Head Reader)))}
    (hfailed : ∀ fault, k (.error fault) = pure (.error fault))
    (hok : ∀ heads, k (.ok heads) = Reader.afterRound signal fuel op (.ok (out, heads))) :
    x >>= k = Reader.moved x out >>= Reader.afterRound signal fuel op := by
  funext signals
  rw [Reading.bind_apply, Reading.bind_apply, Reader.moved, Reading.bind_apply]
  cases x signals with
  | none => rfl
  | some found =>
    obtain ⟨result, signals'⟩ := found
    cases result with
    | error fault => exact congrFun (hfailed fault) signals'
    | ok heads => exact congrFun (hok heads) signals'

theorem moved_agrees {x : Nat → Reading (Except Fault (List (Head Reader)))}
    {st : Stretch (List Slot)} {signals : Signals}
    (h : Agrees (HeadsAt signal 0) (fun fuel => x fuel signals) (st.exec signal signals))
    (out : Option Node) :
    Agrees (LikeRound signal) (fun fuel => Reader.moved (x fuel) out signals)
      ((st.bind fun next => .pure (out, next)).exec signal signals) := by
  rw [Script.exec_bind]
  exact h.bind (fun _ _ _ => rfl) fun _ _ _ hheads => .ok ⟨rfl, hheads⟩

/-- A round of a difference: the later heads pass over what is before `node`, the first one moves
on, and `node` comes out unless a later head holds it. -/
def Reader.exceptRound (signal : SignalId) (fuel : Nat) (node : Node) (first : Head Reader)
    (rest : List (Head Reader)) : Reading (Except Fault (Option Node × List (Head Reader))) := do
  match ← Reader.skipAll signal fuel node 1 rest with
  | .error fault => return .error fault
  | .ok others =>
    match ← Reader.pull signal fuel .except 0 first with
    | .error fault => return .error fault
    | .ok next =>
      return .ok (if others.any (·.front == some node) then none else some node, next :: others)

theorem except_eq {node : Node} {first : Head Reader} (hfront : first.front = some node)
    (rest : List (Head Reader)) (fuel : Nat) :
    Reader.merging signal (fuel + 2) .except (first :: rest) =
      Reader.exceptRound signal fuel node first rest >>= Reader.afterRound signal fuel .except := by
  -- a round without a node leads back to the same merge
  have hagain : ∀ heads, Reader.merging signal (fuel + 1) .except heads =
      Reader.except signal fuel heads := by
    intro heads
    rw [Reader.merging]
  rw [Reader.merging, Reader.except, hfront, Reader.exceptRound]
  funext signals
  simp only [Reading.bind_apply]
  cases Reader.skipAll signal fuel node 1 rest signals with
  | none => rfl
  | some found =>
    obtain ⟨result, signals'⟩ := found
    cases result with
    | error fault => rfl
    | ok others =>
      simp only [Option.bind_some, Reading.bind_apply]
      cases Reader.pull signal fuel .except 0 first signals' with
      | none => rfl
      | some found =>
        obtain ⟨result, signals''⟩ := found
        cases result with
        | error fault => rfl
        | ok next =>
          dsimp only [Option.bind_some]
          cases others.any (·.front == some node) with
          | true => exact congrFun (hagain _).symm signals''
          | false => rfl

/-- **One round of a merge of heads** agrees with that of a merge of slots. -/
theorem HeadsAt.turn {op : SetOp} {heads : List (Head Reader)} {slots : List Slot}
    (hs : HeadsAt signal 0 heads slots) {st : Stretch (Option Node × List Slot)}
    (hturn : Script.Turn op slots st) :
    ∃ m : Nat → Reading _,
      (∀ fuel, Reader.merging signal (fuel + 2) op heads =
        m fuel >>= Reader.afterRound signal fuel op) ∧
      ∀ signals, Agrees (LikeRound signal) (fun fuel => m fuel signals)
        (st.exec signal signals) := by
  cases hturn with
  | @earliest _ node hmin =>
    refine ⟨fun fuel => Reader.moved _ (some node), fun fuel => ?_, fun signals =>
      moved_agrees (hs.pullWhere .union (· == some node)
        (fun s _ hpicked => by rw [beq_iff_eq.1 hpicked]; rfl) signals) _⟩
    rw [Reader.merging, Reader.union, hs.filterMap_front, hmin]
    exact moved_bind (fun _ => rfl) fun _ => rfl
  | @common _ nodes node hfronts hmax hall =>
    have hlive : ∀ s ∈ slots, s.front.isSome = true := fun s => Script.front_of_mem_fronts? hfronts
    refine ⟨fun fuel => Reader.moved _ (some node), fun fuel => ?_, fun signals =>
      moved_agrees (hs.pullWhere .intersect (fun _ => true) (fun s hmem _ => hlive s hmem)
        signals) _⟩
    rw [Reader.merging, Reader.intersect, mapM_front_eq_fronts? hs, hfronts, Option.bind_some, hmax]
    have hall' : (heads.all fun h => h.front == some node) = true :=
      (hs.all_front (· == some node)).trans hall
    simp only [hall', if_true]
    exact moved_bind (fun _ => rfl) fun _ => rfl
  | @behind _ nodes node hfronts hmax hnot =>
    have hlive : ∀ s ∈ slots, s.front.isSome = true := fun s => Script.front_of_mem_fronts? hfronts
    refine ⟨fun fuel => Reader.moved _ none, fun fuel => ?_, fun signals =>
      moved_agrees (hs.pullWhere .intersect (· != some node) (fun s hmem _ => hlive s hmem)
        signals) _⟩
    have hnot' : (heads.all fun h => h.front == some node) = false :=
      (hs.all_front (· == some node)).trans hnot
    rw [Reader.merging, Reader.intersect, mapM_front_eq_fronts? hs, hfronts, Option.bind_some, hmax]
    simp only [hnot']
    refine moved_bind (fun _ => rfl) fun heads => ?_
    show _ = Reader.merging signal (fuel + 1) .intersect heads
    rw [Reader.merging]
  | @first first rest node hfront =>
    cases hs with
    | @cons _ h _ others _ hhead hothers =>
      refine ⟨_, except_eq (hhead.front.trans hfront) others, fun signals => ?_⟩
      have hsome : first.front.isSome = true := by rw [hfront]; rfl
      simp only [Reader.exceptRound]
      rw [Script.exec_bind]
      refine (hothers.skipAll signals).bind (fun _ _ _ => rfl) ?_
      intro hs ts signals' hts
      have hpull := pull_agrees .except hhead.position (hhead.follows hsome) signals'
      rw [Script.exec_bind]
      refine hpull.bind (fun _ _ _ => rfl) ?_
      intro h' t signals'' ht
      refine .ok ⟨?_, .cons ht hts⟩
      show (if _ then _ else _) = _
      rw [hts.any_front (· == some node)]

/-! ## Merges -/

/-- What a merge of heads has come to, as its reader hands it out. -/
def Reader.merged (signal : SignalId) (op : SetOp) :
    Except Fault (Option Node × List (Head Reader)) × Signals →
      Except Fault (Option Node × Reader) × Signals
  | (.error fault, signals) => (.error fault, signals)
  | (.ok (none, heads), signals) => (.ok (none, .merge op .exhausted heads), signals)
  | (.ok (some node, heads), signals) =>
    Reader.handOut signal node (.merge op .emitting heads) signals

theorem next_emitting (fuel : Nat) (op : SetOp) (heads : List (Head Reader)) (signals : Signals) :
    Reader.next signal (fuel + 2) (.merge op .emitting heads) signals =
      (Reader.merging signal fuel op heads signals).map (Reader.merged signal op) := by
  rw [Reader.next_eq, Reader.advance, Reading.bind_apply]
  cases Reader.merging signal fuel op heads signals with
  | none => rfl
  | some found =>
    obtain ⟨result, signals'⟩ := found
    cases result with
    | error fault => rfl
    | ok found =>
      obtain ⟨out, heads'⟩ := found
      cases out <;> rfl

/-- A merge of heads and the script that is made of rounds over their slots. -/
def Merging (signal : SignalId) (r : Reader) (s : Script) : Prop :=
  ∃ op heads slots, r = .merge op .emitting heads ∧ HeadsAt signal 0 heads slots ∧
    Script.Merges op slots s

/-- Nothing more comes from a merge that has no further round. -/
theorem HeadsAt.merging_of_finished {op : SetOp} {heads : List (Head Reader)} {slots : List Slot}
    (hs : HeadsAt signal 0 heads slots) (hround : Script.round op slots = none) (fuel : Nat) :
    Reader.merging signal (fuel + 2) op heads = pure (.ok (none, heads)) := by
  cases op with
  | union =>
    have hmin := Option.map_eq_none_iff.1 hround
    rw [← hs.filterMap_front] at hmin
    rw [Reader.merging, Reader.union, hmin]
  | intersect =>
    have hmax := Option.map_eq_none_iff.1 hround
    rw [← mapM_front_eq_fronts? hs] at hmax
    rw [Reader.merging, Reader.intersect, hmax]
  | except =>
    cases hs with
    | nil => rw [Reader.merging, Reader.except]
    | cons hhead hothers =>
      have hnone := Option.map_eq_none_iff.1 hround
      rw [← hhead.front] at hnone
      rw [Reader.merging, Reader.except, hnone]

/-- A merge of heads agrees with one round over the slots and what comes after it. -/
theorem HeadsAt.merging_bind {op : SetOp} {heads : List (Head Reader)} {slots : List Slot}
    (hs : HeadsAt signal 0 heads slots) {st : Stretch (Option Node × List Slot)}
    (hround : Script.round op slots = some st) (signals : Signals)
    {next : Option Node × List Slot → Signals →
      Except Fault (Option (Node × Script)) × Signals}
    (hnext : ∀ out heads slots signals, st.result = .ok (out, slots) →
      HeadsAt signal 0 heads slots →
      Agrees (Same (Merging signal))
        (fun fuel => (Reader.afterRound signal fuel op (.ok (out, heads)) signals).map
          (Reader.merged signal op)) (next (out, slots) signals)) :
    Agrees (Same (Merging signal))
      (fun fuel => (Reader.merging signal fuel op heads signals).map (Reader.merged signal op))
      (andThen (st.exec signal signals) next) := by
  obtain ⟨m, hmerging, hagrees⟩ := hs.turn (Script.turn_of_round hround)
  refine .succ (.succ ?_)
  simp only [hmerging, Reading.bind_apply, Option.map_bind]
  refine (hagrees signals).known.bind (m := m) (k := fun fuel result signals =>
    (Reader.afterRound signal fuel op result signals).map (Reader.merged signal op))
    (fun _ _ _ => rfl) ?_
  rintro ⟨out, heads'⟩ ⟨out', slots'⟩ signals' ⟨⟨hout, hheads⟩, _, hexec⟩
  obtain rfl : out = out' := hout
  exact hnext _ _ _ _ (Script.exec_eq_ok hexec) hheads

/-- **Up to its next node a merge of heads agrees with the script.**  The induction is on the
rounds. -/
theorem merging_agrees {op : SetOp} {slots : List Slot} {s : Script} (h : Script.Merges op slots s)
    {heads : List (Head Reader)} (hs : HeadsAt signal 0 heads slots) (signals : Signals) :
    Agrees (Same (Merging signal))
      (fun fuel => (Reader.merging signal fuel op heads signals).map (Reader.merged signal op))
      (s.pull signal signals) := by
  induction h generalizing heads signals with
  | finished hround =>
    refine .succ (.succ ?_)
    simp only [hs.merging_of_finished hround]
    exact .ok (.ended _)
  | @failed slots steps fault hround =>
    have hsilent : Step.allSilent steps = true := Script.silent_round hround
    rw [Script.pull_of_failed hsilent fault
      fun (_ : Option Node × List Slot) signals => (.error fault, signals)]
    exact hs.merging_bind hround signals fun _ _ _ _ h => by cases h
  | @next slots next steps out s hround hmerges ih =>
    have hsilent := Script.silent_round hround
    cases out with
    | none =>
      rw [Script.emit, List.append_nil, Script.pull_after_exec hsilent ((none : Option Node), next)]
      refine hs.merging_bind hround signals fun _ _ _ signals' h hheads => ?_
      obtain ⟨rfl, rfl⟩ := Prod.mk.inj (Except.ok.inj h)
      exact (ih hheads signals').more
    | some node =>
      have hsplit : s.after (steps ++ Script.emit (some node)) =
          (s.after [.poll, .yield node]).after steps := by
        simp [Script.after, Script.emit]
      rw [hsplit, Script.pull_after_exec hsilent (some node, next)]
      refine hs.merging_bind hround signals fun _ _ _ signals' h hheads => ?_
      obtain ⟨rfl, rfl⟩ := Prod.mk.inj (Except.ok.inj h)
      exact agrees_handOut ⟨op, _, _, rfl, hheads, hmerges⟩ node signals'

theorem Follows.merging {op : SetOp} {heads : List (Head Reader)} {slots : List Slot} {s : Script}
    (hs : HeadsAt signal 0 heads slots) (h : Script.Merges op slots s) :
    Follows signal (.merge op .emitting heads) s := by
  refine of_kept (Merging signal) ?_ ⟨op, heads, slots, rfl, hs, h⟩
  rintro _ _ ⟨op, heads, slots, rfl, hs, h⟩ signals
  refine .succ (.succ ?_)
  simp only [next_emitting]
  exact merging_agrees h hs signals

end XmlStore
