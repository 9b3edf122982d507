import XmlStore.Proofs.Opening
import XmlStore.Proofs.Rounds

/-!
# Indexes that spare a signal

An evaluation that is not cancelled is one over the same snapshots with indexes that spare the
signal of the query: they raise all signals that they would raise, except that one.

* `Live.sparing` — the snapshots with indexes that spare a signal.
* `Script.sparing` — a script whose visits do not raise it.
* `Script.round_sparing`, `Script.merge_sparing` — a round over such scripts, and hence a whole
  merge, takes the same steps.
* `Expr.source_sparing` — the source of every expression over such snapshots is its source with the
  signal spared.
-/

namespace XmlStore

variable (signal : SignalId)

/-- An entry that does not raise a signal. -/
def Entry.sparing (entry : Entry) : Entry :=
  { entry with raises := entry.raises.filter (· != signal) }

/-- An index that never raises a signal. -/
def ValueIndex.sparing (index : ValueIndex) : ValueIndex where
  enabled := index.enabled
  maxLength := index.maxLength
  exact kind value := (index.exact kind value).map (Entry.sparing signal)
  range interval := (index.range interval).map (Entry.sparing signal)
  orderedRanges := index.orderedRanges

/-- A snapshot with an index that never raises a signal. -/
def Snapshot.sparing (s : Snapshot) : Snapshot := { s with index := s.index.sparing signal }

/-- Snapshots with indexes that never raise a signal. -/
def Live.sparing (live : Live) : Live := ⟨live.snapshots.map (Snapshot.sparing signal)⟩

/-- A step that does not raise a signal. -/
def Step.sparing {α : Type} : Step α → Step α
  | visit raises => visit (raises.filter (· != signal))
  | step => step

namespace Step

variable {α : Type}

theorem isYield_sparing (step : Step α) : (step.sparing signal).isYield = step.isYield := by
  cases step <;> rfl

theorem result?_sparing (step : Step α) : (step.sparing signal).result? = step.result? := by
  cases step <;> rfl

theorem filter_silent_sparing (steps : List (Step α)) :
    (steps.map (sparing signal)).filter (!·.isYield) =
      (steps.filter (!·.isYield)).map (sparing signal) := by
  rw [List.filter_map]
  congr 2
  funext step
  exact congrArg (! ·) (isYield_sparing signal step)

end Step

namespace Script

/-- A script that does not raise a signal. -/
def sparing (s : Script) : Script := { s with steps := s.steps.map (Step.sparing signal) }

theorem nodes_sparing (s : Script) : (s.sparing signal).nodes = s.nodes := by
  rw [nodes, sparing, List.filterMap_map]
  exact congrArg (List.filterMap · s.steps) (funext (Step.result?_sparing signal))

theorem sparing_after (s : Script) (steps : List (Step Node)) :
    (s.after steps).sparing signal =
      (s.sparing signal).after (steps.map (Step.sparing signal)) := by
  simp only [after, sparing, List.map_append]

theorem sparing_ofNodes (nodes : List Node) : (ofNodes nodes).sparing signal = ofNodes nodes := by
  simp only [sparing, ofNodes, List.map_flatMap]
  rfl

theorem sparing_ofSteps (snapshot : Nat) (fault? : Nat → Option Fault) (steps : List (Step Nat)) :
    (ofSteps snapshot fault? steps).sparing signal =
      ofSteps snapshot fault? (steps.map (Step.sparing signal)) := by
  induction steps with
  | nil => rfl
  | cons step rest ih =>
    cases step with
    | visit raises => exact (sparing_after ..).trans (congrArg (after · _) ih)
    | poll => exact (sparing_after ..).trans (congrArg (after · _) ih)
    | release ids => exact (sparing_after ..).trans (congrArg (after · _) ih)
    | yield pre =>
      show (ofSteps snapshot fault? (.yield pre :: rest)).sparing signal =
        ofSteps snapshot fault? (.yield pre :: rest.map (Step.sparing signal))
      rw [ofSteps, ofSteps]
      cases fault? pre with
      | some fault => rfl
      | none => exact (sparing_after ..).trans (congrArg (after · _) ih)

/-! ## Stretches -/

namespace Stretch

variable {α β γ δ : Type}

/-- A stretch that does not raise a signal, and leads to what `f` makes of its result. -/
def sparing (f : α → β) (st : Stretch α) : Stretch β :=
  ⟨st.steps.map (Step.sparing signal), st.result.map f⟩

theorem sparing_bind (f : α → β) (g : γ → δ) (st : Stretch α) {next : α → Stretch γ}
    {next' : β → Stretch δ} (h : ∀ a, (next a).sparing signal g = next' (f a)) :
    (st.bind next).sparing signal g = (st.sparing signal f).bind next' := by
  obtain ⟨steps, result⟩ := st
  cases result with
  | error fault => rfl
  | ok a =>
    show Stretch.mk ((steps ++ (next a).steps).map _) _ =
      Stretch.mk (_ ++ (next' (f a)).steps) (next' (f a)).result
    rw [← h a, List.map_append]
    rfl

end Stretch

/-! ## Slots -/

/-- A slot that does not raise a signal. -/
def Slot.sparing (s : Slot) : Slot := { s with rest := s.rest.sparing signal }

/-- A way of moving that does not depend on the signals that are raised. -/
def Spares (move : Slot → Stretch Slot) : Prop :=
  ∀ s, move (s.sparing signal) = (move s).sparing signal (Slot.sparing signal)

theorem spares_advance (op : SetOp) : Spares signal (Slot.advance op) := by
  intro s
  have hpick : (fun step : Step Node => !step.isYield) ∘ Step.sparing signal =
      fun step => !step.isYield :=
    funext fun step => congrArg (! ·) (Step.isYield_sparing signal step)
  unfold Slot.advance Stretch.sparing
  simp only [Slot.sparing, Script.sparing, List.takeWhile_map, List.dropWhile_map, hpick]
  cases s.rest.steps.dropWhile (!·.isYield) with
  | nil => cases s.rest.fault <;> rfl
  | cons step rest =>
    cases step with
    | yield node => rfl
    | visit => cases s.rest.fault <;> rfl
    | poll => cases s.rest.fault <;> rfl
    | release => cases s.rest.fault <;> rfl

theorem spares_moveIf (op : SetOp) (pick : Option Node → Bool) :
    Spares signal (moveIf op fun s => pick s.front) := by
  intro s
  show (if pick s.front then _ else _) = _
  unfold moveIf
  split
  · exact spares_advance signal op s
  · rfl

theorem spares_skipBelow (op : SetOp) (node : Node) : Spares signal (skipBelow op node) := by
  intro s
  induction hwork : s.work using Nat.strongRecOn generalizing s with
  | ind work ih =>
    subst hwork
    cases hfront : s.front with
    | none =>
      have hnot : ∀ t : Slot, t.front = none → skipBelow op node t = .pure t := fun t ht =>
        skipBelow_of_not_lt op fun front h => by rw [ht] at h; cases h
      rw [hnot s hfront, hnot (s.sparing signal) hfront]
      rfl
    | some front =>
      by_cases hlt : front < node
      · rw [skipBelow_of_lt op hfront hlt, skipBelow_of_lt op (s := s.sparing signal) hfront hlt,
          spares_advance]
        cases hadvance : s.advance op with
        | mk steps result =>
          cases result with
          | error fault => rfl
          | ok t =>
            have ht : t.work < s.work :=
              Slot.work_advance_lt (by rw [hadvance]) (by rw [hfront]; rfl)
            show Stretch.mk (_ ++ (skipBelow op node (t.sparing signal)).steps)
              (skipBelow op node (t.sparing signal)).result = _
            rw [ih _ ht t rfl]
            exact congrArg (Stretch.mk · _) (List.map_append ..).symm
      · have hnot : ∀ t : Slot, t.front = some front → skipBelow op node t = .pure t := by
          intro t ht
          refine skipBelow_of_not_lt op fun front' h => ?_
          obtain rfl := Option.some.inj (ht.symm.trans h)
          exact hlt
        rw [hnot s hfront, hnot (s.sparing signal) hfront]
        rfl

theorem Spares.all {move : Slot → Stretch Slot} (h : Spares signal move) (slots : List Slot) :
    moveAll move (slots.map (Slot.sparing signal)) =
      (moveAll move slots).sparing signal (List.map (Slot.sparing signal)) := by
  induction slots with
  | nil => rfl
  | cons s rest ih =>
    rw [List.map_cons, moveAll, moveAll, h, ih]
    refine (Stretch.sparing_bind signal _ _ _ fun t => ?_).symm
    exact Stretch.sparing_bind signal _ _ _ fun ts => rfl

/-! ## Rounds and merges -/

theorem filterMap_front_sparing (slots : List Slot) :
    (slots.map (Slot.sparing signal)).filterMap Slot.front = slots.filterMap Slot.front := by
  rw [List.filterMap_map]
  rfl

theorem fronts?_sparing (slots : List Slot) :
    fronts? (slots.map (Slot.sparing signal)) = fronts? slots := by
  induction slots with
  | nil => rfl
  | cons s rest ih =>
    rw [List.map_cons, fronts?, fronts?, ih]
    rfl

theorem all_front_sparing (slots : List Slot) (pick : Option Node → Bool) :
    ((slots.map (Slot.sparing signal)).all fun s => pick s.front) =
      slots.all fun s => pick s.front := by
  rw [List.all_map]
  rfl

theorem any_front_sparing (slots : List Slot) (pick : Option Node → Bool) :
    ((slots.map (Slot.sparing signal)).any fun s => pick s.front) =
      slots.any fun s => pick s.front := by
  rw [List.any_map]
  rfl

/-- What a round leads to, with the signal spared. -/
abbrev spareRound (a : Option Node × List Slot) : Option Node × List Slot :=
  (a.1, a.2.map (Slot.sparing signal))

/-- **A round takes the same steps whatever signals are spared.** -/
theorem round_sparing {op : SetOp} {slots : List Slot} {st : Stretch (Option Node × List Slot)}
    (h : round op slots = some st) :
    round op (slots.map (Slot.sparing signal)) =
      some (st.sparing signal (spareRound signal)) := by
  have hmoves : ∀ (op : SetOp) (pick : Option Node → Bool) (out : Option Node),
      ((moveAll (moveIf op fun s => pick s.front) slots).bind fun next =>
        .pure (out, next)).sparing signal (spareRound signal) =
      (moveAll (moveIf op fun s => pick s.front) (slots.map (Slot.sparing signal))).bind fun next =>
        .pure (out, next) := by
    intro op pick out
    rw [(spares_moveIf signal op pick).all]
    exact Stretch.sparing_bind signal _ _ _ fun next => rfl
  cases turn_of_round h with
  | @earliest _ node hmin =>
    rw [hmoves .union (· == some node)]
    exact round_union ((filterMap_front_sparing signal slots).symm ▸ hmin)
  | @common _ nodes node hfronts hmax hall =>
    rw [hmoves .intersect fun _ => true,
      round_intersect ((fronts?_sparing signal slots).trans hfronts) hmax,
      all_front_sparing signal slots (· == some node), hall, if_pos rfl]
  | @behind _ nodes node hfronts hmax hnot =>
    rw [hmoves .intersect (· != some node),
      round_intersect ((fronts?_sparing signal slots).trans hfronts) hmax,
      all_front_sparing signal slots (· == some node), hnot, if_neg (by simp)]
  | @first first rest node hfront =>
    rw [List.map_cons, round_except (show (first.sparing signal).front = some node from hfront),
      (spares_skipBelow signal .except node).all]
    refine congrArg some (Stretch.sparing_bind signal _ _ _ fun others => ?_).symm
    rw [spares_advance]
    refine Stretch.sparing_bind signal _ _ _ fun next => ?_
    rw [any_front_sparing signal others (· == some node)]
    rfl

theorem round_sparing_none {op : SetOp} {slots : List Slot} (h : round op slots = none) :
    round op (slots.map (Slot.sparing signal)) = none := by
  cases op with
  | union =>
    have hmin := Option.map_eq_none_iff.1 h
    rw [round, filterMap_front_sparing, hmin, Option.map_none]
  | intersect =>
    have hmax := Option.map_eq_none_iff.1 h
    rw [round, fronts?_sparing, hmax, Option.map_none]
  | except =>
    cases slots with
    | nil => rfl
    | cons first rest => exact Option.map_eq_none_iff.2 (Option.map_eq_none_iff.1 h)

theorem Merges.sparing {op : SetOp} {slots : List Slot} {s : Script} (h : Merges op slots s) :
    Merges op (slots.map (Slot.sparing signal)) (s.sparing signal) := by
  induction h with
  | finished hround => exact .finished (round_sparing_none signal hround)
  | failed hround => exact .failed (round_sparing signal hround)
  | @next slots next steps out s hround _ ih =>
    have hemit : (emit out).map (Step.sparing signal) = emit out := by
      cases out <;> rfl
    rw [sparing_after, List.map_append, hemit]
    exact .next (round_sparing signal hround) ih

/-- Slots are merged in one way only. -/
theorem Merges.unique {op : SetOp} {slots : List Slot} {s t : Script} (hs : Merges op slots s)
    (ht : Merges op slots t) : s = t := by
  induction hs generalizing t with
  | finished hround =>
    cases ht with
    | finished => rfl
    | failed hround' => rw [hround] at hround'; cases hround'
    | next hround' => rw [hround] at hround'; cases hround'
  | failed hround =>
    cases ht with
    | finished hround' => rw [hround] at hround'; cases hround'
    | failed hround' => rw [hround] at hround'; cases hround'; rfl
    | next hround' => rw [hround] at hround'; cases hround'
  | next hround _ ih =>
    cases ht with
    | finished hround' => rw [hround] at hround'; cases hround'
    | failed hround' => rw [hround] at hround'; cases hround'
    | next hround' hmerges =>
      rw [hround] at hround'
      cases hround'
      rw [ih hmerges]

/-- **A merge takes the same steps whatever signals are spared.** -/
theorem merge_sparing (op : SetOp) (slots : List Slot) :
    merge op (slots.map (Slot.sparing signal)) = (merge op slots).sparing signal :=
  (merges_merge op _).unique ((merges_merge op slots).sparing signal)

end Script

/-! ## Sources -/

/-- A source that does not raise a signal. -/
def Source.sparing (src : Source) : Source :=
  ⟨src.script.sparing signal, src.held.map (Snapshot.sparing signal)⟩

/-- An operand that does not raise a signal. -/
def Operand.sparing (o : Operand) : Operand := { o with source := o.source.sparing signal }

theorem Source.heldAtEnd_sparing (src : Source) :
    (src.sparing signal).heldAtEnd = src.heldAtEnd.map (Snapshot.sparing signal) := by
  have hletGo : ∀ (ids : List Nat) (held : List Snapshot),
      letGo (held.map (Snapshot.sparing signal)) ids =
        (letGo held ids).map (Snapshot.sparing signal) := by
    intro ids
    induction ids with
    | nil => exact fun _ => rfl
    | cons id rest ih =>
      intro held
      show letGo ((held.map (Snapshot.sparing signal)).eraseP (·.id == id)) rest = _
      rw [List.eraseP_map, ih]
      rfl
  obtain ⟨⟨steps, fault⟩, held⟩ := src
  show (steps.map (Step.sparing signal)).foldl heldAfter (held.map (Snapshot.sparing signal)) =
    (steps.foldl heldAfter held).map (Snapshot.sparing signal)
  induction steps generalizing held with
  | nil => rfl
  | cons step rest ih =>
    cases step with
    | visit raises => exact ih held
    | poll => exact ih held
    | release ids =>
      show (rest.map (Step.sparing signal)).foldl heldAfter
        (letGo (held.map (Snapshot.sparing signal)) ids) = _
      rw [hletGo]
      exact ih (letGo held ids)
    | yield node => exact ih held

theorem Operand.read_sparing (op : SetOp) (position : Nat) (o : Operand) :
    (o.sparing signal).read op position =
      (o.read op position).sparing signal (Script.sparing signal) := by
  have hheld : ((o.sparing signal).source.heldAtEnd.map (·.id)) =
      o.source.heldAtEnd.map (·.id) := by
    rw [sparing, Source.heldAtEnd_sparing, List.map_map]
    rfl
  have hsteps : (o.sparing signal).source.script.steps.filter (!·.isYield) =
      (o.source.script.steps.filter (!·.isYield)).map (Step.sparing signal) :=
    Step.filter_silent_sparing signal _
  have hnodes : (o.sparing signal).source.script.nodes = o.source.script.nodes :=
    Script.nodes_sparing signal _
  have hfault : (o.sparing signal).source.script.fault = o.source.script.fault := rfl
  unfold read
  rw [hheld, hsteps, hnodes, hfault]
  cases o.source.script.fault with
  | some fault => rfl
  | none =>
    show Script.Stretch.mk _ _ = Script.Stretch.mk _ (Except.ok ((Script.ofNodes _).sparing signal))
    rw [Script.sparing_ofNodes, List.map_append]
    rfl

theorem Operand.start_sparing (op : SetOp) (position : Nat) (o : Operand) :
    (o.sparing signal).start op position =
      (o.start op position).sparing signal (Script.Slot.sparing signal) := by
  have hbind : ∀ st : Script.Stretch Script,
      (st.bind fun script => Script.Slot.advance op ⟨position, none, script⟩).sparing signal
        (Script.Slot.sparing signal) =
      (st.sparing signal (Script.sparing signal)).bind fun script =>
        Script.Slot.advance op ⟨position, none, script⟩ := fun st =>
    Script.Stretch.sparing_bind signal _ _ st fun script =>
      (Script.spares_advance signal op ⟨position, none, script⟩).symm
  unfold start
  rw [read_sparing, hbind]
  congr 1
  show (if o.sorted then _ else _) = _
  split <;> rfl

theorem Operand.startAll_sparing (op : SetOp) (position : Nat) (operands : List Operand) :
    startAll op position (operands.map (Operand.sparing signal)) =
      (startAll op position operands).sparing signal (List.map (Script.Slot.sparing signal)) := by
  induction operands generalizing position with
  | nil => rfl
  | cons o rest ih =>
    rw [List.map_cons, startAll, startAll, start_sparing, ih]
    refine (Script.Stretch.sparing_bind signal _ _ _ fun slot => ?_).symm
    exact Script.Stretch.sparing_bind signal _ _ _ fun slots => rfl

namespace Source

theorem ofSet_sparing (op : SetOp) (operands : List Operand) :
    ofSet op (operands.map (Operand.sparing signal)) = (ofSet op operands).sparing signal := by
  have hheld : (operands.map (Operand.sparing signal)).flatMap (·.source.held) =
      (operands.flatMap (·.source.held)).map (Snapshot.sparing signal) := by
    rw [List.flatMap_map, List.map_flatMap]
    rfl
  unfold ofSet sparing
  rw [Operand.startAll_sparing, hheld]
  congr 1
  obtain ⟨steps, result⟩ := Operand.startAll op 0 operands
  cases result with
  | error fault => rfl
  | ok slots =>
    show (Script.merge op (slots.map _)).after _ =
      ((Script.merge op slots).after steps).sparing signal
    rw [Script.merge_sparing, Script.sparing_after]

theorem ofLookup_sparing (s : Snapshot) (l : Lookup) :
    ofLookup (s.sparing signal) l = (ofLookup s l).sparing signal := by
  have hentries : Entry.steps ((s.sparing signal).index.answer l) =
      (Entry.steps (s.index.answer l)).map (Step.sparing signal) := by
    have hanswer : (s.sparing signal).index.answer l =
        (s.index.answer l).map (Entry.sparing signal) := by
      cases l <;> rfl
    rw [hanswer, Entry.steps, Entry.steps, List.flatMap_map, List.map_flatMap]
    rfl
  have hscan : (s.scanSteps l).map (Step.sparing signal) = s.scanSteps l := by
    rw [Snapshot.scanSteps, List.map_flatMap]
    congr 1
    funext ⟨row, pre⟩
    show (Snapshot.scanRow l pre row).map _ = Snapshot.scanRow l pre row
    unfold Snapshot.scanRow
    split <;> split <;> rfl
  show Source.mk (if s.index.answers l then _ else _) _ =
    Source.mk ((if s.index.answers l then _ else _ : Script).sparing signal) _
  rw [hentries]
  congr 1
  split
  · exact (Script.sparing_ofSteps signal ..).symm
  · rw [Script.sparing_ofSteps, hscan]
    rfl

end Source

/-! ## Expressions -/

namespace Expr

variable (live : Live)

theorem resolve_sparing (binding : Binding) :
    (live.sparing signal).resolve binding =
      (live.resolve binding).map (Snapshot.sparing signal) := by
  have hfind : (live.sparing signal).find? binding =
      (live.find? binding).map (Snapshot.sparing signal) := by
    unfold Live.find? Live.sparing
    rw [List.find?_map]
    rfl
  unfold Live.resolve
  rw [hfind]
  cases live.find? binding <;> rfl

theorem openLookup_sparing (binding : Binding) (l : Lookup) :
    openLookup (live.sparing signal) binding l =
      (openLookup live binding l).map (Snapshot.sparing signal) := by
  unfold openLookup
  rw [resolve_sparing]
  cases live.resolve binding with
  | error fault => rfl
  | ok s => cases l.fault? <;> rfl

theorem operandsFrom_sparing {op : SetOp} {position : Nat} {es : List Expr}
    (h : ∀ e ∈ es, e.source (live.sparing signal) = (e.source live).map (Source.sparing signal)) :
    operandsFrom (live.sparing signal) op position es =
      (operandsFrom live op position es).map (List.map (Operand.sparing signal)) := by
  induction es generalizing position with
  | nil => rfl
  | cons e rest ih =>
    obtain ⟨hfirst, hrest⟩ := List.forall_mem_cons.1 h
    rw [operandsFrom, operandsFrom, hfirst, ih hrest]
    cases e.source live with
    | error fault => rfl
    | ok src => cases operandsFrom live op (position + 1) rest <;> rfl

/-- **The source of an expression over indexes that spare a signal** is its source with the signal
spared.  The induction is on the expression. -/
theorem source_sparing (e : Expr) :
    e.source (live.sparing signal) = (e.source live).map (Source.sparing signal) := by
  induction e with
  | empty => rfl
  | nodes binding pres =>
    rw [source, source, resolve_sparing]
    cases live.resolve binding with
    | error fault => rfl
    | ok s =>
      show Except.ok (Source.mk _ _) = Except.ok (Source.mk ((Script.ofNodes _).sparing signal) _)
      rw [Script.sparing_ofNodes]
      rfl
  | access binding lookup iterable =>
    rw [source, source, openLookup_sparing]
    cases openLookup live binding lookup with
    | error fault => rfl
    | ok s => exact congrArg Except.ok (Source.ofLookup_sparing signal s lookup)
  | set op operands iterable ih =>
    rw [source, source, operandsFrom_sparing signal live ih]
    cases operandsFrom live op 0 operands with
    | error fault => rfl
    | ok sources => exact congrArg Except.ok (Source.ofSet_sparing signal op sources)

end Expr

end XmlStore
