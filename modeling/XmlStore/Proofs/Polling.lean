import XmlStore.Evaluation
import XmlStore.Proofs.Opening
import XmlStore.Proofs.Rounds

/-!
# Evaluations are polled

A signal that is raised while an entry is visited is noticed: the signal is polled before the next
node comes out, and before a script ends.

* `Step.awaits` — follows some steps from poll to poll; `none` if a node comes out between a visit
  and the next poll.
* `Script.Polled`, `Stretch.Polled` — every visit is followed by a poll in time, or by a fault.
* `Expr.polled_source` — the script of every expression is polled.
* `Expr.value_eq_ok` — hence an expression has a value exactly if nothing is heard in its script and
  no fault ends it, and its value is then the nodes of the script.
-/

namespace XmlStore

namespace Signals

/-- Whether raising some signals raises the one with this number. -/
def hears (s : Signals) (id : SignalId) (raises : List SignalId) : Bool :=
  decide (id < s.raised.size) && raises.contains id

theorem isRaised_raise (s : Signals) (a b : SignalId) :
    (s.raise a).isRaised b = (s.isRaised b || s.hears b [a]) := by
  by_cases h : a = b
  · subst h
    by_cases hsize : a < s.raised.size <;> simp [raise, isRaised, hears, hsize]
  · rw [isRaised_raise_of_ne s h]
    simp [hears, Ne.symm h]

theorem isRaised_raiseAll (s : Signals) (ids : List SignalId) (id : SignalId) :
    (s.raiseAll ids).isRaised id = (s.isRaised id || s.hears id ids) := by
  induction ids generalizing s with
  | nil => simp [raiseAll, hears]
  | cons a rest ih =>
    show ((s.raise a).raiseAll rest).isRaised id = _
    rw [ih, isRaised_raise, Bool.or_assoc]
    simp [hears, raise, Bool.and_or_distrib_left]

theorem hears_raiseAll (s : Signals) (ids : List SignalId) (id : SignalId) :
    (s.raiseAll ids).hears id = s.hears id := by
  funext raises
  simp [hears]

end Signals

namespace Step

variable {α : Type}

/-- Whether a poll is due after some steps, given whether one was due before them; `none` if
something is yielded while a poll is due. -/
def awaits : Bool → List (Step α) → Option Bool
  | due, [] => some due
  | _, visit _ :: rest => awaits true rest
  | _, poll :: rest => awaits false rest
  | due, release _ :: rest => awaits due rest
  | due, yield _ :: rest => if due then none else awaits false rest

theorem awaits_append (due : Bool) (a b : List (Step α)) :
    awaits due (a ++ b) = (awaits due a).bind fun due => awaits due b := by
  induction a generalizing due with
  | nil => rfl
  | cons step rest ih =>
    cases step with
    | visit => exact ih true
    | poll => exact ih false
    | release => exact ih due
    | yield =>
      simp only [List.cons_append, awaits]
      split
      · rfl
      · exact ih false

theorem awaits_filter_silent {due after : Bool} {steps : List (Step α)}
    (h : awaits due steps = some after) :
    awaits due (steps.filter (!·.isYield)) = some after := by
  induction steps generalizing due with
  | nil => exact h
  | cons step rest ih =>
    cases step with
    | visit => exact ih h
    | poll => exact ih h
    | release => exact ih h
    | yield =>
      simp only [awaits] at h
      cases due with
      | true => simp at h
      | false => exact ih h

end Step

namespace Script

/-- No poll is due when a node comes out or when the script ends without a fault. -/
def Polled (s : Script) : Prop :=
  ∃ due, Step.awaits false s.steps = some due ∧ (s.fault = none → due = false)

theorem polled_empty : empty.Polled := ⟨false, rfl, fun _ => rfl⟩

theorem Polled.after {s : Script} (h : s.Polled) {steps : List (Step Node)}
    (hsteps : Step.awaits false steps = some false) : (s.after steps).Polled := by
  obtain ⟨due, hdue, hend⟩ := h
  refine ⟨due, ?_, hend⟩
  rw [Script.after, Step.awaits_append, hsteps]
  exact hdue

theorem polled_ofNodes (nodes : List Node) : (ofNodes nodes).Polled := by
  induction nodes with
  | nil => exact polled_empty
  | cons node rest ih => exact ih.after rfl

/-- Whatever poll is due before a cursor: it polls before every node and at its end. -/
theorem awaits_ofSteps (snapshot : Nat) (fault? : Nat → Option Fault) (steps : List (Step Nat))
    (due : Bool) :
    ∃ after, Step.awaits due (ofSteps snapshot fault? steps).steps = some after ∧
      ((ofSteps snapshot fault? steps).fault = none → after = false) := by
  induction steps generalizing due with
  | nil => exact ⟨false, rfl, fun _ => rfl⟩
  | cons step rest ih =>
    cases step with
    | visit => exact ih true
    | poll => exact ih false
    | release => exact ih due
    | yield pre =>
      rw [ofSteps]
      split
      · rename_i fault _
        exact ⟨due, rfl, fun hfault => by cases hfault⟩
      · exact ih false

theorem polled_ofSteps (snapshot : Nat) (fault? : Nat → Option Fault) (steps : List (Step Nat)) :
    (ofSteps snapshot fault? steps).Polled :=
  awaits_ofSteps snapshot fault? steps false

namespace Stretch

variable {α β : Type}

/-- No poll is due when a node comes out, or after the stretch unless it fails. -/
def Polled (st : Stretch α) : Prop :=
  ∃ due, Step.awaits false st.steps = some due ∧ (∀ a, st.result = .ok a → due = false)

theorem polled_pure (a : α) : (pure a).Polled := ⟨false, rfl, fun _ _ => rfl⟩

theorem Polled.bind {s : Stretch α} {next : α → Stretch β} (hs : s.Polled)
    (hnext : ∀ a, s.result = .ok a → (next a).Polled) : (s.bind next).Polled := by
  obtain ⟨due, hdue, hok⟩ := hs
  unfold Stretch.bind
  split
  · exact ⟨due, hdue, fun a ha => by cases ha⟩
  · rename_i a ha
    obtain ⟨after, hafter, hend⟩ := hnext a ha
    refine ⟨after, ?_, hend⟩
    rw [Step.awaits_append, hdue, hok a ha]
    exact hafter

theorem Polled.awaits {st : Stretch α} (h : st.Polled) {a : α} (ha : st.result = .ok a) :
    Step.awaits false st.steps = some false := by
  obtain ⟨due, hdue, hok⟩ := h
  rw [hdue, hok a ha]

end Stretch

/-! ## Merges -/

/-- A way of moving is polled on every slot that is, and leaves it so. -/
def MovesPolled (move : Slot → Stretch Slot) : Prop :=
  ∀ s, s.rest.Polled → (move s).Polled ∧ ∀ t, (move s).result = .ok t → t.rest.Polled

theorem movesPolled_advance (op : SetOp) : MovesPolled (Slot.advance op) := by
  intro s hs
  obtain ⟨due, hdue, hend⟩ := hs
  have ha := s.advances op
  generalize s.advance op = st at ha
  cases ha with
  | @node before rest node hsteps _ =>
    rw [hsteps, Step.awaits_append, Option.bind_eq_some_iff] at hdue
    obtain ⟨mid, hbefore, hrest⟩ := hdue
    -- a node comes out after `before`, so no poll is due there
    obtain rfl : mid = false := by
      cases mid with
      | true => cases hrest
      | false => rfl
    refine ⟨⟨false, hbefore, fun _ _ => rfl⟩, ?_⟩
    intro t ht
    obtain rfl := Except.ok.inj ht
    exact ⟨due, hrest, hend⟩
  | finished _ hfault =>
    refine ⟨⟨due, hdue, fun _ _ => hend hfault⟩, ?_⟩
    intro t ht
    obtain rfl := Except.ok.inj ht
    exact polled_empty
  | failed => exact ⟨⟨due, hdue, fun _ h => by cases h⟩, fun t ht => by cases ht⟩

theorem movesPolled_moveIf (op : SetOp) (which : Slot → Bool) :
    MovesPolled (moveIf op which) := by
  intro s hs
  unfold moveIf
  split
  · exact movesPolled_advance op s hs
  · refine ⟨Stretch.polled_pure s, ?_⟩
    intro t ht
    obtain rfl := Except.ok.inj ht
    exact hs

theorem movesPolled_skipBelow (op : SetOp) (node : Node) : MovesPolled (skipBelow op node) := by
  intro s hs
  have hpure : ∀ s : Slot, s.rest.Polled → (Stretch.pure s).Polled ∧
      ∀ t, (Stretch.pure s).result = .ok t → t.rest.Polled := fun s hs =>
    ⟨Stretch.polled_pure s, fun t ht => Except.ok.inj ht ▸ hs⟩
  fun_induction skipBelow op node s with
  | case1 s => exact hpure s hs
  | case2 s front _ _ steps fault hnext =>
    obtain ⟨hpolled, _⟩ := movesPolled_advance op s hs
    rw [hnext] at hpolled
    obtain ⟨due, hdue, _⟩ := hpolled
    exact ⟨⟨due, hdue, fun _ h => by cases h⟩, fun t ht => by cases ht⟩
  | case3 s front _ _ steps u hnext more ih =>
    obtain ⟨hpolled, hu⟩ := movesPolled_advance op s hs
    rw [hnext] at hpolled hu
    obtain ⟨hmore, ht⟩ := ih (hu u rfl)
    have hbind : (Stretch.bind ⟨steps, .ok u⟩ (skipBelow op node)).Polled :=
      hpolled.bind fun a ha => by
        obtain rfl := Except.ok.inj ha
        exact hmore
    exact ⟨hbind, ht⟩
  | case4 s => exact hpure s hs

theorem MovesPolled.all {move : Slot → Stretch Slot} (hm : MovesPolled move) {slots : List Slot}
    (hs : ∀ s ∈ slots, s.rest.Polled) :
    (moveAll move slots).Polled ∧
      ∀ next, (moveAll move slots).result = .ok next → ∀ t ∈ next, t.rest.Polled := by
  induction slots with
  | nil =>
    refine ⟨Stretch.polled_pure [], ?_⟩
    intro next hnext
    obtain rfl := Except.ok.inj hnext
    exact fun t ht => by cases ht
  | cons s rest ih =>
    obtain ⟨hhead, hrest⟩ := List.forall_mem_cons.1 hs
    obtain ⟨hmove, hmoved⟩ := hm s hhead
    obtain ⟨hall, hnexts⟩ := ih hrest
    refine ⟨hmove.bind fun _ _ => hall.bind fun _ _ => Stretch.polled_pure _, ?_⟩
    intro next hnext
    obtain ⟨t, ht, hnext⟩ := Stretch.bind_eq_ok hnext
    obtain ⟨ts, hts, hnext⟩ := Stretch.bind_eq_ok hnext
    obtain rfl := Except.ok.inj hnext
    exact List.forall_mem_cons.2 ⟨hmoved t ht, hnexts ts hts⟩

/-- One round over polled slots is polled, and leaves them so. -/
theorem polled_round {op : SetOp} {slots : List Slot} {st : Stretch (Option Node × List Slot)}
    (hs : ∀ s ∈ slots, s.rest.Polled) (h : round op slots = some st) :
    st.Polled ∧ ∀ out next, st.result = .ok (out, next) → ∀ t ∈ next, t.rest.Polled := by
  have hpure : ∀ {move : Slot → Stretch Slot} (out : Option Node), MovesPolled move →
      ((moveAll move slots).bind fun next => .pure (out, next)).Polled ∧
        ∀ out' next, ((moveAll move slots).bind fun next => .pure (out, next)).result =
          .ok (out', next) → ∀ t ∈ next, t.rest.Polled := by
    intro move out hm
    obtain ⟨hall, hnexts⟩ := hm.all hs
    refine ⟨hall.bind fun _ _ => Stretch.polled_pure _, ?_⟩
    intro out' next hnext
    obtain ⟨ts, hts, hnext⟩ := Stretch.bind_eq_ok hnext
    obtain ⟨rfl, rfl⟩ := Prod.mk.inj (Except.ok.inj hnext)
    exact hnexts _ hts
  cases turn_of_round h with
  | earliest => exact hpure _ (movesPolled_moveIf _ _)
  | common => exact hpure _ (movesPolled_moveIf _ _)
  | behind => exact hpure _ (movesPolled_moveIf _ _)
  | @first first rest node =>
    obtain ⟨hfirst, hrest⟩ := List.forall_mem_cons.1 hs
    obtain ⟨hall, hothers⟩ := (movesPolled_skipBelow .except node).all hrest
    obtain ⟨hadvance, hhead⟩ := movesPolled_advance .except first hfirst
    refine ⟨hall.bind fun _ _ => hadvance.bind fun _ _ => Stretch.polled_pure _, ?_⟩
    intro out next hnext
    obtain ⟨others, hot, hnext⟩ := Stretch.bind_eq_ok hnext
    obtain ⟨head, hh, hnext⟩ := Stretch.bind_eq_ok hnext
    obtain ⟨rfl, rfl⟩ := Prod.mk.inj (Except.ok.inj hnext)
    exact List.forall_mem_cons.2 ⟨hhead head hh, hothers others hot⟩

theorem awaits_emit (out : Option Node) : Step.awaits false (emit out) = some false := by
  cases out <;> rfl

/-- **A merge of polled slots is polled.** -/
theorem Merges.polled {op : SetOp} {slots : List Slot} {s : Script} (h : Merges op slots s)
    (hs : ∀ slot ∈ slots, slot.rest.Polled) : s.Polled := by
  induction h with
  | finished => exact polled_empty
  | failed hround =>
    obtain ⟨due, hdue, _⟩ := (polled_round hs hround).1
    exact ⟨due, hdue, fun hfault => by cases hfault⟩
  | @next slots next steps out s hround _ ih =>
    obtain ⟨hst, hnext⟩ := polled_round hs hround
    apply (ih (hnext out next rfl)).after
    rw [Step.awaits_append, hst.awaits rfl]
    exact awaits_emit out

end Script

/-! ## Operands and expressions -/

namespace Operand

theorem polled_read (op : SetOp) (position : Nat) {o : Operand} (h : o.source.script.Polled) :
    (o.read op position).Polled ∧ ∀ s, (o.read op position).result = .ok s → s.Polled := by
  obtain ⟨due, hdue, hend⟩ := h
  have hsilent := Step.awaits_filter_silent hdue
  unfold read
  split
  · exact ⟨⟨due, hsilent, fun _ h => by cases h⟩, fun s hs => by cases hs⟩
  · rename_i hfault
    obtain rfl := hend hfault
    refine ⟨⟨false, ?_, fun _ _ => rfl⟩, ?_⟩
    · rw [Step.awaits_append, hsilent]; rfl
    · intro s hs
      obtain rfl := Except.ok.inj hs
      exact Script.polled_ofNodes _

theorem polled_start (op : SetOp) (position : Nat) {o : Operand} (h : o.source.script.Polled) :
    (o.start op position).Polled ∧ ∀ s, (o.start op position).result = .ok s → s.rest.Polled := by
  have hscript : (if o.sorted then .pure o.source.script else o.read op position).Polled ∧
      ∀ s, (if o.sorted then .pure o.source.script else o.read op position).result = .ok s →
        s.Polled := by
    split
    · exact ⟨Script.Stretch.polled_pure _, fun s hs => Except.ok.inj hs ▸ h⟩
    · exact polled_read op position h
  have hadvance : ∀ s : Script, s.Polled → _ := fun s hs =>
    Script.movesPolled_advance op { position := position, front := none, rest := s } hs
  unfold start
  refine ⟨hscript.1.bind fun s hs => (hadvance s (hscript.2 s hs)).1, ?_⟩
  intro t ht
  obtain ⟨s, hs, ht⟩ := Script.Stretch.bind_eq_ok ht
  exact (hadvance s (hscript.2 s hs)).2 t ht

theorem polled_startAll (op : SetOp) (position : Nat) {operands : List Operand}
    (h : ∀ o ∈ operands, o.source.script.Polled) :
    (startAll op position operands).Polled ∧
      ∀ slots, (startAll op position operands).result = .ok slots →
        ∀ s ∈ slots, s.rest.Polled := by
  induction operands generalizing position with
  | nil =>
    refine ⟨Script.Stretch.polled_pure [], ?_⟩
    intro slots hslots
    obtain rfl := Except.ok.inj hslots
    exact fun s hs => by cases hs
  | cons o rest ih =>
    obtain ⟨ho, hrest⟩ := List.forall_mem_cons.1 h
    obtain ⟨hstart, hslot⟩ := polled_start op position ho
    obtain ⟨hall, hslots⟩ := ih (position + 1) hrest
    unfold startAll
    refine ⟨hstart.bind fun _ _ => hall.bind fun _ _ => Script.Stretch.polled_pure _, ?_⟩
    intro slots h
    obtain ⟨s, hs, h⟩ := Script.Stretch.bind_eq_ok h
    obtain ⟨ss, hss, h⟩ := Script.Stretch.bind_eq_ok h
    obtain rfl := Except.ok.inj h
    exact List.forall_mem_cons.2 ⟨hslot s hs, hslots ss hss⟩

end Operand

theorem Source.polled_ofSet (op : SetOp) {operands : List Operand}
    (h : ∀ o ∈ operands, o.source.script.Polled) : (ofSet op operands).script.Polled := by
  obtain ⟨hstart, hslots⟩ := Operand.polled_startAll op 0 h
  unfold ofSet
  split
  · rename_i steps fault hall
    rw [hall] at hstart
    obtain ⟨due, hdue, _⟩ := hstart
    exact ⟨due, hdue, fun hfault => by cases hfault⟩
  · rename_i steps slots hall
    rw [hall] at hstart hslots
    exact ((Script.merges_merge op slots).polled (hslots slots rfl)).after (hstart.awaits rfl)

theorem Source.polled_ofLookup (s : Snapshot) (lookup : Lookup) :
    (ofLookup s lookup).script.Polled := by
  unfold ofLookup
  split <;> exact Script.polled_ofSteps _ _ _

/-- **The script of an expression is polled.**  The induction is on the expression. -/
theorem Expr.polled_source {live : Live} {e : Expr} {src : Source}
    (h : e.source live = .ok src) : src.script.Polled := by
  induction e generalizing src with
  | empty =>
    obtain rfl := Except.ok.inj h
    exact Script.polled_empty
  | nodes binding pres =>
    rw [source] at h
    cases hs : live.resolve binding with
    | error fault => rw [hs] at h; cases h
    | ok s =>
      rw [hs] at h
      obtain rfl := Except.ok.inj h
      exact Script.polled_ofNodes _
  | access binding lookup iterable =>
    rw [source] at h
    cases hs : openLookup live binding lookup with
    | error fault => rw [hs] at h; cases h
    | ok s =>
      rw [hs] at h
      obtain rfl := Except.ok.inj h
      exact Source.polled_ofLookup s lookup
  | set op operands iterable ih =>
    obtain ⟨sources, hsources, rfl⟩ := source_set.1 h
    apply Source.polled_ofSet
    intro o ho
    obtain ⟨e, he, hsource, _⟩ := exists_of_mem_operandsFrom hsources ho
    exact ih e he hsource

/-! ## Running a script to its end -/

namespace Run

variable {r : Run} {signals : Signals}

/-- A signal that is raised while a poll is due keeps the run from its end. -/
theorem drainFrom_of_raised {steps : List (Step Node)} {done nodes : List Node} {due : Bool}
    (hraised : signals.isRaised r.signal = true) (hdue : Step.awaits true steps = some due)
    (hend : r.script.fault = none → due = false) :
    (r.drainFrom done signals steps).1 ≠ .ok nodes := by
  induction steps generalizing signals with
  | nil =>
    obtain rfl := Option.some.inj hdue
    rw [drainFrom]
    split
    · rename_i hfault
      cases hend hfault
    · simp
  | cons step rest ih =>
    cases step with
    | visit raises =>
      refine ih ?_ hdue
      rw [Signals.isRaised_raiseAll, hraised, Bool.true_or]
    | poll => simp [drainFrom, hraised]
    | release => exact ih hraised hdue
    | yield => cases hdue

/-- A run comes to its end exactly if nothing is heard on the way and no fault is there. -/
theorem drainFrom_eq_ok {steps : List (Step Node)} {done nodes : List Node} {due after : Bool}
    (hraised : signals.isRaised r.signal = false) (hdue : Step.awaits due steps = some after)
    (hend : r.script.fault = none → after = false) :
    (r.drainFrom done signals steps).1 = .ok nodes ↔
      r.script.fault = none ∧ Step.allQuiet (signals.hears r.signal) steps = true ∧
        nodes = done.reverse ++ Step.heard (signals.hears r.signal) steps := by
  induction steps generalizing signals done due with
  | nil =>
    rw [drainFrom, Step.heard, List.append_nil]
    cases r.script.fault with
    | none =>
      constructor
      · intro h
        exact ⟨rfl, rfl, (Except.ok.inj h).symm⟩
      · rintro ⟨_, _, h⟩
        rw [h]
    | some fault =>
      constructor
      · intro h
        cases h
      · rintro ⟨h, _⟩
        cases h
  | cons step rest ih =>
    cases step with
    | visit raises =>
      cases hheard : signals.hears r.signal raises with
      | true =>
        have hnot : (r.drainFrom done (signals.raiseAll raises) rest).1 ≠ .ok nodes :=
          drainFrom_of_raised (by rw [Signals.isRaised_raiseAll, hheard, Bool.or_true]) hdue hend
        constructor
        · intro h
          exact absurd h hnot
        · rintro ⟨_, hquiet, _⟩
          simp [Step.isQuiet, hheard] at hquiet
      | false =>
        have hrest : (r.drainFrom done (signals.raiseAll raises) rest).1 = .ok nodes ↔ _ :=
          ih (by rw [Signals.isRaised_raiseAll, hraised, hheard, Bool.or_false]) hdue
        rw [Signals.hears_raiseAll] at hrest
        rw [drainFrom, hrest, Step.heard, hheard, Step.allQuiet_cons, Step.isQuiet, hheard]
        simp
    | poll =>
      rw [drainFrom, if_neg (by simp [hraised]), ih hraised hdue]
      rfl
    | release => exact ih hraised hdue
    | yield node =>
      cases due with
      | true => cases hdue
      | false =>
        rw [drainFrom, ih hraised hdue]
        simp [Step.heard, Step.isQuiet]

end Run

variable {live : Live} {signals : Signals} {signal : SignalId}

/-- **The values of expressions.**  A signal that is raised in time makes every evaluation fail, so
an expression has a value only if nothing that its query observes is heard. -/
theorem Expr.value_eq_ok {e : Expr} {nodes : List Node} :
    (e.value live signals signal).result = .ok nodes ↔
      signals.isRaised signal = false ∧ ∃ src, e.source live = .ok src ∧
        src.script.Clean (signals.hears signal) ∧
          src.script.heard (signals.hears signal) = nodes := by
  unfold value begin
  cases hraised : signals.isRaised signal with
  | true => simp
  | false =>
    cases hsource : e.source live with
    | error fault => simp [bind, Except.bind]
    | ok src =>
      obtain ⟨due, hdue, hend⟩ := polled_source hsource
      have hdrain : ((⟨signal, src.script, src.held⟩ : Run).drainFrom [] signals
          src.script.steps).1 = .ok nodes ↔ _ := Run.drainFrom_eq_ok hraised hdue hend
      simp only [Bool.false_eq_true, if_false, bind, Except.bind, Run.drain, hdrain,
        Except.ok.injEq, true_and, List.reverse_nil, List.nil_append]
      constructor
      · rintro ⟨hfault, hquiet, hnodes⟩
        exact ⟨src, rfl, ⟨hfault, hquiet⟩, hnodes.symm⟩
      · rintro ⟨_, rfl, ⟨hfault, hquiet⟩, hnodes⟩
        exact ⟨hfault, hquiet, hnodes.symm⟩

end XmlStore
