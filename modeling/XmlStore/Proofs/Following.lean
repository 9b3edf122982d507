import XmlStore.Proofs.Rounds
import XmlStore.Reader

/-!
# Readers that follow scripts

* `Script.pull` — a script up to its next node, under a signal.
* `Settles` — what a reading gives if it has enough fuel.
* `Agrees` — a reading ends, and with the same fault or a like result as a run.
* `Follows` — whatever signals are raised between two nodes, a reader gives those of a script, one
  by one.  It is the largest relation that `Reader.next` keeps, so `Follows.of_next` needs to look
  one node ahead only.
* `Follows.listed`, `Follows.lookup` — listed nodes, and cursors over an index or a table.
* `Follows.collect` — reading to the end gives all nodes of the script.
-/

namespace XmlStore

variable {α β γ δ : Type}

/-! ## Running scripts -/

/-- One part of a run after another; a fault ends both. -/
def andThen (x : Except Fault α × Signals) (next : α → Signals → Except Fault β × Signals) :
    Except Fault β × Signals :=
  match x with
  | (.error fault, signals) => (.error fault, signals)
  | (.ok a, signals) => next a signals

theorem andThen_assoc (x : Except Fault α × Signals) (next : α → Signals → Except Fault β × Signals)
    (last : β → Signals → Except Fault γ × Signals) :
    andThen (andThen x next) last = andThen x fun a signals => andThen (next a signals) last := by
  obtain ⟨result, signals⟩ := x
  cases result <;> rfl

namespace Script

variable (signal : SignalId)

/-- Runs steps, passing over what they yield. -/
def play : List (Step Node) → Signals → Except Fault Unit × Signals
  | [], signals => (.ok (), signals)
  | .visit raises :: rest, signals => play rest (signals.raiseAll raises)
  | .poll :: rest, signals =>
    if signals.isRaised signal then (.error .interrupted, signals) else play rest signals
  | .release _ :: rest, signals => play rest signals
  | .yield _ :: rest, signals => play rest signals

/-- Runs the steps of a stretch to its result. -/
def Stretch.exec (st : Stretch α) (signals : Signals) : Except Fault α × Signals :=
  andThen (play signal st.steps signals) fun _ signals => (st.result, signals)

/-- Runs steps up to the next node. -/
def pullFrom (fault : Option Fault) :
    List (Step Node) → Signals → Except Fault (Option (Node × Script)) × Signals
  | [], signals =>
    match fault with
    | none => (.ok none, signals)
    | some fault => (.error fault, signals)
  | .visit raises :: rest, signals => pullFrom fault rest (signals.raiseAll raises)
  | .poll :: rest, signals =>
    if signals.isRaised signal then (.error .interrupted, signals) else pullFrom fault rest signals
  | .release _ :: rest, signals => pullFrom fault rest signals
  | .yield node :: rest, signals => (.ok (some (node, ⟨rest, fault⟩)), signals)

/-- Runs a script up to its next node. -/
def pull (s : Script) (signals : Signals) : Except Fault (Option (Node × Script)) × Signals :=
  pullFrom signal s.fault s.steps signals

/-- Runs a script to its end, after the nodes `done` (the latest first). -/
def drain (s : Script) (done : List Node) (signals : Signals) :
    Except Fault (List Node) × Signals :=
  andThen (play signal s.steps signals) fun _ signals =>
    match s.fault with
    | none => (.ok (done.reverse ++ s.nodes), signals)
    | some fault => (.error fault, signals)

variable {signal}

theorem play_append (a b : List (Step Node)) (signals : Signals) :
    play signal (a ++ b) signals = andThen (play signal a signals) fun _ => play signal b := by
  induction a generalizing signals with
  | nil => rfl
  | cons step rest ih =>
    cases step with
    | visit => exact ih _
    | poll =>
      rw [List.cons_append, play, play]
      split
      · rfl
      · exact ih _
    | release => exact ih _
    | yield => exact ih _

theorem play_filter_silent (steps : List (Step Node)) (signals : Signals) :
    play signal (steps.filter (!·.isYield)) signals = play signal steps signals := by
  induction steps generalizing signals with
  | nil => rfl
  | cons step rest ih =>
    cases step with
    | visit => exact ih _
    | poll =>
      show play signal (.poll :: rest.filter (!·.isYield)) signals = _
      rw [play, play, ih]
    | release => exact ih _
    | yield => exact ih _

/-- A run is interrupted, or there is nothing wrong with it. -/
theorem play_cases (signal : SignalId) (steps : List (Step Node)) (signals : Signals) :
    (∃ signals', play signal steps signals = (.error .interrupted, signals')) ∨
      ∃ signals', play signal steps signals = (.ok (), signals') := by
  induction steps generalizing signals with
  | nil => exact Or.inr ⟨signals, rfl⟩
  | cons step rest ih =>
    cases step with
    | visit => exact ih _
    | poll =>
      rw [play]
      split
      · exact Or.inl ⟨signals, rfl⟩
      · exact ih _
    | release => exact ih _
    | yield => exact ih _

theorem pull_after {s : Script} {steps : List (Step Node)} (h : Step.allSilent steps = true)
    (signals : Signals) :
    (s.after steps).pull signal signals =
      andThen (play signal steps signals) fun _ => s.pull signal := by
  unfold pull after
  induction steps generalizing signals with
  | nil => rfl
  | cons step rest ih =>
    rw [Step.allSilent_cons, Bool.and_eq_true] at h
    cases step with
    | visit => exact ih h.2 _
    | poll =>
      rw [List.cons_append, pullFrom, play]
      split
      · rfl
      · exact ih h.2 _
    | release => exact ih h.2 _
    | yield => simp [Step.isYield] at h

/-- The next node of a script that polls before it yields. -/
theorem pull_after_emit {s : Script} {steps : List (Step Node)} (h : Step.allSilent steps = true)
    (node : Node) (signals : Signals) :
    (s.after (steps ++ [.poll, .yield node])).pull signal signals =
      andThen (play signal (steps ++ [.poll]) signals) fun _ signals =>
        (.ok (some (node, s)), signals) := by
  have hsilent : Step.allSilent (steps ++ [(.poll : Step Node)]) = true := by
    rw [Step.allSilent_append, h]
    rfl
  have hsplit : s.after (steps ++ [.poll, .yield node]) =
      (s.after [.yield node]).after (steps ++ [.poll]) := by
    simp [after]
  rw [hsplit, pull_after hsilent]
  rfl

theorem exec_bind (st : Stretch α) (next : α → Stretch β) (signals : Signals) :
    (st.bind next).exec signal signals =
      andThen (st.exec signal signals) fun a => (next a).exec signal := by
  obtain ⟨steps, result⟩ := st
  cases result with
  | error fault =>
    simp only [Stretch.bind, Stretch.exec]
    cases hplay : play signal steps signals with
    | mk outcome signals' => cases outcome <;> rfl
  | ok a =>
    simp only [Stretch.bind, Stretch.exec, play_append]
    cases hplay : play signal steps signals with
    | mk outcome signals' => cases outcome <;> rfl

theorem pull_of_yield {s : Script} {before rest : List (Step Node)} {node : Node}
    (hsteps : s.steps = before ++ .yield node :: rest) (h : Step.allSilent before = true)
    (signals : Signals) :
    s.pull signal signals = andThen (play signal before signals) fun _ signals =>
      (.ok (some (node, { s with steps := rest })), signals) := by
  have hafter : s = (Script.mk (.yield node :: rest) s.fault).after before := by
    rw [after, ← hsteps]
  rw [hafter, pull_after h]
  rfl

theorem pull_of_silent {s : Script} (h : Step.allSilent s.steps = true) (signals : Signals) :
    s.pull signal signals = andThen (play signal s.steps signals) fun _ =>
      (Script.mk [] s.fault).pull signal := by
  have hafter : s = (Script.mk [] s.fault).after s.steps := by
    rw [after, List.append_nil]
  exact (congrArg (fun t => pull signal t signals) hafter).trans (pull_after h signals)

/-- A script that begins with the steps of a stretch is pulled by running the stretch first. -/
theorem pull_after_exec {s : Script} {steps : List (Step Node)} (h : Step.allSilent steps = true)
    (a : α) (signals : Signals) :
    (s.after steps).pull signal signals =
      andThen ((Stretch.mk steps (.ok a)).exec signal signals) fun _ => s.pull signal := by
  rw [pull_after h, Stretch.exec, andThen_assoc]
  rfl

/-- A script that is a failing stretch is pulled by running the stretch. -/
theorem pull_of_failed {steps : List (Step Node)} (h : Step.allSilent steps = true) (fault : Fault)
    (next : α → Signals → Except Fault (Option (Node × Script)) × Signals) (signals : Signals) :
    (Script.mk steps (some fault)).pull signal signals =
      andThen ((Stretch.mk steps (.error fault)).exec signal signals) next := by
  rw [pull_of_silent h, Stretch.exec, andThen_assoc]
  rfl

/-- A slot moves on by pulling the rest of its script. -/
theorem exec_advance (op : SetOp) (s : Slot) (signals : Signals) :
    (s.advance op).exec signal signals =
      match s.rest.pull signal signals with
      | (.error fault, signals) => (.error (fault.inOperand op s.position), signals)
      | (.ok none, signals) => (.ok { s with front := none, rest := .empty }, signals)
      | (.ok (some (node, rest)), signals) =>
        (.ok { s with front := some node, rest := rest }, signals) := by
  have hadvances := s.advances op
  generalize s.advance op = st at hadvances
  -- an interrupt carries no operand
  cases hadvances with
  | node hsteps hsilent =>
    rw [pull_of_yield hsteps hsilent, Stretch.exec]
    rcases play_cases signal _ signals with ⟨signals', hp⟩ | ⟨signals', hp⟩ <;>
      rw [hp] <;> rfl
  | finished hsilent hfault =>
    rw [pull_of_silent hsilent, Stretch.exec, hfault]
    rcases play_cases signal s.rest.steps signals with ⟨signals', hp⟩ | ⟨signals', hp⟩ <;>
      rw [hp] <;> rfl
  | failed hsilent hfault =>
    rw [pull_of_silent hsilent, Stretch.exec, hfault]
    rcases play_cases signal s.rest.steps signals with ⟨signals', hp⟩ | ⟨signals', hp⟩ <;>
      rw [hp] <;> rfl

/-- What is drained is pulled node by node. -/
theorem drain_eq (s : Script) (done : List Node) (signals : Signals) :
    s.drain signal done signals = andThen (s.pull signal signals) fun
      | none => fun signals => (.ok done.reverse, signals)
      | some (node, rest) => rest.drain signal (node :: done) := by
  obtain ⟨steps, fault⟩ := s
  unfold drain pull nodes
  induction steps generalizing signals with
  | nil =>
    cases fault with
    | none => exact congrArg (fun l => (Except.ok l, signals)) (List.append_nil _)
    | some fault => rfl
  | cons step rest ih =>
    cases step with
    | visit => exact ih _
    | poll =>
      simp only [play, pullFrom]
      split
      · rfl
      · exact ih _
    | release => exact ih _
    | yield node =>
      simp only [play, pullFrom, andThen, List.reverse_cons, List.append_assoc,
        Step.filterMap_yield, List.singleton_append]

/-- A script that has yielded a node has fewer steps to come. -/
theorem length_of_pull {s rest : Script} {signals signals' : Signals} {node : Node}
    (h : s.pull signal signals = (.ok (some (node, rest)), signals')) :
    rest.steps.length < s.steps.length := by
  obtain ⟨steps, fault⟩ := s
  unfold pull at h
  show rest.steps.length < steps.length
  induction steps generalizing signals with
  | nil => cases fault <;> cases h
  | cons step others ih =>
    cases step with
    | visit => exact Nat.lt_succ_of_lt (ih h)
    | poll =>
      simp only [pullFrom] at h
      split at h
      · cases h
      · exact Nat.lt_succ_of_lt (ih h)
    | release => exact Nat.lt_succ_of_lt (ih h)
    | yield =>
      simp only [pullFrom, Prod.mk.injEq, Except.ok.injEq, Option.some.injEq] at h
      obtain ⟨⟨_, rfl⟩, _⟩ := h
      exact Nat.lt_succ_self _

end Script

/-! ## Readings with enough fuel -/

/-- With enough fuel a reading gives `a`. -/
def Settles (m : Nat → Option α) (a : α) : Prop := ∃ least, ∀ fuel, least ≤ fuel → m fuel = some a

namespace Settles

variable {m : Nat → Option α} {a : α}

theorem const (a : α) : Settles (fun _ => some a) a := ⟨0, fun _ _ => rfl⟩

theorem exists_fuel (h : Settles m a) : ∃ fuel, m fuel = some a := by
  obtain ⟨least, hm⟩ := h
  exact ⟨least, hm least (Nat.le_refl least)⟩

/-- A call takes one unit of fuel. -/
theorem succ (h : Settles (fun fuel => m (fuel + 1)) a) : Settles m a := by
  obtain ⟨least, hm⟩ := h
  refine ⟨least + 1, fun fuel hfuel => ?_⟩
  obtain ⟨fuel, rfl⟩ := Nat.exists_eq_add_of_le' (Nat.le_of_add_left_le hfuel)
  exact hm fuel (Nat.le_of_add_le_add_right hfuel)

theorem more (h : Settles m a) : Settles (fun fuel => m (fuel + 1)) a := by
  obtain ⟨least, hm⟩ := h
  exact ⟨least, fun fuel hfuel => hm _ (Nat.le_succ_of_le hfuel)⟩

theorem bind (h : Settles m a) {k : Nat → α → Option β} {b : β}
    (hk : Settles (fun fuel => k fuel a) b) : Settles (fun fuel => (m fuel).bind (k fuel)) b := by
  obtain ⟨least, hm⟩ := h
  obtain ⟨least', hk⟩ := hk
  refine ⟨max least least', fun fuel hfuel => ?_⟩
  show (m fuel).bind (k fuel) = some b
  rw [hm fuel (Nat.le_trans (Nat.le_max_left _ _) hfuel), Option.bind_some,
    ← hk fuel (Nat.le_trans (Nat.le_max_right _ _) hfuel)]

theorem map (h : Settles m a) (f : α → β) : Settles (fun fuel => (m fuel).map f) (f a) := by
  obtain ⟨least, hm⟩ := h
  exact ⟨least, fun fuel hfuel => congrArg (Option.map f) (hm fuel hfuel)⟩

end Settles

theorem Reading.bind_apply (m : Reading α) (k : α → Reading β) (signals : Signals) :
    (m >>= k) signals = (m signals).bind fun (a, signals) => k a signals := rfl

theorem Reading.get_eq (signals : Signals) :
    (get : Reading Signals) signals = some (signals, signals) := rfl

theorem Reading.set_eq (new old : Signals) :
    (set new : Reading PUnit) old = some (⟨⟩, new) := rfl

theorem Reading.poll_eq (signal : SignalId) (signals : Signals) :
    Reading.poll signal signals =
      some (if signals.isRaised signal then .error .interrupted else .ok (), signals) := rfl

/-! ## Readings that agree with a run -/

/-- The same fault or a like result, and the same signals. -/
inductive Alike (like : α → β → Prop) :
    Except Fault α × Signals → Except Fault β × Signals → Prop where
  | failed {fault : Fault} {signals : Signals} :
      Alike like (.error fault, signals) (.error fault, signals)
  | ok {a : α} {b : β} {signals : Signals} :
      like a b → Alike like (.ok a, signals) (.ok b, signals)

/-- With enough fuel a reading ends, and as a run does. -/
def Agrees (like : α → β → Prop) (m : Nat → Option (Except Fault α × Signals))
    (x : Except Fault β × Signals) : Prop :=
  ∃ outcome, Settles m outcome ∧ Alike like outcome x

namespace Agrees

variable {like : α → β → Prop} {like' : γ → δ → Prop}
  {m : Nat → Option (Except Fault α × Signals)} {x : Except Fault β × Signals}

theorem failed {fault : Fault} {signals : Signals} :
    Agrees like (fun _ => some (.error fault, signals)) (.error fault, signals) :=
  ⟨_, .const _, .failed⟩

theorem ok {a : α} {b : β} {signals : Signals} (h : like a b) :
    Agrees like (fun _ => some (.ok a, signals)) (.ok b, signals) :=
  ⟨_, .const _, .ok h⟩

theorem succ (h : Agrees like (fun fuel => m (fuel + 1)) x) : Agrees like m x := by
  obtain ⟨outcome, hm, hx⟩ := h
  exact ⟨outcome, hm.succ, hx⟩

theorem more (h : Agrees like m x) : Agrees like (fun fuel => m (fuel + 1)) x := by
  obtain ⟨outcome, hm, hx⟩ := h
  exact ⟨outcome, hm.more, hx⟩

theorem mono {like' : α → β → Prop} (h : Agrees like m x) (himp : ∀ a b, like a b → like' a b) :
    Agrees like' m x := by
  obtain ⟨outcome, hm, hx⟩ := h
  cases hx with
  | failed => exact ⟨_, hm, .failed⟩
  | ok hlike => exact ⟨_, hm, .ok (himp _ _ hlike)⟩

/-- What a run has come to is known of its result. -/
theorem known (h : Agrees like m x) :
    Agrees (fun a b => like a b ∧ ∃ signals, x = (.ok b, signals)) m x := by
  obtain ⟨outcome, hm, hx⟩ := h
  cases hx with
  | failed => exact ⟨_, hm, .failed⟩
  | ok hlike => exact ⟨_, hm, .ok ⟨hlike, _, rfl⟩⟩

/-- A reading that goes on agrees with a run if it does so from every outcome of its first part. -/
theorem bind_outcome {m : Nat → Reading (Except Fault α)} {signals : Signals}
    (h : Agrees like (fun fuel => m fuel signals) x)
    {k : Nat → Except Fault α → Reading (Except Fault γ)} {y : Except Fault δ × Signals}
    (hk : ∀ result signals, Alike like (result, signals) x →
      Agrees like' (fun fuel => k fuel result signals) y) :
    Agrees like' (fun fuel => (m fuel >>= k fuel) signals) y := by
  obtain ⟨⟨result, signals'⟩, hm, hx⟩ := h
  obtain ⟨outcome, hnext, hy⟩ := hk result signals' hx
  exact ⟨outcome, hm.bind hnext, hy⟩

/-- Readings agree if their parts do. -/
theorem bind {m : Nat → Reading (Except Fault α)} {signals : Signals}
    (h : Agrees like (fun fuel => m fuel signals) x)
    {k : Nat → Except Fault α → Reading (Except Fault γ)}
    {next : β → Signals → Except Fault δ × Signals}
    (hfailed : ∀ fuel fault signals, k fuel (.error fault) signals = some (.error fault, signals))
    (hok : ∀ a b signals, like a b →
      Agrees like' (fun fuel => k fuel (.ok a) signals) (next b signals)) :
    Agrees like' (fun fuel => (m fuel >>= k fuel) signals) (andThen x next) := by
  refine h.bind_outcome fun result signals' hx => ?_
  cases hx with
  | failed => exact ⟨_, ⟨0, fun fuel _ => hfailed fuel _ _⟩, .failed⟩
  | ok hlike => exact hok _ _ _ hlike

end Agrees

/-! ## Following -/

/-- A node of a reader and of a script, with what comes after it; or the end of both. -/
inductive Same (follows : Reader → Script → Prop) :
    Option Node × Reader → Option (Node × Script) → Prop where
  | ended (r : Reader) : Same follows (none, r) none
  | node {node : Node} {r : Reader} {s : Script} :
      follows r s → Same follows (some node, r) (some (node, s))

theorem Same.mono {follows follows' : Reader → Script → Prop}
    (himp : ∀ r s, follows r s → follows' r s) {a : Option Node × Reader}
    {b : Option (Node × Script)} (h : Same follows a b) : Same follows' a b := by
  cases h with
  | ended r => exact .ended r
  | node hfollows => exact .node (himp _ _ hfollows)

/-- A reader gives the nodes of a script one by one, whatever signals are raised in between. -/
def Follows (signal : SignalId) (r : Reader) (s : Script) : Prop :=
  ∃ follows : Reader → Script → Prop, follows r s ∧ ∀ r s, follows r s → ∀ signals,
    Agrees (Same follows) (fun fuel => r.next signal fuel signals) (s.pull signal signals)

namespace Reader

variable (signal : SignalId)

/-- What is done with a node that was found: the signal is polled before it is handed out. -/
def handOut (node : Node) (r : Reader) (signals : Signals) :
    Except Fault (Option Node × Reader) × Signals :=
  if signals.isRaised signal then (.error .interrupted, signals) else (.ok (some node, r), signals)

theorem next_eq (fuel : Nat) (r : Reader) (signals : Signals) :
    r.next signal (fuel + 1) signals = (r.advance signal fuel signals).map fun
      | (.ok (some node, r), signals) => handOut signal node r signals
      | found => found := by
  rw [Reader.next, Reading.bind_apply]
  cases r.advance signal fuel signals with
  | none => rfl
  | some found =>
    obtain ⟨fault | ⟨_ | node, r'⟩, signals'⟩ := found
    · rfl
    · rfl
    · -- the poll before the node is handed out
      have hpoll : ∀ k : Except Fault Unit → Reading (Except Fault (Option Node × Reader)),
          (Reading.poll signal >>= k) signals' =
            k (if signals'.isRaised signal then .error .interrupted else .ok ()) signals' :=
        fun _ => rfl
      refine (hpoll _).trans ?_
      show _ = some (handOut signal node r' signals')
      unfold handOut
      cases signals'.isRaised signal <;> rfl

end Reader

/-- A script that polls before a node agrees with handing it out. -/
theorem agrees_handOut {signal : SignalId} {follows : Reader → Script → Prop} {r : Reader}
    {s : Script} (h : follows r s) (node : Node) (signals : Signals) :
    Agrees (Same follows) (fun _ => some (Reader.handOut signal node r signals))
      ((s.after [.poll, .yield node]).pull signal signals) := by
  show Agrees _ _ ((s.after ([] ++ [.poll, .yield node])).pull signal signals)
  rw [Script.pull_after_emit rfl, List.nil_append, Script.play, Reader.handOut]
  split
  · exact .failed
  · exact .ok (.node h)

namespace Follows

variable {signal : SignalId}

/-- **A relation that is kept from node to node** is one of following. -/
theorem of_kept (follows : Reader → Script → Prop) (h : ∀ r s, follows r s → ∀ signals,
    Agrees (Same follows) (fun fuel => r.next signal fuel signals) (s.pull signal signals))
    {r : Reader} {s : Script}
    (hrs : follows r s) : Follows signal r s := ⟨follows, hrs, h⟩

theorem next {r : Reader} {s : Script} (h : Follows signal r s) (signals : Signals) :
    Agrees (Same (Follows signal)) (fun fuel => r.next signal fuel signals)
      (s.pull signal signals) := by
  obtain ⟨follows, hrs, hkept⟩ := h
  exact (hkept r s hrs signals).mono fun _ _ hsame =>
    hsame.mono fun _ _ h => of_kept follows hkept h

theorem of_next {r : Reader} {s : Script} (h : ∀ signals,
    Agrees (Same (Follows signal)) (fun fuel => r.next signal fuel signals)
      (s.pull signal signals)) :
    Follows signal r s := by
  refine ⟨fun r' s' => (r' = r ∧ s' = s) ∨ Follows signal r' s', Or.inl ⟨rfl, rfl⟩, ?_⟩
  rintro r' s' (⟨rfl, rfl⟩ | hfollows) signals
  · exact (h signals).mono fun _ _ hsame => hsame.mono fun _ _ => Or.inr
  · exact (hfollows.next signals).mono fun _ _ hsame => hsame.mono fun _ _ => Or.inr

/-- **Reading to the end gives all nodes of the script.**  The induction is on the steps to come. -/
theorem collect {r : Reader} {s : Script} (h : Follows signal r s) (done : List Node)
    (signals : Signals) :
    Agrees (fun nodes all => nodes = all) (fun fuel => r.collect signal fuel done signals)
      (s.drain signal done signals) := by
  induction hlength : s.steps.length using Nat.strongRecOn generalizing r s done signals with
  | ind length ih =>
    subst hlength
    refine .succ ?_
    simp only [Reader.collect, Script.drain_eq]
    refine (h.next signals).known.bind (fun _ _ _ => rfl) ?_
    rintro _ _ signals' ⟨hsame, _, hpull⟩
    cases hsame with
    | ended r' => exact .ok rfl
    | node hfollows => exact ih _ (Script.length_of_pull hpull) hfollows _ signals' rfl

theorem empty : Follows signal .empty .empty := by
  refine of_next fun signals => .succ (.succ ?_)
  simp only [Reader.next, Reader.advance]
  exact .ok (.ended _)

theorem listed (nodes : List Node) : Follows signal (.listed nodes) (.ofNodes nodes) := by
  refine of_kept (fun r s => ∃ nodes, r = .listed nodes ∧ s = .ofNodes nodes) ?_ ⟨nodes, rfl, rfl⟩
  rintro _ _ ⟨nodes, rfl, rfl⟩ signals
  refine .succ (.succ ?_)
  simp only [Reader.next_eq, Reader.advance]
  cases nodes with
  | nil => exact .ok (.ended _)
  | cons node rest =>
    rw [Script.ofNodes_cons]
    exact agrees_handOut ⟨rest, rfl, rfl⟩ node signals

/-- What is found after a cursor was moved on. -/
def cursorFound (signal : SignalId) (s : Snapshot) (l : Lookup) (watch : Option SignalId) :
    Option Nat × List (Step Nat) × Signals → Except Fault (Option Node × Reader) × Signals
  | (none, steps, signals) =>
    if signals.isRaised signal then (.error .interrupted, signals)
    else (.ok (none, .lookup s l { steps, watch }), signals)
  | (some pre, steps, signals) =>
    match Reader.node s l pre with
    | .error fault => (.error fault, signals)
    | .ok node => Reader.handOut signal node (.lookup s l { steps, watch }) signals

theorem next_lookup (fuel : Nat) (s : Snapshot) (l : Lookup) (steps : List (Step Nat))
    (watch : Option SignalId) (signals : Signals) :
    Reader.next signal (fuel + 2) (.lookup s l { steps, watch }) signals =
      some (cursorFound signal s l watch (Cursor.run watch signals steps)) := by
  simp only [Reader.next_eq, Reader.advance, Cursor.pull, Reading.bind_apply, Reading.get_eq,
    Reading.set_eq, Option.bind_some]
  obtain ⟨_ | pre, rest, signals'⟩ := Cursor.run watch signals steps
  · simp only [cursorFound, Reading.bind_apply, Reading.poll_eq]
    cases signals'.isRaised signal <;> rfl
  · dsimp only [cursorFound]
    cases Reader.node s l pre <;> rfl

/-- The polls of a cursor, if it has any, look at the signal of the query. -/
def Watches (signal : SignalId) (watch : Option SignalId) (steps : List (Step Nat)) : Prop :=
  .poll ∈ steps → watch = some signal

/-- **A cursor over an index or a table** is followed by the script of its steps.  The induction is
on the steps up to the next position. -/
theorem lookup {s : Snapshot} {l : Lookup} {steps : List (Step Nat)} {watch : Option SignalId}
    (fault? : Nat → Option Fault)
    (hnode : ∀ pre, Reader.node s l pre = match fault? pre with
      | some fault => .error fault
      | none => .ok ⟨s.id, pre⟩)
    (hwatch : Watches signal watch steps) :
    Follows signal (.lookup s l { steps, watch }) (.ofSteps s.id fault? steps) := by
  refine of_kept (fun r script => ∃ steps, r = .lookup s l { steps, watch } ∧
    script = .ofSteps s.id fault? steps ∧ Watches signal watch steps) ?_ ⟨steps, rfl, rfl, hwatch⟩
  clear hwatch steps
  rintro _ _ ⟨steps, rfl, rfl, hwatch⟩ signals
  refine .succ (.succ ?_)
  simp only [next_lookup]
  induction steps generalizing signals with
  | nil =>
    rw [Cursor.run, cursorFound, Script.ofSteps, Script.pull, Script.pullFrom]
    split
    · exact .failed
    · exact .ok (.ended _)
  | cons step rest ih =>
    have hrest : Watches signal watch rest := fun hpoll => hwatch (List.mem_cons_of_mem _ hpoll)
    have hafter : ∀ step : Step Node, step.isYield = false → Step.allSilent [step] = true := by
      intro step hstep
      simp [Step.allSilent, hstep]
    cases step with
    | visit raises =>
      rw [Cursor.run, Script.ofSteps, Script.pull_after (hafter _ rfl)]
      exact ih hrest _
    | poll =>
      obtain rfl := hwatch List.mem_cons_self
      rw [Cursor.run, Script.ofSteps, Script.pull_after (hafter _ rfl), Script.play, Cursor.stops,
        Option.any_some]
      split
      · -- the cursor has come to an end too soon, which the reader notices
        rename_i hraised
        rw [cursorFound, if_pos hraised]
        exact .failed
      · exact ih hrest signals
    | release ids =>
      rw [Cursor.run, Script.ofSteps, Script.pull_after (hafter _ rfl)]
      exact ih hrest _
    | yield pre =>
      rw [Cursor.run, Script.ofSteps, cursorFound, hnode]
      cases fault? pre with
      | some fault => exact .failed
      | none => exact agrees_handOut ⟨rest, rfl, rfl, hrest⟩ _ signals

end Follows

end XmlStore
