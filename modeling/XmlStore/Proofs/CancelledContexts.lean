import XmlStore.Host.Call
import XmlStore.Proofs.Cancellation

/-!
# Cancelling hits the queries already started

The context of a query is the signal that it observes.  All contexts that a database hands out
between two cancels are one signal, which the next cancel raises and replaces.

* `Desk` — a host with the contexts that it has handed out; `Desk.run` is what it comes to when
  clients host databases, ask for contexts and cancel, in any order.
* `Desk.Sound` — the signals of the databases are apart from each other and from those of clients,
  and none of them is raised.
* `Desk.Observes`, `Desk.Cancelled` — a context is the signal of its database, or it is raised and
  out of everyone's reach.  Every act keeps the second one, and the first one unless it is the
  cancel of this database, which leads to the second.
* `Desk.interrupted_iff` — hence a context is interrupted if and only if its database was cancelled
  after it was handed out.
-/

namespace XmlStore

/-! ## Acts of clients -/

/-- A host, and what its clients have in hand. -/
structure Desk where
  host : Host := {}
  /-- The contexts that were handed out, in this order. -/
  contexts : List SignalId := []
  /-- Signals that clients have made for themselves. -/
  own : List SignalId := []

namespace Desk

/-- What clients do. -/
inductive Act where
  /-- A database is hosted. -/
  | host (d : Database)
  /-- A context is asked for, to start a query on the database with this number. -/
  | context (number : Nat)
  /-- The queries on the database with this number are cancelled. -/
  | cancel (number : Nat)
  /-- A client makes a signal for itself. -/
  | make
  /-- A client raises one of the signals that were made so, or takes it back. -/
  | set (position : Nat) (raised : Bool)

/-- The database with the given number. -/
def hosted? (desk : Desk) (number : Nat) : Option Hosted := desk.host.databases[number]?

/-- The desk after an act. -/
def after (desk : Desk) : Act → Desk
  | .host d =>
    let (h, signals) := Hosted.start desk.host.signals d
    { desk with
      host := { desk.host with databases := desk.host.databases.push h, signals := signals } }
  | .context number =>
    match desk.hosted? number with
    | none => desk
    | some h => { desk with contexts := desk.contexts ++ [h.signal] }
  | .cancel number =>
    match desk.hosted? number with
    | none => desk
    | some h => { desk with host := (desk.host.ask "" number h .cancel).2 }
  | .make =>
    let (signal, signals) := desk.host.signals.fresh
    { desk with host := { desk.host with signals := signals }, own := desk.own ++ [signal] }
  | .set position raised =>
    match desk.own[position]? with
    | none => desk
    | some signal =>
      let signals :=
        if raised then desk.host.signals.raise signal else desk.host.signals.reset signal
      { desk with host := { desk.host with signals := signals } }

/-- The desk after some acts. -/
def run (desk : Desk) (acts : List Act) : Desk := acts.foldl after desk

theorem run_append (desk : Desk) (acts more : List Act) :
    desk.run (acts ++ more) = (desk.run acts).run more := List.foldl_append

theorem run_cons (desk : Desk) (act : Act) (acts : List Act) :
    desk.run (act :: acts) = (desk.after act).run acts := rfl

/-- Whether a signal is raised. -/
def isRaised (desk : Desk) (signal : SignalId) : Bool := desk.host.signals.isRaised signal

/-- How many signals there are. -/
def signalCount (desk : Desk) : Nat := desk.host.signals.raised.size

/-- The signal that the queries on a database observe. -/
def signal? (desk : Desk) (number : Nat) : Option SignalId :=
  (desk.hosted? number).map Hosted.signal

/-- What an act does to signals. -/
inductive Effect (desk next : Desk) : Act → Prop where
  /-- At most signals of clients are touched. -/
  | idle {act : Act} :
      next.signal? = desk.signal? → next.own = desk.own → next.signalCount = desk.signalCount →
      (∀ id, id ∉ desk.own → next.isRaised id = desk.isRaised id) →
      (∀ number, act = .cancel number → desk.signal? number = none) → Effect desk next act
  /-- A new database gets a new signal. -/
  | hosting {d : Database} {number : Nat} :
      desk.signal? number = none →
      next.signal? = Function.update desk.signal? number (some desk.signalCount) →
      next.own = desk.own → next.signalCount = desk.signalCount + 1 →
      (∀ id, next.isRaised id = desk.isRaised id) → Effect desk next (.host d)
  /-- The signal of a database is raised and replaced. -/
  | cancelling {number : Nat} {signal : SignalId} :
      desk.signal? number = some signal →
      next.signal? = Function.update desk.signal? number (some desk.signalCount) →
      next.own = desk.own → next.signalCount = desk.signalCount + 1 →
      (∀ id, next.isRaised id = (desk.host.signals.raise signal).isRaised id) →
      Effect desk next (.cancel number)
  /-- A client gets a new signal. -/
  | making :
      next.signal? = desk.signal? → next.own = desk.own ++ [desk.signalCount] →
      next.signalCount = desk.signalCount + 1 →
      (∀ id, next.isRaised id = desk.isRaised id) → Effect desk next .make

/-- **What every act does to signals.** -/
theorem effect_after (desk : Desk) (act : Act) : Effect desk (desk.after act) act := by
  cases act with
  | host d =>
    have hfree : desk.signal? desk.host.databases.size = none := by
      simp [signal?, hosted?]
    refine .hosting hfree ?_ rfl desk.host.signals.size_fresh desk.host.signals.isRaised_fresh_eq
    funext number
    simp only [signal?, hosted?, after, Hosted.start, Array.getElem?_push, Function.update_apply]
    split <;> rfl
  | context number =>
    rw [after]
    split
    · exact .idle rfl rfl rfl (fun _ _ => rfl) fun _ h => by cases h
    · exact .idle rfl rfl rfl (fun _ _ => rfl) fun _ h => by cases h
  | cancel number =>
    rw [after]
    split
    · rename_i hnone
      refine .idle rfl rfl rfl (fun _ _ => rfl) fun _ h => ?_
      cases h
      rw [signal?, hnone, Option.map_none]
    · rename_i h hsome
      have hsignal : desk.signal? number = some h.signal := by
        rw [signal?, hsome, Option.map_some]
      refine .cancelling hsignal ?_ rfl ?_ ?_
      · have hlt : number < desk.host.databases.size := (Array.getElem?_eq_some_iff.1 hsome).1
        funext m
        simp only [signal?, hosted?, Host.ask, Host.put, Hosted.cancel,
          Array.getElem?_setIfInBounds, Function.update_apply]
        by_cases hm : m = number
        · subst hm
          simp [hlt, Signals.fresh, Signals.size_raise, signalCount]
        · rw [if_neg (Ne.symm hm), if_neg hm]
      · exact (Signals.size_fresh _).trans (congrArg (· + 1) (Signals.size_raise _ _))
      · exact Signals.isRaised_fresh_eq _
  | make =>
    exact .making rfl rfl desk.host.signals.size_fresh desk.host.signals.isRaised_fresh_eq
  | set position raised =>
    rw [after]
    split
    · exact .idle rfl rfl rfl (fun _ _ => rfl) fun _ h => by cases h
    · rename_i signal hsignal
      refine .idle rfl rfl ?_ (fun id hid => ?_) fun _ h => by cases h
      · cases raised
        · exact Signals.size_reset _ _
        · exact Signals.size_raise _ _
      · have hne : signal ≠ id := fun heq => hid (heq ▸ List.mem_of_getElem? hsignal)
        cases raised
        · exact Signals.isRaised_reset_of_ne _ hne
        · exact Signals.isRaised_raise_of_ne _ hne

/-! ## What is kept -/

/-- The signals of databases are apart from each other and from those of clients, and none of them
is raised. -/
structure Sound (desk : Desk) : Prop where
  bounded : ∀ number id, desk.signal? number = some id → id < desk.signalCount
  ownBounded : ∀ id ∈ desk.own, id < desk.signalCount
  apart : ∀ number other id, desk.signal? number = some id → desk.signal? other = some id →
    number = other
  foreign : ∀ number id, desk.signal? number = some id → id ∉ desk.own
  unraised : ∀ number id, desk.signal? number = some id → desk.isRaised id = false

theorem sound_empty : Sound {} where
  bounded _ _ h := by simp [signal?, hosted?] at h
  ownBounded _ h := by cases h
  apart _ _ _ h := by simp [signal?, hosted?] at h
  foreign _ _ h := by simp [signal?, hosted?] at h
  unraised _ _ h := by simp [signal?, hosted?] at h

variable {desk next : Desk} {number : Nat} {id : SignalId}

/-- A signal that was never made is not raised. -/
theorem isRaised_signalCount (desk : Desk) : desk.isRaised desk.signalCount = false := by
  cases hraised : desk.isRaised desk.signalCount with
  | false => rfl
  | true => exact absurd (Signals.lt_of_isRaised hraised) (Nat.lt_irrefl _)

/-- The signals after one database got a new one. -/
theorem signal?_update {m : Nat}
    (hsignals : next.signal? = Function.update desk.signal? number (some desk.signalCount))
    (h : next.signal? m = some id) :
    (m = number ∧ id = desk.signalCount) ∨ (m ≠ number ∧ desk.signal? m = some id) := by
  rw [hsignals, Function.update_apply] at h
  split at h
  · rename_i heq
    exact Or.inl ⟨heq, (Option.some.inj h).symm⟩
  · rename_i hne
    exact Or.inr ⟨hne, h⟩

/-- A database may get a new signal. -/
theorem Sound.assign (h : Sound desk)
    (hsignals : next.signal? = Function.update desk.signal? number (some desk.signalCount))
    (hown : next.own = desk.own) (hcount : next.signalCount = desk.signalCount + 1)
    (hfresh : next.isRaised desk.signalCount = false)
    (hothers : ∀ m id, m ≠ number → desk.signal? m = some id → next.isRaised id = false) :
    Sound next where
  bounded m id hm := by
    rw [hcount]
    rcases signal?_update hsignals hm with ⟨-, rfl⟩ | ⟨-, hm⟩
    · exact Nat.lt_succ_self _
    · exact Nat.lt_succ_of_lt (h.bounded m id hm)
  ownBounded id hid := by
    rw [hcount]
    rw [hown] at hid
    exact Nat.lt_succ_of_lt (h.ownBounded id hid)
  apart m other id hm hother := by
    rcases signal?_update hsignals hm with ⟨rfl, rfl⟩ | ⟨-, hm⟩ <;>
      rcases signal?_update hsignals hother with ⟨rfl, hid⟩ | ⟨-, hother⟩
    · rfl
    · exact absurd (h.bounded other _ hother) (Nat.lt_irrefl _)
    · exact absurd (h.bounded m id hm) (hid ▸ Nat.lt_irrefl _)
    · exact h.apart m other id hm hother
  foreign m id hm := by
    rw [hown]
    rcases signal?_update hsignals hm with ⟨-, rfl⟩ | ⟨-, hm⟩
    · exact fun hid => Nat.lt_irrefl _ (h.ownBounded _ hid)
    · exact h.foreign m id hm
  unraised m id hm := by
    rcases signal?_update hsignals hm with ⟨-, rfl⟩ | ⟨hne, hm⟩
    · exact hfresh
    · exact hothers m id hne hm

/-- **Every act keeps the signals sound.** -/
theorem Sound.after (h : Sound desk) (act : Act) : Sound (desk.after act) := by
  cases desk.effect_after act with
  | idle hsignals hown hcount hraised =>
    constructor
    case bounded => rw [hsignals, hcount]; exact h.bounded
    case ownBounded => rw [hown, hcount]; exact h.ownBounded
    case apart => rw [hsignals]; exact h.apart
    case foreign => rw [hsignals, hown]; exact h.foreign
    case unraised =>
      rw [hsignals]
      intro number id hnumber
      exact (hraised id (h.foreign number id hnumber)).trans (h.unraised number id hnumber)
  | hosting _ hsignals hown hcount hraised =>
    apply h.assign hsignals hown hcount
    · exact (hraised _).trans desk.isRaised_signalCount
    · exact fun m id _ hm => (hraised id).trans (h.unraised m id hm)
  | @cancelling number signal hsignal hsignals hown hcount hraised =>
    have hbound := h.bounded number signal hsignal
    apply h.assign hsignals hown hcount
    · rw [hraised, Signals.isRaised_raise_of_ne _ (Nat.ne_of_lt hbound)]
      exact desk.isRaised_signalCount
    · intro m id hne hm
      have hapart : signal ≠ id := fun heq => hne (h.apart m number id hm (heq ▸ hsignal))
      rw [hraised, Signals.isRaised_raise_of_ne _ hapart]
      exact h.unraised m id hm
  | making hsignals hown hcount hraised =>
    constructor
    case bounded =>
      rw [hsignals, hcount]
      exact fun number id hnumber => Nat.lt_succ_of_lt (h.bounded number id hnumber)
    case ownBounded =>
      rw [hown, hcount]
      intro id hid
      rcases List.mem_append.1 hid with hid | hid
      · exact Nat.lt_succ_of_lt (h.ownBounded id hid)
      · exact List.mem_singleton.1 hid ▸ Nat.lt_succ_self _
    case apart => rw [hsignals]; exact h.apart
    case foreign =>
      rw [hsignals, hown]
      intro number id hnumber hid
      rcases List.mem_append.1 hid with hid | hid
      · exact h.foreign number id hnumber hid
      · have hlt := h.bounded number id hnumber
        exact Nat.lt_irrefl _ (List.mem_singleton.1 hid ▸ hlt)
    case unraised =>
      rw [hsignals]
      exact fun number id hnumber => (hraised id).trans (h.unraised number id hnumber)

theorem Sound.run (h : Sound desk) (acts : List Act) : Sound (desk.run acts) := by
  induction acts generalizing desk with
  | nil => exact h
  | cons act rest ih => exact ih (h.after act)

/-- A context observes the signal of its database: it will be hit by the next cancel. -/
def Observes (desk : Desk) (number : Nat) (context : SignalId) : Prop :=
  desk.signal? number = some context

/-- A context is cancelled for good: it is raised, and nobody has its signal in hand. -/
structure Cancelled (desk : Desk) (context : SignalId) : Prop where
  raised : desk.isRaised context = true
  apart : ∀ number, desk.signal? number ≠ some context
  foreign : context ∉ desk.own

variable {context : SignalId} {act : Act}

/-- Only the cancel of its database takes a context off its signal. -/
theorem Observes.after (h : Observes desk number context) (hact : act ≠ .cancel number) :
    Observes (desk.after act) number context := by
  unfold Observes at h ⊢
  cases desk.effect_after act with
  | idle hsignals => rw [hsignals, h]
  | @hosting _ m hnone hsignals =>
    have hne : number ≠ m := fun heq => by simp [← heq, h] at hnone
    rw [hsignals, Function.update_of_ne hne, h]
  | @cancelling m _ _ hsignals =>
    have hne : number ≠ m := fun heq => hact (heq ▸ rfl)
    rw [hsignals, Function.update_of_ne hne, h]
  | making hsignals => rw [hsignals, h]

/-- **A cancel hits the contexts that observe the signal of the database.** -/
theorem Observes.cancel (hsound : Sound desk) (h : Observes desk number context) :
    Cancelled (desk.after (.cancel number)) context := by
  cases desk.effect_after (.cancel number) with
  | idle _ _ _ _ hnone => simp [hnone number rfl, Observes] at h
  | @cancelling _ signal hsignal hsignals hown _ hraised =>
    obtain rfl : signal = context := Option.some.inj (hsignal.symm.trans h)
    have hbound := hsound.bounded number signal h
    constructor
    case raised =>
      rw [hraised, Signals.isRaised_raise]
      simp [Signals.hears, show signal < desk.host.signals.raised.size from hbound]
    case apart =>
      intro m hm
      rcases signal?_update hsignals hm with ⟨-, heq⟩ | ⟨hne, hm⟩
      · exact Nat.lt_irrefl _ (heq ▸ hbound)
      · exact hne (hsound.apart m number signal hm h)
    case foreign => exact hown ▸ hsound.foreign number signal h

/-- **Cancelled contexts stay cancelled.** -/
theorem Cancelled.after (h : Cancelled desk context) (act : Act) :
    Cancelled (desk.after act) context := by
  have hbound : context ≠ desk.signalCount := Nat.ne_of_lt (Signals.lt_of_isRaised h.raised)
  have hassign : ∀ {next : Desk} {number : Nat},
      next.signal? = Function.update desk.signal? number (some desk.signalCount) →
      ∀ m, next.signal? m ≠ some context := by
    intro next number hsignals m hm
    rcases signal?_update hsignals hm with ⟨-, heq⟩ | ⟨-, hm⟩
    · exact hbound heq
    · exact h.apart m hm
  cases desk.effect_after act with
  | idle hsignals hown _ hraised =>
    exact ⟨(hraised context h.foreign).trans h.raised, hsignals ▸ h.apart, hown ▸ h.foreign⟩
  | hosting _ hsignals hown _ hraised =>
    exact ⟨(hraised context).trans h.raised, hassign hsignals, hown ▸ h.foreign⟩
  | cancelling _ hsignals hown _ hraised =>
    refine ⟨?_, hassign hsignals, hown ▸ h.foreign⟩
    have hkept : desk.host.signals.isRaised context = true := h.raised
    rw [hraised, Signals.isRaised_raise, hkept, Bool.true_or]
  | making hsignals hown _ hraised =>
    refine ⟨(hraised context).trans h.raised, hsignals ▸ h.apart, ?_⟩
    rw [hown, List.mem_append, List.mem_singleton]
    exact fun hid => hid.elim h.foreign hbound

theorem Cancelled.run (h : Cancelled desk context) (acts : List Act) :
    Cancelled (desk.run acts) context := by
  induction acts generalizing desk with
  | nil => exact h
  | cons act rest ih => exact ih (h.after act)

/-- **A context is cancelled by the first cancel of its database**, and by nothing else.  The
induction is on the acts. -/
theorem Observes.run (hsound : Sound desk) (h : Observes desk number context) (acts : List Act) :
    (.cancel number ∈ acts → Cancelled (desk.run acts) context) ∧
      (.cancel number ∉ acts → Observes (desk.run acts) number context) := by
  induction acts generalizing desk with
  | nil => exact ⟨fun hmem => (by cases hmem), fun _ => h⟩
  | cons act rest ih =>
    rw [run_cons]
    by_cases hact : act = .cancel number
    · subst hact
      refine ⟨fun _ => (h.cancel hsound).run rest, fun hnot => ?_⟩
      exact absurd List.mem_cons_self hnot
    · obtain ⟨hcancelled, hobserves⟩ := ih (hsound.after act) (h.after hact)
      refine ⟨fun hmem => ?_, fun hnot => hobserves fun hmem => hnot (List.mem_cons_of_mem _ hmem)⟩
      rcases List.mem_cons.1 hmem with heq | hmem
      · exact absurd heq.symm hact
      · exact hcancelled hmem

/-! ## Contexts that were handed out -/

theorem contexts_after (desk : Desk) (act : Act) : desk.contexts <+: (desk.after act).contexts := by
  cases act with
  | host => exact List.prefix_rfl
  | context number =>
    rw [after]
    split
    · exact List.prefix_rfl
    · exact List.prefix_append _ _
  | cancel number =>
    rw [after]
    split <;> exact List.prefix_rfl
  | make => exact List.prefix_rfl
  | set position raised =>
    rw [after]
    split <;> exact List.prefix_rfl

/-- No context is taken back. -/
theorem contexts_run (desk : Desk) (acts : List Act) :
    desk.contexts <+: (desk.run acts).contexts := by
  induction acts generalizing desk with
  | nil => exact List.prefix_rfl
  | cons act rest ih => exact (desk.contexts_after act).trans (ih _)

/-- **A cancel hits exactly the queries already started.**  A context that a database hands out is
interrupted if and only if the database was cancelled afterwards, however often other contexts were
handed out and other databases cancelled before and since, and whatever clients did to signals of
their own. -/
theorem interrupted_iff {before : List Act} {number : Nat} {h : Hosted}
    (hosted : (run {} before).hosted? number = some h) :
    ∃ context, ∀ later : List Act,
      let desk := run {} (before ++ .context number :: later)
      let signals := desk.host.signals
      desk.contexts[(run {} before).contexts.length]? = some context ∧
        (Reading.poll context signals = some (.error .interrupted, signals) ↔
          .cancel number ∈ later) ∧
        (Reading.poll context signals = some (.ok (), signals) ↔ .cancel number ∉ later) := by
  refine ⟨h.signal, fun later => ?_⟩
  intro desk signals
  set start := run {} before with hstart
  have hdesk : desk = (start.after (.context number)).run later := run_append _ _ _
  have hcontexts : (start.after (.context number)).contexts = start.contexts ++ [h.signal] := by
    simp only [after, hosted]
  have hobserves : Observes (start.after (.context number)) number h.signal := by
    apply Observes.after _ (by simp)
    rw [Observes, signal?, hosted, Option.map_some]
  have hsound : Sound (start.after (.context number)) := (sound_empty.run before).after _
  obtain ⟨hcancelled, hobserved⟩ := hobserves.run hsound later
  rw [← hdesk] at hcancelled hobserved
  have hraised : signals.isRaised h.signal = true ↔ .cancel number ∈ later := by
    constructor
    · intro hraised
      by_contra hnot
      have hfree := (sound_empty.run (before ++ .context number :: later)).unraised number h.signal
        (hobserved hnot)
      rw [show signals.isRaised h.signal = false from hfree] at hraised
      cases hraised
    · exact fun hmem => (hcancelled hmem).raised
  refine ⟨?_, ?_, ?_⟩
  · have hprefix := hdesk ▸ contexts_run (start.after (.context number)) later
    rw [hcontexts] at hprefix
    obtain ⟨more, hmore⟩ := hprefix
    rw [← hmore]
    simp
  · rw [← hraised, Reading.poll_eq]
    cases signals.isRaised h.signal <;> simp
  · rw [← hraised, Reading.poll_eq]
    cases signals.isRaised h.signal <;> simp

/-- A context of one of two databases, before and after its database is cancelled. -/
theorem interrupted_iff_running :
    let d : Database := ⟨"books", {}, .ofTable 0 "books" .empty {}, false⟩
    let before : List Act := [.host d, .host d, .context 0, .cancel 0]
    let running := run {} (before ++ [.context 0, .cancel 1])
    let later := run {} (before ++ [.context 0, .cancel 1, .cancel 0, .context 0])
    ∃ h context, (run {} before).hosted? 0 = some h ∧
      running.contexts[1]? = some context ∧
      Reading.poll context running.host.signals = some (.ok (), running.host.signals) ∧
      later.contexts[1]? = some context ∧
      Reading.poll context later.host.signals =
        some (.error .interrupted, later.host.signals) := by
  intro d before running later
  have hosted : (run {} before).hosted? 0 = some ⟨d, 2⟩ := rfl
  obtain ⟨context, hcontext⟩ := interrupted_iff hosted
  obtain ⟨hrunning, -, hgoes⟩ := hcontext [.cancel 1]
  obtain ⟨hlater, hstops, -⟩ := hcontext [.cancel 1, .cancel 0, .context 0]
  have hnot : Act.cancel 0 ∉ [.cancel 1] := by simp
  have hmem : Act.cancel 0 ∈ [.cancel 1, .cancel 0, .context 0] := by simp
  simp only [running, later]
  exact ⟨_, context, hosted, hrunning, hgoes.2 hnot, hlater, hstops.2 hmem⟩

end Desk

end XmlStore
