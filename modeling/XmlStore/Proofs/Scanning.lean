import Mathlib.Data.List.Infix
import XmlStore.Proofs.Polling
import XmlStore.Proofs.Reading

/-!
# Scans that are asked to stop

A scan polls its signal before every `pollInterval`-th row only, and a request for the next position
goes on until a row is found, wherever that is.

* `Cursor.marks` — the rows that a request visits, and what its polls see; `Cursor.marks_run` says
  that it goes through its steps so.
* `ScanPoint` — how far a scan has come; `ScanPoint.leads` says what one request does there.
* `Scan` — a scan with its signal, which others raise and take back between the requests.
* `Scan.At.gives`, `Scan.At.visits_le` — what the answers are, and how many rows are still visited
  once the signal is raised, by induction over the acts.
* `Snapshot.scan_interruptible` — both for every scan and all acts.
-/

namespace XmlStore

/-! ## What a request does -/

namespace Cursor

/-- What happens while a cursor looks for its next position. -/
inductive Mark where
  /-- An entry or a row is visited. -/
  | visit
  /-- The signal is looked at. -/
  | poll (raised : Bool)
  deriving DecidableEq, Repr

/-- What happens while a cursor is run up to its next position. -/
def marks (watch : Option SignalId) (signals : Signals) : List (Step Nat) → List Mark
  | [] => []
  | .visit raises :: rest => .visit :: marks watch (signals.raiseAll raises) rest
  | .poll :: rest =>
    .poll (stops watch signals) :: if stops watch signals then [] else marks watch signals rest
  | .release _ :: rest => marks watch signals rest
  | .yield _ :: _ => []

/-- What happens at a step that does not end the cursor. -/
def Mark.of? : Step Nat → Option Mark
  | .visit _ => some .visit
  | .poll => some (.poll false)
  | _ => none

/-- How a run and its marks go through the steps of a cursor. -/
inductive Uses (steps : List (Step Nat)) (marks : List Mark) :
    Option Nat → List (Step Nat) → Prop where
  /-- The steps that were run through are those before the steps that are left. -/
  | upTo (used : List (Step Nat)) {left : List (Step Nat)} {answer : Option Nat}
      (hsteps : steps = used ++ left) (hmarks : marks = used.filterMap Mark.of?) :
      Uses steps marks answer left
  /-- The run was cut short at a poll, and what came behind it is dropped. -/
  | cut (used dropped : List (Step Nat)) (hsteps : steps = used ++ .poll :: dropped)
      (hmarks : marks = used.filterMap Mark.of? ++ [.poll true]) : Uses steps marks none []

theorem Uses.cons {step : Step Nat} {steps left : List (Step Nat)} {marks : List Mark}
    {answer : Option Nat} (h : Uses steps marks answer left) :
    Uses (step :: steps) ((Mark.of? step).toList ++ marks) answer left := by
  have hfilter : ∀ used : List (Step Nat),
      (Mark.of? step).toList ++ used.filterMap Mark.of? = (step :: used).filterMap Mark.of? := by
    intro used
    cases hmark : Mark.of? step <;> simp [hmark]
  cases h with
  | upTo used hsteps hmarks =>
    refine .upTo (step :: used) (by rw [hsteps]; rfl) ?_
    rw [hmarks, hfilter]
  | cut used dropped hsteps hmarks =>
    refine .cut (step :: used) dropped (by rw [hsteps]; rfl) ?_
    rw [hmarks, ← List.append_assoc, hfilter]

/-- **A run goes through its steps as its marks say.** -/
theorem marks_run (watch : Option SignalId) (signals : Signals) (steps : List (Step Nat)) :
    Uses steps (marks watch signals steps) (run watch signals steps).1
      (run watch signals steps).2.1 := by
  fun_induction run watch signals steps with
  | case1 signals => exact .upTo [] rfl rfl
  | case2 signals raises rest ih => exact ih.cons
  | case3 signals rest hstops =>
    rw [marks, hstops]
    exact .cut [] rest rfl rfl
  | case4 signals rest hstops ih =>
    rw [marks, Bool.eq_false_iff.2 hstops]
    exact ih.cons
  | case5 signals freed rest ih => exact ih.cons
  | case6 signals pre rest => exact .upTo [.yield pre] rfl rfl

end Cursor

open Cursor (Mark)

/-- How far a scan has come: the row that is next, and all rows from there on. -/
structure ScanPoint where
  pre : Nat
  rows : List Row

namespace ScanPoint

/-- The steps that are still to come. -/
def steps (lookup : Lookup) (p : ScanPoint) : List (Step Nat) :=
  (p.rows.zipIdx p.pre).flatMap fun (row, pre) => Snapshot.scanRow lookup pre row

/-- The positions of the rows that are still to be found. -/
def found (lookup : Lookup) (p : ScanPoint) : List Nat :=
  ((p.rows.zipIdx p.pre).filter fun (row, _) => Snapshot.selects lookup row).map (·.2)

/-- How many rows are visited before the next poll. -/
def untilPoll (p : ScanPoint) : Nat := (pollInterval - p.pre % pollInterval) % pollInterval

theorem untilPoll_lt (p : ScanPoint) : p.untilPoll < pollInterval :=
  Nat.mod_lt _ (by decide)

theorem untilPoll_succ {pre : Nat} (h : pre % pollInterval ≠ 0) (rows rest : List Row) :
    untilPoll ⟨pre, rows⟩ = untilPoll ⟨pre + 1, rest⟩ + 1 := by
  simp only [untilPoll, pollInterval] at *
  omega

theorem found_cons (lookup : Lookup) (pre : Nat) (row : Row) (rest : List Row) :
    found lookup ⟨pre, row :: rest⟩ =
      (if Snapshot.selects lookup row then [pre] else []) ++ found lookup ⟨pre + 1, rest⟩ := by
  simp only [found, List.zipIdx_cons, List.filter_cons]
  split <;> rfl

theorem steps_cons (lookup : Lookup) (pre : Nat) (row : Row) (rest : List Row) :
    steps lookup ⟨pre, row :: rest⟩ =
      Snapshot.scanRow lookup pre row ++ steps lookup ⟨pre + 1, rest⟩ := by
  simp only [steps, List.zipIdx_cons, List.flatMap_cons]

/-! ## One row -/

section

variable (watch : Option SignalId) (signals : Signals) (lookup : Lookup) (pre : Nat) (row : Row)
  (rest : List Row)

/-- Whether the poll before a row cuts the scan short. -/
def isCut : Bool := decide (pre % pollInterval = 0) && Cursor.stops watch signals

/-- What is seen before a row. -/
def polled : List Mark :=
  if pre % pollInterval = 0 then [.poll (Cursor.stops watch signals)] else []

theorem count_polled : (polled watch signals pre).count .visit = 0 := by
  unfold polled
  split <;> rfl

theorem run_cons :
    Cursor.run watch signals (steps lookup ⟨pre, row :: rest⟩) =
      if isCut watch signals pre then (none, [], signals)
      else if Snapshot.selects lookup row then (some pre, steps lookup ⟨pre + 1, rest⟩, signals)
      else Cursor.run watch signals (steps lookup ⟨pre + 1, rest⟩) := by
  rw [steps_cons, Snapshot.scanRow, isCut]
  by_cases hdue : pre % pollInterval = 0 <;> cases hstops : Cursor.stops watch signals <;>
    cases hselects : Snapshot.selects lookup row <;>
    simp [hdue, hstops, Cursor.run, Signals.raiseAll]

theorem marks_cons :
    Cursor.marks watch signals (steps lookup ⟨pre, row :: rest⟩) =
      polled watch signals pre ++
        if isCut watch signals pre then []
        else .visit :: if Snapshot.selects lookup row then []
          else Cursor.marks watch signals (steps lookup ⟨pre + 1, rest⟩) := by
  rw [steps_cons, Snapshot.scanRow, isCut, polled]
  by_cases hdue : pre % pollInterval = 0 <;> cases hstops : Cursor.stops watch signals <;>
    cases hselects : Snapshot.selects lookup row <;>
    simp [hdue, hstops, Cursor.marks, Signals.raiseAll]

end

/-! ## One request -/

/-- A request that begins at one point ends at another one. -/
structure Leads (lookup : Lookup) (raised : Bool) (p : ScanPoint) (marks : List Mark)
    (answer : Option Nat) (q : ScanPoint) : Prop where
  /-- Nothing is left after the end. -/
  ended : answer = none → q.rows = []
  /-- Nothing is found that the lookup does not ask for, and nothing is passed over before a row
  that is found. -/
  kept : answer.toList ++ q.found lookup <+: p.found lookup
  /-- Nothing at all is passed over unless a poll sees the signal raised. -/
  whole : .poll true ∉ marks → answer.toList ++ q.found lookup = p.found lookup
  /-- A row that is found is visited. -/
  visited : answer.toList.length ≤ marks.count .visit
  /-- Rows are visited up to the next poll only. -/
  bounded : raised = true → marks.count .visit + q.untilPoll ≤ p.untilPoll

variable {lookup : Lookup} {raised : Bool}

/-- A row that is not found is passed over. -/
theorem Leads.skip {pre : Nat} {row : Row} {rest : List Row} {marks before : List Mark}
    {answer : Option Nat} {q : ScanPoint}
    (h : Leads lookup raised ⟨pre + 1, rest⟩ marks answer q)
    (hrow : Snapshot.selects lookup row = false) (hbefore : before.count .visit = 0)
    (hpoll : raised = true → pre % pollInterval ≠ 0) :
    Leads lookup raised ⟨pre, row :: rest⟩ (before ++ .visit :: marks) answer q := by
  have hfound : found lookup ⟨pre, row :: rest⟩ = found lookup ⟨pre + 1, rest⟩ := by
    rw [found_cons, hrow]
    rfl
  have hvisits : (before ++ Mark.visit :: marks).count .visit = marks.count .visit + 1 := by
    rw [List.count_append, hbefore, List.count_cons_self, Nat.zero_add]
  constructor
  case ended => exact h.ended
  case kept => exact hfound ▸ h.kept
  case whole =>
    intro hunseen
    rw [hfound]
    refine h.whole fun hmem => hunseen ?_
    exact List.mem_append_right _ (List.mem_cons_of_mem _ hmem)
  case visited => exact hvisits ▸ Nat.le_succ_of_le h.visited
  case bounded =>
    intro hraised
    have hrest := h.bounded hraised
    rw [hvisits, untilPoll_succ (hpoll hraised) _ rest]
    omega

/-- A row that is found ends the request. -/
theorem Leads.hit {pre : Nat} {row : Row} (rest : List Row) {before : List Mark}
    (hrow : Snapshot.selects lookup row = true) (hbefore : before.count .visit = 0)
    (hpoll : raised = true → pre % pollInterval ≠ 0) :
    Leads lookup raised ⟨pre, row :: rest⟩ (before ++ [.visit]) (some pre) ⟨pre + 1, rest⟩ := by
  have hfound : found lookup ⟨pre, row :: rest⟩ = [pre] ++ found lookup ⟨pre + 1, rest⟩ := by
    rw [found_cons, hrow]
    rfl
  have hvisits : (before ++ [Mark.visit]).count .visit = 1 := by
    rw [List.count_append, hbefore]
    rfl
  constructor
  case ended => exact fun h => by cases h
  case kept => exact hfound ▸ List.prefix_rfl
  case whole => exact fun _ => hfound.symm
  case visited => exact hvisits ▸ Nat.le_refl 1
  case bounded =>
    intro hraised
    rw [hvisits, untilPoll_succ (hpoll hraised) _ rest]
    omega

/-- A scan that is cut short has come to its end. -/
theorem Leads.cut (p : ScanPoint) (marks : List Mark) (h : .poll true ∈ marks)
    (hvisits : marks.count .visit = 0) : Leads lookup raised p marks none ⟨p.pre, []⟩ := by
  constructor
  case ended => exact fun _ => rfl
  case kept => exact List.nil_prefix
  case whole => exact fun hunseen => absurd h hunseen
  case visited => exact Nat.zero_le _
  case bounded => exact fun _ => by rw [hvisits, Nat.zero_add]; exact Nat.le_refl _

/-- **What one request does.**  The induction is on the rows that are left. -/
theorem leads (watch : Option SignalId) (signals : Signals) (lookup : Lookup) (p : ScanPoint) :
    ∃ answer q, Cursor.run watch signals (p.steps lookup) = (answer, q.steps lookup, signals) ∧
      Leads lookup (Cursor.stops watch signals) p
        (Cursor.marks watch signals (p.steps lookup)) answer q := by
  obtain ⟨pre, rows⟩ := p
  induction rows generalizing pre with
  | nil => exact ⟨none, ⟨pre, []⟩, rfl, fun _ => rfl, List.prefix_rfl, fun _ => rfl, Nat.le_refl 0,
      fun _ => Nat.le_of_eq (Nat.zero_add _)⟩
  | cons row rest ih =>
    have hcount := count_polled watch signals pre
    rw [run_cons, marks_cons]
    cases hcut : isCut watch signals pre with
    | true =>
      simp only [isCut, Bool.and_eq_true, decide_eq_true_eq] at hcut
      refine ⟨none, ⟨pre, []⟩, rfl, .cut _ _ ?_ ?_⟩
      · simp [polled, hcut.1, hcut.2]
      · simpa using hcount
    | false =>
      have hdue : Cursor.stops watch signals = true → pre % pollInterval ≠ 0 := by
        intro hstops
        simpa [isCut, hstops] using hcut
      cases hselects : Snapshot.selects lookup row with
      | true => exact ⟨some pre, ⟨pre + 1, rest⟩, rfl, .hit rest hselects hcount hdue⟩
      | false =>
        obtain ⟨answer, q, hrun, hleads⟩ := ih (pre + 1)
        exact ⟨answer, q, hrun, hleads.skip hselects hcount hdue⟩

end ScanPoint

/-! ## Requests while others raise and reset signals -/

/-- A scan in use, and the state of all signals. -/
structure Scan where
  cursor : Cursor
  signals : Signals

namespace Scan

/-- What happens to a scan. -/
inductive Act where
  /-- The next position is asked for. -/
  | more
  /-- Somebody raises a signal. -/
  | raise (id : SignalId)
  /-- Somebody takes a signal back. -/
  | reset (id : SignalId)
  deriving DecidableEq, Repr

/-- The scan after an act. -/
def after (s : Scan) : Act → Scan
  | .more =>
    let (_, cursor, signals) := s.cursor.pull s.signals
    ⟨cursor, signals⟩
  | .raise id => { s with signals := s.signals.raise id }
  | .reset id => { s with signals := s.signals.reset id }

/-- The scan after some acts. -/
def run (s : Scan) (acts : List Act) : Scan := acts.foldl after s

/-- The answer to an act, if it is a request. -/
def told (s : Scan) : Act → List (Option Nat)
  | .more => [(s.cursor.pull s.signals).1]
  | _ => []

/-- What happens while an act is performed. -/
def noticed (s : Scan) : Act → List Mark
  | .more => Cursor.marks s.cursor.watch s.signals s.cursor.steps
  | _ => []

/-- The answers to all requests. -/
def answers (s : Scan) : List Act → List (Option Nat)
  | [] => []
  | act :: acts => s.told act ++ (s.after act).answers acts

/-- What happens in the course of some acts. -/
def marks (s : Scan) : List Act → List Mark
  | [] => []
  | act :: acts => s.noticed act ++ (s.after act).marks acts

/-- Rows that are visited in the course of some acts. -/
def visits (s : Scan) (acts : List Act) : Nat := (s.marks acts).count .visit

/-- Positions that are found in the course of some acts. -/
def finds (s : Scan) (acts : List Act) : Nat := (s.answers acts).countP Option.isSome

/-- A scan that has come to some point. -/
structure At (signal : SignalId) (lookup : Lookup) (p : ScanPoint) (s : Scan) : Prop where
  steps : s.cursor.steps = p.steps lookup
  watch : s.cursor.watch = some signal

variable {signal : SignalId} {lookup : Lookup} {p : ScanPoint} {s : Scan}

/-- A request moves a scan on. -/
theorem At.more (h : s.At signal lookup p) :
    ∃ answer q, s.told .more = [answer] ∧ (s.after .more).At signal lookup q ∧
      (s.after .more).signals = s.signals ∧
      ScanPoint.Leads lookup (s.signals.isRaised signal) p (s.noticed .more) answer q := by
  obtain ⟨⟨steps, watch⟩, signals⟩ := s
  obtain ⟨rfl, rfl⟩ := h
  obtain ⟨answer, q, hrun, hleads⟩ := p.leads (some signal) signals lookup
  have hpull : Cursor.pull ⟨p.steps lookup, some signal⟩ signals =
      (answer, ⟨q.steps lookup, some signal⟩, signals) := by
    rw [Cursor.pull, hrun]
  refine ⟨answer, q, ?_, ?_, ?_, hleads⟩
  · rw [told, hpull]
  · rw [after, hpull]
    exact ⟨rfl, rfl⟩
  · rw [after, hpull]

/-- Whatever happens, a scan is at some point. -/
theorem At.after (h : s.At signal lookup p) (act : Act) :
    ∃ q, (s.after act).At signal lookup q := by
  cases act with
  | more =>
    obtain ⟨_, q, _, hq, _⟩ := h.more
    exact ⟨q, hq⟩
  | raise id => exact ⟨p, h.steps, h.watch⟩
  | reset id => exact ⟨p, h.steps, h.watch⟩

theorem At.run (h : s.At signal lookup p) (acts : List Act) :
    ∃ q, (s.run acts).At signal lookup q := by
  induction acts generalizing s p with
  | nil => exact ⟨p, h⟩
  | cons act acts ih =>
    obtain ⟨q, hq⟩ := h.after act
    exact ih hq

/-- No act makes signals. -/
theorem At.size_after (h : s.At signal lookup p) (act : Act) :
    (s.after act).signals.raised.size = s.signals.raised.size := by
  cases act with
  | more =>
    obtain ⟨_, _, _, _, hsignals, _⟩ := h.more
    rw [hsignals]
  | raise id => exact s.signals.size_raise id
  | reset id => exact s.signals.size_reset id

theorem At.size_run (h : s.At signal lookup p) (acts : List Act) :
    (s.run acts).signals.raised.size = s.signals.raised.size := by
  induction acts generalizing s p with
  | nil => rfl
  | cons act acts ih =>
    obtain ⟨q, hq⟩ := h.after act
    exact (ih hq).trans (h.size_after act)

/-! ## The answers -/

/-- What a scan answers to the requests among some acts: some of the positions that are wanted, one
after the other, and then no more, whoever takes the signal back. -/
structure Gives (s : Scan) (acts : List Act) (wanted taken : List Nat) (ended : Nat) : Prop where
  answers : s.answers acts = taken.map some ++ List.replicate ended none
  requests : taken.length + ended = acts.count .more
  kept : taken <+: wanted
  /-- None is left out unless a poll has seen the signal raised. -/
  whole : .poll true ∉ s.marks acts → ended ≠ 0 → taken = wanted

theorem Gives.finds {acts : List Act} {wanted taken : List Nat} {ended : Nat}
    (h : s.Gives acts wanted taken ended) : s.finds acts = taken.length := by
  rw [Scan.finds, h.answers]
  simp [List.countP_append, List.countP_map, List.countP_replicate, Function.comp_def]

/-- A scan that has nothing left answers so. -/
theorem Gives.eq_nil {acts : List Act} {taken : List Nat} {ended : Nat}
    (h : s.Gives acts [] taken ended) : taken = [] :=
  List.prefix_nil.1 h.kept

/-- **The answers of a scan.**  The induction is on the acts. -/
theorem At.gives (h : s.At signal lookup p) (acts : List Act) :
    ∃ taken ended, s.Gives acts (p.found lookup) taken ended := by
  induction acts generalizing s p with
  | nil => exact ⟨[], 0, rfl, rfl, List.nil_prefix, fun _ hended => absurd rfl hended⟩
  | cons act acts ih =>
    cases act with
    | more =>
      obtain ⟨answer, q, htold, hq, _, hleads⟩ := h.more
      obtain ⟨taken, ended, hrest⟩ := ih hq
      have hseen : .poll true ∉ s.marks (.more :: acts) →
          .poll true ∉ s.noticed .more ∧ .poll true ∉ (s.after .more).marks acts := by
        intro hunseen
        exact ⟨fun hmem => hunseen (List.mem_append_left _ hmem),
          fun hmem => hunseen (List.mem_append_right _ hmem)⟩
      have hanswers : s.answers (.more :: acts) =
          answer :: (taken.map some ++ List.replicate ended none) := by
        rw [answers, htold, hrest.answers]
        rfl
      have hkept := hleads.kept
      have hwhole := hleads.whole
      cases answer with
      | none =>
        have hnone : q.found lookup = [] := by rw [ScanPoint.found, hleads.ended rfl]; rfl
        rw [hnone] at hrest hwhole
        obtain rfl := hrest.eq_nil
        refine ⟨[], ended + 1, hanswers, ?_, List.nil_prefix, fun hunseen _ => ?_⟩
        · rw [List.count_cons_self, ← hrest.requests]
          rfl
        · exact hwhole (hseen hunseen).1
      | some pre =>
        refine ⟨pre :: taken, ended, hanswers, ?_, ?_, fun hunseen hended => ?_⟩
        · rw [List.count_cons_self, ← hrest.requests, List.length_cons]
          omega
        · exact ((List.prefix_cons_inj pre).2 hrest.kept).trans hkept
        · rw [hrest.whole (hseen hunseen).2 hended]
          exact hwhole (hseen hunseen).1
    | raise id =>
      obtain ⟨taken, ended, hrest⟩ := ih (s := s.after (.raise id)) (p := p) ⟨h.steps, h.watch⟩
      exact ⟨taken, ended, hrest.answers, by simpa using hrest.requests, hrest.kept, hrest.whole⟩
    | reset id =>
      obtain ⟨taken, ended, hrest⟩ := ih (s := s.after (.reset id)) (p := p) ⟨h.steps, h.watch⟩
      exact ⟨taken, ended, hrest.answers, by simpa using hrest.requests, hrest.kept, hrest.whole⟩

/-- Only rows that are visited are found. -/
theorem At.finds_le (h : s.At signal lookup p) (acts : List Act) :
    s.finds acts ≤ s.visits acts := by
  induction acts generalizing s p with
  | nil => exact Nat.le_refl 0
  | cons act acts ih =>
    rw [finds, visits, answers, marks, List.countP_append, List.count_append]
    cases act with
    | more =>
      obtain ⟨answer, q, htold, hq, _, hleads⟩ := h.more
      have hone : (s.told .more).countP Option.isSome = answer.toList.length := by
        rw [htold]
        cases answer <;> rfl
      exact Nat.add_le_add (hone ▸ hleads.visited) (ih hq)
    | raise id =>
      have hrest := ih (s := s.after (.raise id)) (p := p) ⟨h.steps, h.watch⟩
      simpa [finds, visits, told, noticed] using hrest
    | reset id =>
      have hrest := ih (s := s.after (.reset id)) (p := p) ⟨h.steps, h.watch⟩
      simpa [finds, visits, told, noticed] using hrest

/-- **The rows that are still visited** once the signal is raised, while nobody takes it back.  The
induction is on the acts. -/
theorem At.visits_le (h : s.At signal lookup p) (hraised : s.signals.isRaised signal = true)
    {acts : List Act} (hkept : .reset signal ∉ acts) : s.visits acts ≤ p.untilPoll := by
  induction acts generalizing s p with
  | nil => exact Nat.zero_le _
  | cons act acts ih =>
    rw [List.mem_cons, not_or] at hkept
    rw [visits, marks, List.count_append]
    cases act with
    | more =>
      obtain ⟨answer, q, _, hq, hsignals, hleads⟩ := h.more
      have hfirst := hleads.bounded hraised
      have hrest := ih hq (hsignals ▸ hraised) hkept.2
      rw [visits] at hrest
      omega
    | raise id =>
      have hstill : (s.signals.raise id).isRaised signal = true := by
        rw [Signals.isRaised_raise, hraised, Bool.true_or]
      have hrest := ih (s := s.after (.raise id)) (p := p) ⟨h.steps, h.watch⟩ hstill hkept.2
      simpa [visits, noticed] using hrest
    | reset id =>
      have hother : id ≠ signal := fun heq => hkept.1 (heq ▸ rfl)
      have hstill : (s.signals.reset id).isRaised signal = true := by
        rw [Signals.isRaised_reset_of_ne _ hother, hraised]
      have hrest := ih (s := s.after (.reset id)) (p := p) ⟨h.steps, h.watch⟩ hstill hkept.2
      simpa [visits, noticed] using hrest

end Scan

/-- A scan for a lookup that has not begun. -/
def Snapshot.scan (s : Snapshot) (lookup : Lookup) (signal : SignalId) (signals : Signals) : Scan :=
  ⟨{ steps := s.scanSteps lookup, watch := some signal }, signals⟩

open Scan (Act)

/-- **A scan can be interrupted.**  Whatever happens to its signal between the requests, it finds
the rows that the lookup asks for in ascending order, comes to its end once and for all, and leaves
none out unless a poll has seen the signal raised.  After the signal was raised, as long as it is
not taken back, it visits and finds fewer than `pollInterval` rows, and so comes to its end after at
most as many requests. -/
theorem Snapshot.scan_interruptible (s : Snapshot) (lookup : Lookup) (signal : SignalId)
    (signals : Signals) :
    (∀ acts, ∃ taken ended,
      (s.scan lookup signal signals).Gives acts (s.found lookup) taken ended) ∧
    ∀ before later, signal < signals.raised.size → Act.reset signal ∉ later →
      let raised := ((s.scan lookup signal signals).run before).after (.raise signal)
      raised.visits later < pollInterval ∧ raised.finds later < pollInterval ∧
        (pollInterval ≤ later.count .more → none ∈ raised.answers later) := by
  have hstart : (s.scan lookup signal signals).At signal lookup ⟨0, s.table.rows.toList⟩ :=
    ⟨rfl, rfl⟩
  refine ⟨hstart.gives, fun before later hmade hkept => ?_⟩
  obtain ⟨p, hp⟩ := hstart.run before
  have hraised : (((s.scan lookup signal signals).run before).signals.raise signal).isRaised
      signal = true := by
    have hsize := hstart.size_run before
    have hheard : decide (signal < ((s.scan lookup signal signals).run before).signals.raised.size)
        = true := decide_eq_true (hsize ▸ hmade)
    simp [Signals.isRaised_raise, Signals.hears, hheard]
  have hpoint : (((s.scan lookup signal signals).run before).after (.raise signal)).At signal lookup
      p := ⟨hp.steps, hp.watch⟩
  have hvisits := Nat.lt_of_le_of_lt (hpoint.visits_le hraised hkept) p.untilPoll_lt
  have hfinds := Nat.lt_of_le_of_lt (hpoint.finds_le later) hvisits
  refine ⟨hvisits, hfinds, fun hmany => ?_⟩
  obtain ⟨taken, ended, hgives⟩ := hpoint.gives later
  have htaken := hgives.finds
  have hended : ended ≠ 0 := by
    have := hgives.requests
    omega
  rw [hgives.answers]
  exact List.mem_append_right _ (List.mem_replicate.2 ⟨hended, rfl⟩)

/-- A scan of many rows that are all wanted is asked to stop after the first one. -/
theorem Snapshot.scan_interruptible_once_found :
    let rows := Array.replicate (3 * pollInterval) ⟨.text, 1, 1, 0, 0, [0x61]⟩
    let scan := (ofTable 0 "db" ⟨rows, {}⟩ {}).scan (.exact .text [0x61]) 0
      Signals.empty.fresh.2
    let later := .raise 1 :: List.replicate pollInterval Act.more
    let raised := (scan.run [.more]).after (.raise 0)
    Act.reset 0 ∉ later ∧ raised.visits later < pollInterval ∧ none ∈ raised.answers later ∧
      ∃ taken ended, scan.Gives (.more :: .raise 0 :: later ++ [.reset 0, .more])
        ((ofTable 0 "db" ⟨rows, {}⟩ {}).found (.exact .text [0x61])) taken ended := by
  intro rows scan later raised
  have hkept : Act.reset 0 ∉ later := by simp [later]
  have hmany : pollInterval ≤ later.count .more := by simp [later]
  obtain ⟨hgives, hbounds⟩ := scan_interruptible (ofTable 0 "db" ⟨rows, {}⟩ {})
    (.exact .text [0x61]) 0 Signals.empty.fresh.2
  obtain ⟨hvisits, _, hend⟩ := hbounds [.more] later (by decide) hkept
  exact ⟨hkept, hvisits, hend hmany, hgives _⟩

end XmlStore
