import XmlStore.Database.Addition
import XmlStore.Proofs.Cancellation
import XmlStore.Proofs.OpeningFaults

/-!
# Readings outlast their snapshots

Nodes are read one by one while others use the databases: they add documents, keep snapshots and let
them go, close databases and raise signals.

* `World` — databases in use, and `World.after` what becomes of them.
* `Session` — a reading that is under way in a world, and `Session.run` what it answers.
* `Iterates.settles_run` — a reading always answers, and what it fails with is an interrupt or the
  fault of an index.
* `Expr.fails_at_opening` — a snapshot that is gone and an inverted interval are found when the
  expression is opened, at its leftmost leaf, and never later.
-/

namespace XmlStore

/-! ## Worlds -/

/-- Databases in use. -/
structure World where
  databases : List Database
  /-- The number for the next snapshot. -/
  nextId : Nat
  /-- Snapshots that somebody keeps. -/
  kept : List Snapshot
  signals : Signals

/-- Something that happens while nodes are read. -/
inductive Happening where
  /-- The next node is asked for. -/
  | next
  /-- Somebody raises signals. -/
  | raise (signals : List SignalId)
  /-- A document is added to the database at a position. -/
  | add (database : Nat) (path : Bytes) (fragment : Table)
  /-- Somebody keeps the current snapshot of a database. -/
  | keep (database : Nat)
  /-- Everybody lets go of the snapshot with this number. -/
  | drop (snapshot : Nat)
  /-- A database is given up, and its current snapshot with it. -/
  | close (database : Nat)

namespace World

/-- The snapshots that exist for sure. -/
def live (w : World) : Live := ⟨w.databases.map Database.current ++ w.kept⟩

/-- The world after something has happened. -/
def after (w : World) : Happening → World
  | .next => w
  | .raise signals => { w with signals := w.signals.raiseAll signals }
  | .add i path fragment =>
    match w.databases[i]? with
    | none => w
    | some d =>
      let addition := d.add w.nextId path fragment
      { w with
        databases := w.databases.set i addition.database
        nextId := addition.nextId }
  | .keep i => { w with kept := (w.databases[i]?.map Database.current).toList ++ w.kept }
  | .drop id => { w with kept := w.kept.filter fun s => s.id != id }
  | .close i => { w with databases := w.databases.eraseIdx i }

end World

/-- A reading in a world. -/
structure Session where
  world : World
  iteration : Iteration

namespace Session

/-- What is answered when something happens, and the session after it. -/
def after (fuel : Nat) (s : Session) :
    Happening → Option (List (Except Fault (Option Node)) × Session)
  | .next =>
    (s.iteration.next fuel s.world.signals).map fun ((answer, i), signals) =>
      ([answer], ⟨{ s.world with signals := signals }, i⟩)
  | happening => some ([], { s with world := s.world.after happening })

/-- What is answered while all this happens, and the session after it. -/
def run (fuel : Nat) (s : Session) :
    List Happening → Option (List (Except Fault (Option Node)) × Session)
  | [] => some ([], s)
  | happening :: rest =>
    (s.after fuel happening).bind fun (answers, s) =>
      (s.run fuel rest).map fun (later, s) => (answers ++ later, s)

end Session

/-! ## What is answered -/

/-- A fault that can come after the opening: an interrupt, or one of an index. -/
def Fault.IsLate (fault : Fault) : Prop :=
  fault.kind = .interrupted ∨ fault.kind = .indexInconsistent

theorem Fault.IsLate.not_isOpening {fault : Fault} (h : fault.IsLate) :
    ¬ fault.kind.IsOpening := by
  rintro (hkind | hkind) <;> rw [Fault.IsLate, hkind] at h <;> simp at h

theorem Fault.isLate_of_firm {s : Script} {fault : Fault} (h : s.Firm)
    (hfault : fault = .interrupted ∨ s.fault = some fault) : fault.IsLate := by
  obtain rfl | hfault := hfault
  · exact Or.inl rfl
  · exact Or.inr (h fault hfault)

namespace Run

variable {r r' : Run} {signals signals' : Signals} {answer : Except Fault (Option Node)}

/-- **A run fails late**, and what is left of it too. -/
theorem firm_next (h : r.script.Firm) (hnext : r.next signals = (answer, r', signals')) :
    r'.script.Firm ∧ ∀ fault, answer = .error fault → fault.IsLate := by
  obtain ⟨hkept, hfault⟩ := fault_of_next hnext
  refine ⟨fun fault hsome => h fault (hkept fault hsome), fun fault heq => ?_⟩
  exact Fault.isLate_of_firm h (hfault fault heq)

theorem isLate_drain (h : r.script.Firm) {fault : Fault}
    (hdrain : (r.drain signals).1 = .error fault) : fault.IsLate :=
  Fault.isLate_of_firm h (fault_of_drain hdrain)

end Run

namespace Iterates

variable {s : Session} {r : Run}

/-- What happens in a session is answered, and the reading goes on as a run does. -/
theorem settles_after (h : Iterates s.iteration r) (hfirm : r.script.Firm) (happening : Happening) :
    ∃ answers s' r', Settles (fun fuel => s.after fuel happening) (answers, s') ∧
      Iterates s'.iteration r' ∧ r'.script.Firm ∧
      ∀ fault, .error fault ∈ answers → fault.IsLate := by
  cases happening with
  | next =>
    obtain ⟨answer, i', r', signals', hsettles, hnext, hiterates⟩ := h.next s.world.signals
    obtain ⟨hfirm', hlate⟩ := Run.firm_next hfirm hnext
    refine ⟨[answer], ⟨{ s.world with signals := signals' }, i'⟩, r', hsettles.map _, hiterates,
      hfirm', fun fault hmem => hlate fault ?_⟩
    exact (List.mem_singleton.1 hmem).symm
  | raise | add | keep | drop | close =>
    exact ⟨[], _, r, .const _, h, hfirm, fun _ hmem => absurd hmem List.not_mem_nil⟩

/-- **A session always answers**, and what a reading fails with is an interrupt or the fault of an
index, whatever happens to the databases.  The induction is on what happens. -/
theorem settles_run (h : Iterates s.iteration r) (hfirm : r.script.Firm)
    (happenings : List Happening) :
    ∃ answers s' r', Settles (fun fuel => s.run fuel happenings) (answers, s') ∧
      Iterates s'.iteration r' ∧ r'.script.Firm ∧
      ∀ fault, .error fault ∈ answers → fault.IsLate := by
  induction happenings generalizing s r with
  | nil => exact ⟨[], s, r, .const _, h, hfirm, fun _ hmem => absurd hmem List.not_mem_nil⟩
  | cons happening rest ih =>
    obtain ⟨answers, s₁, r₁, hfirst, hiterates₁, hfirm₁, hlate⟩ := h.settles_after hfirm happening
    obtain ⟨later, s₂, r₂, hrest, hiterates₂, hfirm₂, hlater⟩ := ih hiterates₁ hfirm₁
    refine ⟨answers ++ later, s₂, r₂, hfirst.bind (hrest.map _), hiterates₂, hfirm₂,
      fun fault hmem => ?_⟩
    exact (List.mem_append.1 hmem).elim (hlate fault) (hlater fault)

end Iterates

/-! ## Expressions -/

namespace Expr

/-- When an expression fails that is evaluated in a world, and with what. -/
structure FailsAtOpening (w : World) (signal : SignalId) (e : Expr) : Prop where
  /-- Its fault at the opening is that of the leftmost leaf that cannot be opened, in one layer for
  every operator on the way. -/
  iterate_iff : ∀ fault, e.iterate w.live w.signals signal = .error fault ↔
    ∃ path cause, FirstBlocked w.live e path cause ∧ fault = Path.wrap path cause
  /-- It has one if and only if there is such a leaf. -/
  exists_iff : (∃ fault, e.iterate w.live w.signals signal = .error fault) ↔ HasBlocked w.live e
  /-- What is opened for a run is opened the same way. -/
  begin_iff : ∀ fault, e.begin w.live w.signals signal = .error fault ↔
    e.iterate w.live w.signals signal = .error fault
  /-- Reading at once fails with the same fault, and has read nothing. -/
  collect_of_error : ∀ fault, e.iterate w.live w.signals signal = .error fault →
    (∀ fuel, e.collect w.live signal fuel w.signals = some (.error fault, w.signals)) ∧
      (e.value w.live w.signals signal).result = .error fault
  /-- Otherwise it reads what was opened, to the end. -/
  collect_of_ok : ∀ i, e.iterate w.live w.signals signal = .ok i →
    ∀ fuel, e.collect w.live signal fuel w.signals = i.drain fuel w.signals
  /-- What was opened answers whatever happens, node by node and all that is left at once, and does
  not fail with one of these causes any more. -/
  later : ∀ i, e.iterate w.live w.signals signal = .ok i → ∀ happenings, ∃ answers s rest,
    Settles (fun fuel => Session.run fuel ⟨w, i⟩ happenings) (answers, s) ∧
    Settles (fun fuel => s.iteration.drain fuel s.world.signals) rest ∧
    (∀ fault, .error fault ∈ answers → ¬ fault.kind.IsOpening) ∧
    ∀ fault, rest.1 = .error fault → ¬ fault.kind.IsOpening

variable {live : Live} {signals : Signals} {signal : SignalId}

/-- A run cannot be opened for the same fault as its reader. -/
theorem begin_eq_error_iff (live : Live) (signals : Signals) (signal : SignalId) (e : Expr)
    (fault : Fault) : e.begin live signals signal = .error fault ↔
      e.iterate live signals signal = .error fault := by
  have hopened := e.opened_iterate live signals signal
  generalize e.iterate live signals signal = x at hopened
  generalize e.begin live signals signal = y at hopened
  cases hopened with
  | failed => rw [Except.error.injEq, Except.error.injEq]
  | ok => simp only [reduceCtorEq]

theorem firm_begin {e : Expr} {r : Run} (h : e.begin live signals signal = .ok r) :
    r.script.Firm := by
  obtain ⟨src, hsource, hscript⟩ := exists_source_of_begin h
  have hfirm := e.firm_source live
  rw [hsource] at hfirm
  exact hscript ▸ hfirm

/-- **A snapshot that is gone and an inverted interval are found at the opening**, at the leftmost
leaf, and never later. -/
theorem fails_at_opening (w : World) (signal : SignalId) (e : Expr)
    (hraised : w.signals.isRaised signal = false) : FailsAtOpening w signal e where
  iterate_iff fault := by
    rw [← begin_eq_error_iff]
    exact (opensTo_begin w.live hraised e).eq_error_iff fault
  exists_iff := by
    simp only [← begin_eq_error_iff]
    exact (opensTo_begin w.live hraised e).exists_error_iff
  begin_iff fault := begin_eq_error_iff w.live w.signals signal e fault
  collect_of_error fault h := by
    refine ⟨collect_of_unopened h, ?_⟩
    rw [value, (begin_eq_error_iff w.live w.signals signal e fault).2 h]
  collect_of_ok i h := collect_of_opened h
  later i h happenings := by
    have hopened := e.opened_iterate w.live w.signals signal
    cases hbegin : e.begin w.live w.signals signal with
    | error fault =>
      rw [(begin_eq_error_iff w.live w.signals signal e fault).1 hbegin] at h
      cases h
    | ok r =>
      rw [h, hbegin] at hopened
      obtain ⟨i', hi', hiterates⟩ := hopened.exists_of_ok
      obtain rfl := Except.ok.inj hi'
      obtain ⟨answers, s, r', hrun, hiterates', hfirm, hlate⟩ :=
        Iterates.settles_run (s := ⟨w, i⟩) hiterates (firm_begin hbegin) happenings
      refine ⟨answers, s, r'.drain s.world.signals, hrun, hiterates'.drain s.world.signals,
        fun fault hmem => (hlate fault hmem).not_isOpening, fun fault hrest => ?_⟩
      exact (Run.isLate_drain hfirm hrest).not_isOpening

/-- A union of listed nodes and an inverted interval fails for its second operand, and for its first
one once the database is closed; until then the listed nodes alone can be opened. -/
theorem fails_at_opening_closed :
    let t : Table := { rows := #[⟨.document, 0, 3, 0, 0, [97]⟩, ⟨.element, 1, 2, 0, 1, []⟩,
      ⟨.text, 1, 1, 0, 0, [98]⟩], names := ⟨#[[114]]⟩ }
    let w : World := ⟨[⟨"db", {}, .ofTable 1 "db" t {}, false⟩], 2, [], {}⟩
    let closed := w.after (.close 0)
    let interval : Interval := ⟨.text, some [98], true, some [97], true⟩
    let listed : Expr := nodes ⟨"db", 1⟩ [2, 1]
    let union : Expr := ofSet .union [listed, access ⟨"db", 1⟩ (.range interval) false]
    w.signals.isRaised 0 = false ∧ FailsAtOpening w 0 union ∧ FailsAtOpening closed 0 union ∧
      union.iterate w.live w.signals 0 = .error (.operand .union 1 (.invertedRange interval)) ∧
      union.iterate closed.live closed.signals 0 =
        .error (.operand .union 0 (.storeUnavailable "db")) ∧
      ∃ i, listed.iterate w.live w.signals 0 = .ok i := by
  intro t w closed interval listed union
  have hfound : w.live.find? ⟨"db", 1⟩ = some (.ofTable 1 "db" t {}) := rfl
  have hlisted : ¬ HasBlocked w.live (nodes ⟨"db", 1⟩ [2, 1]) := by
    rintro ⟨path, leaf, cause, hleaf, hblocked⟩
    cases hleaf
    cases hblocked with
    | goneNodes hgone => cases hfound.symm.trans hgone
  have hinverted : FirstBlocked w.live (access ⟨"db", 1⟩ (.range interval) false) []
      (.invertedRange interval) :=
    ⟨⟨_, .access, .inverted hfound rfl rfl (by decide)⟩, fun _ _ _ _ _ => List.not_lt_nil _⟩
  have hgone : FirstBlocked closed.live listed [] (.storeUnavailable "db") :=
    ⟨⟨_, .nodes, .goneNodes rfl⟩, fun _ _ _ _ _ => List.not_lt_nil _⟩
  have hunion := fails_at_opening w 0 union rfl
  have hclosed := fails_at_opening closed 0 union rfl
  refine ⟨rfl, hunion, hclosed, ?_, ?_, ?_⟩
  · refine (hunion.iterate_iff _).2 ⟨[(.union, 1)], _, hinverted.set rfl fun j e hj he => ?_, rfl⟩
    obtain rfl : j = 0 := Nat.lt_one_iff.1 hj
    obtain rfl := Option.some.inj he
    exact hlisted
  · refine (hclosed.iterate_iff _).2 ⟨[(.union, 0)], _, hgone.set rfl fun j e hj _ => ?_, rfl⟩
    exact absurd hj (Nat.not_lt_zero j)
  · cases hopened : listed.iterate w.live w.signals 0 with
    | ok i => exact ⟨i, rfl⟩
    | error fault =>
      exact absurd ((fails_at_opening w 0 listed rfl).exists_iff.1 ⟨fault, hopened⟩) hlisted

end Expr

end XmlStore
