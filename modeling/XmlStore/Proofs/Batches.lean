import Mathlib.Tactic.Choose
import XmlStore.Proofs.QueryVerdicts
import XmlStore.Proofs.Sparing

/-!
# Queries in batches

The index of a database raises no signal, so a query leaves the signals as they are and cannot
disturb the queries after it: in a batch every query has the result that it has alone.

* `Live.Quiet` — snapshots whose indexes raise no signal; those of a database are quiet.
* `Expr.signals_value` — the value of an expression over them leaves the signals alone.
* `Hosted.queryAll_eq`, `Hosted.queryKeyed_eq` — the results of a batch, in terms of the single
  ones.
* `Host.ask_batches` — how the host answers batches, compared with single queries.
-/

namespace XmlStore

/-! ## Quiet indexes -/

/-- No index of the snapshots raises a signal. -/
def Live.Quiet (live : Live) : Prop := ∀ signal, live.sparing signal = live

theorem Entry.sparing_of_raises {entry : Entry} (h : entry.raises = []) (signal : SignalId) :
    entry.sparing signal = entry := by
  obtain ⟨pre, raises⟩ := entry
  obtain rfl : raises = [] := h
  rfl

/-- An index that is built over a table raises no signal. -/
theorem Snapshot.sparing_ofTable (signal : SignalId) (number : Nat) (name : String) (t : Table)
    (options : Options) :
    (ofTable number name t options).sparing signal = ofTable number name t options := by
  have hanswers : ∀ l, ((ofTable number name t options).index.answer l).map (Entry.sparing signal) =
      (ofTable number name t options).index.answer l := by
    intro l
    have hsame := List.map_congr_left (l := (ofTable number name t options).index.answer l)
      fun entry hentry => Entry.sparing_of_raises (raises_of_mem_answer hentry) signal
    exact hsame.trans (List.map_id' _)
  unfold sparing
  congr 1
  unfold ValueIndex.sparing
  congr 1
  · funext kind value
    exact hanswers (.exact kind value)
  · funext interval
    exact hanswers (.range interval)

theorem Hosted.quiet_live {h : Hosted} (hreachable : h.database.Reachable) : h.live.Quiet := by
  intro signal
  obtain ⟨number, t, hcurrent⟩ := hreachable.exists_ofTable
  rw [live, snapshot, hcurrent, Live.sparing, List.map_singleton, Snapshot.sparing_ofTable]

/-- A visit that raises each signal as little as any raises none. -/
theorem Step.eq_nil_of_sparing {α : Type} {raises : List SignalId}
    (h : ∀ signal, (visit raises : Step α).sparing signal = visit raises) : raises = [] := by
  refine List.eq_nil_iff_forall_not_mem.2 fun signal hmem => ?_
  have hfilter := Step.visit.inj (h signal)
  rw [← hfilter, List.mem_filter] at hmem
  simp at hmem

/-- Steps that raise no signal leave the signals as they are. -/
theorem Run.signals_drainFrom {r : Run} {done : List Node} {signals : Signals}
    {steps : List (Step Node)} (h : ∀ step ∈ steps, ∀ signal, step.sparing signal = step) :
    (r.drainFrom done signals steps).2 = signals := by
  induction steps generalizing done with
  | nil =>
    rw [drainFrom]
    split <;> rfl
  | cons step rest ih =>
    obtain ⟨hfirst, hrest⟩ := List.forall_mem_cons.1 h
    cases step with
    | visit raises =>
      obtain rfl := Step.eq_nil_of_sparing hfirst
      exact ih hrest
    | poll =>
      rw [drainFrom]
      split
      · rfl
      · exact ih hrest
    | release ids => exact ih hrest
    | yield node => exact ih hrest

namespace Expr

variable {live : Live} (signals : Signals) (signal : SignalId)

/-- The source of an expression is the one over indexes that spare a signal, so it raises none. -/
theorem sparing_steps (hquiet : live.Quiet) {e : Expr} {src : Source}
    (h : e.source live = .ok src) :
    ∀ step ∈ src.script.steps, ∀ signal, step.sparing signal = step := by
  intro step hstep signal
  have hspared := e.source_sparing signal live
  rw [hquiet signal, h] at hspared
  have hsteps : src.script.steps = src.script.steps.map (Step.sparing signal) :=
    congrArg (·.script.steps) (Except.ok.inj hspared)
  exact List.map_eq_map_iff.1 (hsteps.symm.trans (List.map_id _).symm) step hstep

/-- **A value leaves the signals as they are**, unless an index raises one. -/
theorem signals_value (hquiet : live.Quiet) (e : Expr) :
    (e.value live signals signal).signals = signals := by
  unfold value
  cases hbegin : e.begin live signals signal with
  | error fault => rfl
  | ok run =>
    rw [begin] at hbegin
    split at hbegin
    · cases hbegin
    · cases hsource : e.source live with
      | error fault => rw [hsource] at hbegin; cases hbegin
      | ok src =>
        rw [hsource] at hbegin
        obtain rfl := Except.ok.inj hbegin
        exact Run.signals_drainFrom (sparing_steps hquiet hsource)

/-! ## Lists of expressions -/

/-- **The values of several expressions** are those that each of them has alone. -/
theorem values_eq (hquiet : live.Quiet) (es : List (Except Fault Expr)) :
    (values live signal signals es).result =
        es.map (fun e => e.bind fun e => (e.value live signals signal).result) ∧
      (values live signal signals es).signals = signals := by
  induction es with
  | nil => exact ⟨rfl, rfl⟩
  | cons first rest ih =>
    obtain ⟨hresult, hsignals⟩ := ih
    cases first with
    | error fault =>
      rw [values, hresult]
      exact ⟨rfl, hsignals⟩
    | ok e =>
      rw [values, signals_value signals signal hquiet, hresult]
      exact ⟨rfl, hsignals⟩

/-- The values under keys are those that each expression has alone, up to the first fault. -/
theorem keyedValues_eq {κ : Type} (hquiet : live.Quiet) (es : List (κ × Expr)) :
    (keyedValues live signal signals es).result =
        es.mapM (fun p => (p.2.value live signals signal).result.map (p.1, ·)) ∧
      (keyedValues live signal signals es).signals = signals := by
  induction es with
  | nil => exact ⟨rfl, rfl⟩
  | cons first rest ih =>
    obtain ⟨key, e⟩ := first
    obtain ⟨hresult, hsignals⟩ := ih
    have hkept := signals_value signals signal hquiet e
    rw [keyedValues, List.mapM_cons, hkept]
    cases (e.value live signals signal).result with
    | error fault => exact ⟨rfl, rfl⟩
    | ok found =>
      refine ⟨?_, hsignals⟩
      show Except.map _ (keyedValues live signal signals rest).result = _
      rw [hresult]
      generalize (rest.mapM _ : Except Fault (List (κ × List Node))) = others
      cases others <;> rfl

end Expr

/-! ## The first fault of several -/

section FirstFault

variable {α β : Type} {f : α → Except Fault β}

theorem mapM_eq_ok {xs : List α} {g : α → β} (h : ∀ x ∈ xs, f x = .ok (g x)) :
    xs.mapM f = .ok (xs.map g) := by
  induction xs with
  | nil => rfl
  | cons x rest ih =>
    obtain ⟨hfirst, hrest⟩ := List.forall_mem_cons.1 h
    rw [List.mapM_cons, hfirst, ih hrest]
    rfl

theorem exists_mapM_eq_ok {xs : List α} :
    (∃ ys, xs.mapM f = .ok ys) ↔ ∀ x ∈ xs, ∃ y, f x = .ok y := by
  induction xs with
  | nil => exact ⟨fun _ x hx => absurd hx List.not_mem_nil, fun _ => ⟨[], rfl⟩⟩
  | cons x rest ih =>
    rw [List.mapM_cons, List.forall_mem_cons, ← ih]
    constructor
    · rintro ⟨ys, hys⟩
      cases hfirst : f x with
      | error fault => rw [hfirst] at hys; cases hys
      | ok y =>
        cases hrest : rest.mapM f with
        | error fault => rw [hfirst, hrest] at hys; cases hys
        | ok others => exact ⟨⟨y, rfl⟩, others, rfl⟩
    · rintro ⟨⟨y, hfirst⟩, others, hrest⟩
      rw [hfirst, hrest]
      exact ⟨y :: others, rfl⟩

/-- The first fault decides. -/
theorem mapM_eq_error {before after : List α} {x : α} {fault : Fault}
    (hbefore : ∀ b ∈ before, ∃ y, f b = .ok y) (hx : f x = .error fault) :
    (before ++ x :: after).mapM f = .error fault := by
  obtain ⟨ys, hys⟩ := exists_mapM_eq_ok.2 hbefore
  rw [List.mapM_append, hys, List.mapM_cons, hx]
  rfl

/-- What is made of all results of a first pass is made of each of them. -/
theorem mapM_of_mapM {γ : Type} {g : β → Except Fault γ} {xs : List α} {ys : List β}
    (h : xs.mapM f = .ok ys) : ys.mapM g = xs.mapM fun x => (f x).bind g := by
  induction xs generalizing ys with
  | nil =>
    obtain rfl := Except.ok.inj h
    rfl
  | cons x rest ih =>
    rw [List.mapM_cons] at h
    cases hfirst : f x with
    | error fault => rw [hfirst] at h; cases h
    | ok y =>
      cases hrest : rest.mapM f with
      | error fault => rw [hfirst, hrest] at h; cases h
      | ok others =>
        rw [hfirst, hrest] at h
        obtain rfl := Except.ok.inj h
        rw [List.mapM_cons, List.mapM_cons, ih hrest, hfirst]
        rfl

end FirstFault

/-! ## Hosted batches -/

namespace Hosted

variable {h : Hosted} {signals : Signals} {κ : Type}

/-- What a query comes to alone. -/
def alone (h : Hosted) (signals : Signals) (q : Query) : Except Fault (List Node) :=
  (h.compile q).bind fun compiled => (compiled.1.value h.live signals h.signal).result

theorem compiles_of_bind {q : Query} (hq : ∃ e, q.bind h.snapshot = .ok e) :
    ∃ compiled, h.compile q = .ok compiled := by
  obtain ⟨e, hbind⟩ := hq
  exact ⟨_, by rw [compile, hbind]; rfl⟩

theorem compile_of_bind_error {q : Query} {fault : Fault} (hq : q.bind h.snapshot = .error fault) :
    h.compile q = .error fault := by
  rw [compile, hq]
  rfl

theorem compiles_of_alone {q : Query} {found : List Node} (hq : h.alone signals q = .ok found) :
    ∃ compiled, h.compile q = .ok compiled := by
  cases hcompile : h.compile q with
  | error fault => rw [alone, hcompile] at hq; cases hq
  | ok compiled => exact ⟨compiled, rfl⟩

theorem query_eq (hquiet : h.live.Quiet) (q : Query) (mode : Mode) :
    (h.query signals q mode).result = h.alone signals q ∧
      (h.query signals q mode).signals = signals := by
  unfold query alone
  cases h.compile q with
  | error fault => exact ⟨rfl, rfl⟩
  | ok compiled => exact ⟨rfl, Expr.signals_value signals h.signal hquiet compiled.1⟩

/-- **Each query of a list** comes to what it comes to alone. -/
theorem queryAll_eq (hquiet : h.live.Quiet) (qs : List Query) :
    (h.queryAll signals qs).result = qs.map (h.alone signals) ∧
      (h.queryAll signals qs).signals = signals := by
  obtain ⟨hresult, hsignals⟩ := Expr.values_eq signals h.signal hquiet
    (qs.map fun q => (h.compile q).map Prod.fst)
  refine ⟨hresult.trans ?_, hsignals⟩
  rw [List.map_map]
  refine List.map_congr_left fun q _ => ?_
  rw [Function.comp, alone]
  cases h.compile q <;> rfl

theorem compileKeyed_eq (qs : List (κ × Query)) :
    h.compileKeyed qs =
      qs.mapM fun p => (h.compile p.2).map fun compiled => (p.1, compiled.1) := by
  induction qs with
  | nil => rfl
  | cons first rest ih =>
    rw [compileKeyed, List.mapM_cons, ih]
    cases h.compile first.2 <;> rfl

theorem signals_queryKeyed (hquiet : h.live.Quiet) (qs : List (κ × Query)) :
    (h.queryKeyed signals qs).signals = signals := by
  unfold queryKeyed
  cases h.compileKeyed qs with
  | error fault => rfl
  | ok compiled => exact (Expr.keyedValues_eq signals h.signal hquiet compiled).2

/-- If all queries under keys are answered, all of them can be compiled. -/
theorem compiles_of_queryKeyed {qs : List (κ × Query)} {found : List (κ × List Node)}
    (hfound : (h.queryKeyed signals qs).result = .ok found) :
    ∀ p ∈ qs, ∃ compiled, h.compile p.2 = .ok compiled := by
  cases hcompiled : h.compileKeyed qs with
  | error fault => rw [queryKeyed, hcompiled] at hfound; cases hfound
  | ok compiled =>
    rw [compileKeyed_eq] at hcompiled
    intro p hp
    obtain ⟨pair, hpair⟩ := exists_mapM_eq_ok.1 ⟨compiled, hcompiled⟩ p hp
    cases hcompile : h.compile p.2 with
    | error fault => rw [hcompile] at hpair; cases hpair
    | ok compiled => exact ⟨compiled, rfl⟩

/-- The first query that cannot be compiled is reported before any other fault. -/
theorem queryKeyed_of_uncompiled {before after : List (κ × Query)} {p : κ × Query} {fault : Fault}
    (hbefore : ∀ b ∈ before, ∃ compiled, h.compile b.2 = .ok compiled)
    (hp : h.compile p.2 = .error fault) :
    (h.queryKeyed signals (before ++ p :: after)).result = .error fault := by
  have hcompile : h.compileKeyed (before ++ p :: after) = .error fault := by
    rw [compileKeyed_eq]
    refine mapM_eq_error (fun b hb => ?_) (by rw [hp]; rfl)
    obtain ⟨compiled, hcompiled⟩ := hbefore b hb
    exact ⟨_, by rw [hcompiled]; rfl⟩
  rw [queryKeyed, hcompile]

/-- **Queries under keys** that can all be compiled come to what each of them comes to alone, up to
the first fault. -/
theorem queryKeyed_eq (hquiet : h.live.Quiet) {qs : List (κ × Query)}
    (hqs : ∀ p ∈ qs, ∃ compiled, h.compile p.2 = .ok compiled) :
    (h.queryKeyed signals qs).result =
      qs.mapM fun p => (h.alone signals p.2).map (p.1, ·) := by
  obtain ⟨compiled, hcompiled⟩ : ∃ compiled, h.compileKeyed qs = .ok compiled := by
    rw [compileKeyed_eq, exists_mapM_eq_ok]
    intro p hp
    obtain ⟨compiled, hcompiled⟩ := hqs p hp
    exact ⟨_, by rw [hcompiled]; rfl⟩
  have hresult : (h.queryKeyed signals qs).result =
      (Expr.keyedValues h.live h.signal signals compiled).result := by
    rw [queryKeyed, hcompiled]
  rw [hresult, (Expr.keyedValues_eq signals h.signal hquiet compiled).1]
  rw [compileKeyed_eq] at hcompiled
  rw [mapM_of_mapM hcompiled]
  congr 1
  funext p
  rw [alone]
  cases h.compile p.2 <;> rfl

end Hosted

/-! ## Replies -/

theorem Term.ok_inj {a b : Term} (h : ok a = ok b) : a = b := by
  simpa [ok] using h

namespace Host

theorem answer_eq_ok_iff {table : Table} {result : Except Fault (List Node)} {reply : Term} :
    answer table result = .ok reply ↔
      ∃ nodes, result = .ok nodes ∧ reply = .ofNodes table nodes := by
  cases result with
  | error fault =>
    refine iff_of_false (fun h => Term.ok_ne_failure _ _ _ h.symm) ?_
    rintro ⟨nodes, h, _⟩
    cases h
  | ok nodes =>
    constructor
    · exact fun h => ⟨nodes, rfl, (Term.ok_inj h).symm⟩
    · rintro ⟨_, h, rfl⟩
      rw [Except.ok.inj h, answer]

theorem exists_answer_eq_ok {table : Table} {result : Except Fault (List Node)} :
    (∃ reply, answer table result = .ok reply) ↔ ∃ nodes, result = .ok nodes := by
  constructor
  · rintro ⟨reply, hreply⟩
    obtain ⟨nodes, hnodes, _⟩ := answer_eq_ok_iff.1 hreply
    exact ⟨nodes, hnodes⟩
  · rintro ⟨nodes, rfl⟩
    exact ⟨.ofNodes table nodes, rfl⟩

/-- How the host answers batches of queries of a database, given its answers to single queries. -/
structure BatchesLike (host : Host) (elapsed : String) (number : Nat) (h : Hosted)
    (alone : Query → Term) : Prop where
  /-- A list is answered by a list: each query in its place as it is alone. -/
  parallel : ∀ qs, host.ask elapsed number h (.queryParallel qs) = (.list (qs.map alone), host)
  /-- Queries under keys are answered if each of them is. -/
  keyed_ok_iff : ∀ qs, (∃ reply, (host.ask elapsed number h (.queryKeyed qs)).1 = .ok reply) ↔
    ∀ p ∈ qs, ∃ nodes, alone p.2 = .ok nodes
  /-- The answer has the keys in their order, each with the nodes of its query. -/
  keyed_ok : ∀ qs (nodes : String × Query → Term), (∀ p ∈ qs, alone p.2 = .ok (nodes p)) →
    (host.ask elapsed number h (.queryKeyed qs)).1 =
      .ok (.list (qs.map fun p => .tuple [.ofText p.1, nodes p]))
  /-- The first query that cannot be bound is reported, whatever stands behind it. -/
  keyed_unbound : ∀ before key q after fault,
    (∀ p ∈ before, ∃ e, p.2.bind h.snapshot = .ok e) → q.bind h.snapshot = .error fault →
    (host.ask elapsed number h (.queryKeyed (before ++ (key, q) :: after))).1 = .ofFault fault ∧
      alone q = .ofFault fault
  /-- If all can be bound, the first one that fails is answered as it is alone. -/
  keyed_failed : ∀ before key q after,
    (∀ p ∈ before ++ (key, q) :: after, ∃ e, p.2.bind h.snapshot = .ok e) →
    (∀ p ∈ before, ∃ nodes, alone p.2 = .ok nodes) → (∀ nodes, alone q ≠ .ok nodes) →
    (host.ask elapsed number h (.queryKeyed (before ++ (key, q) :: after))).1 = alone q
  /-- Nothing is changed. -/
  keyed_unchanged : ∀ qs, (host.ask elapsed number h (.queryKeyed qs)).2 = host

section Replies

variable {host : Host} {elapsed : String} {number : Nat} {h : Hosted}

/-- The answer to queries under keys. -/
def answerKeyed (table : Table) : Except Fault (List (String × List Node)) → Term
  | .error fault => .ofFault fault
  | .ok found => .ok (.list (found.map fun p => .tuple [.ofText p.1, .ofNodes table p.2]))

theorem ask_queryKeyed (qs : List (String × Query)) :
    (host.ask elapsed number h (.queryKeyed qs)).1 =
      answerKeyed h.snapshot.table (h.queryKeyed host.signals qs).result := by
  rw [ask]
  cases (h.queryKeyed host.signals qs).result <;> rfl

theorem ask_query_eq (hquiet : h.live.Quiet) (q : Query) (mode : Mode) :
    (host.ask elapsed number h (.query q mode)).1 =
      answer h.snapshot.table (h.alone host.signals q) :=
  congrArg (answer h.snapshot.table) (Hosted.query_eq hquiet q mode).1

/-- Queries that are all answered alone are answered under their keys. -/
theorem ask_queryKeyed_of_ok (hquiet : h.live.Quiet) {qs : List (String × Query)}
    {found : String × Query → List Node}
    (hfound : ∀ p ∈ qs, h.alone host.signals p.2 = .ok (found p)) :
    (host.ask elapsed number h (.queryKeyed qs)).1 = .ok (.list (qs.map fun p =>
      .tuple [.ofText p.1, .ofNodes h.snapshot.table (found p)])) := by
  have hall := mapM_eq_ok (f := fun p => (h.alone host.signals p.2).map (p.1, ·))
    (g := fun p => (p.1, found p)) fun p hp => by rw [hfound p hp]; rfl
  rw [ask_queryKeyed,
    Hosted.queryKeyed_eq hquiet fun p hp => Hosted.compiles_of_alone (hfound p hp), hall,
    answerKeyed, List.map_map]
  rfl

/-- Queries that are answered under their keys are all answered alone. -/
theorem alone_of_ask_queryKeyed (hquiet : h.live.Quiet) {qs : List (String × Query)} {reply : Term}
    (hreply : (host.ask elapsed number h (.queryKeyed qs)).1 = .ok reply) :
    ∀ p ∈ qs, ∃ found, h.alone host.signals p.2 = .ok found := by
  rw [ask_queryKeyed] at hreply
  cases hresult : (h.queryKeyed host.signals qs).result with
  | error fault =>
    rw [hresult] at hreply
    exact absurd hreply.symm (Term.ok_ne_failure _ _ _)
  | ok found =>
    rw [Hosted.queryKeyed_eq hquiet (Hosted.compiles_of_queryKeyed hresult)] at hresult
    intro p hp
    obtain ⟨pair, hpair⟩ := exists_mapM_eq_ok.1 ⟨found, hresult⟩ p hp
    cases halone : h.alone host.signals p.2 with
    | error fault => rw [halone] at hpair; cases hpair
    | ok nodes => exact ⟨nodes, rfl⟩

/-- The first query that cannot be bound is reported. -/
theorem ask_queryKeyed_of_unbound {before after : List (String × Query)} {p : String × Query}
    {fault : Fault} (hbefore : ∀ b ∈ before, ∃ e, b.2.bind h.snapshot = .ok e)
    (hp : p.2.bind h.snapshot = .error fault) :
    (host.ask elapsed number h (.queryKeyed (before ++ p :: after))).1 = .ofFault fault := by
  rw [ask_queryKeyed, Hosted.queryKeyed_of_uncompiled
    (fun b hb => Hosted.compiles_of_bind (hbefore b hb)) (Hosted.compile_of_bind_error hp)]
  rfl

/-- If all queries can be bound, the first one that fails is reported. -/
theorem ask_queryKeyed_of_failed (hquiet : h.live.Quiet) {before after : List (String × Query)}
    {p : String × Query} {fault : Fault}
    (hall : ∀ b ∈ before ++ p :: after, ∃ e, b.2.bind h.snapshot = .ok e)
    (hbefore : ∀ b ∈ before, ∃ nodes, h.alone host.signals b.2 = .ok nodes)
    (hp : h.alone host.signals p.2 = .error fault) :
    (host.ask elapsed number h (.queryKeyed (before ++ p :: after))).1 = .ofFault fault := by
  have hpairs : ∀ b ∈ before, ∃ pair : String × List Node,
      (h.alone host.signals b.2).map (b.1, ·) = .ok pair := by
    intro b hb
    obtain ⟨nodes, hnodes⟩ := hbefore b hb
    exact ⟨(b.1, nodes), by rw [hnodes]; rfl⟩
  rw [ask_queryKeyed,
    Hosted.queryKeyed_eq hquiet fun b hb => Hosted.compiles_of_bind (hall b hb),
    mapM_eq_error hpairs (by rw [hp]; rfl)]
  rfl

end Replies

/-- **Batches agree with single queries**, in either mode. -/
theorem ask_batches (host : Host) (elapsed : String) (number : Nat) {h : Hosted}
    (hreachable : h.database.Reachable) (mode : Mode) :
    BatchesLike host elapsed number h fun q => (host.ask elapsed number h (.query q mode)).1 := by
  have hquiet := Hosted.quiet_live hreachable
  simp only [ask_query_eq hquiet]
  constructor
  case parallel =>
    intro qs
    have hresult : (h.queryAll host.signals qs).result = _ := (Hosted.queryAll_eq hquiet qs).1
    have hsignals : (h.queryAll host.signals qs).signals = _ := (Hosted.queryAll_eq hquiet qs).2
    rw [ask, hresult, hsignals, List.map_map]
    rfl
  case keyed_ok_iff =>
    intro qs
    simp only [exists_answer_eq_ok]
    constructor
    · rintro ⟨reply, hreply⟩
      exact alone_of_ask_queryKeyed hquiet hreply
    · intro hall
      choose! found hfound using hall
      exact ⟨_, ask_queryKeyed_of_ok hquiet hfound⟩
  case keyed_ok =>
    intro qs nodes hall
    have hfound : ∀ p ∈ qs, ∃ found, h.alone host.signals p.2 = .ok found ∧
        nodes p = .ofNodes h.snapshot.table found := fun p hp => answer_eq_ok_iff.1 (hall p hp)
    choose! found hfound using hfound
    rw [ask_queryKeyed_of_ok hquiet fun p hp => (hfound p hp).1]
    congr 2
    exact List.map_congr_left fun p hp => by rw [(hfound p hp).2]
  case keyed_unbound =>
    intro before key q after fault hbefore hq
    refine ⟨ask_queryKeyed_of_unbound hbefore hq, ?_⟩
    rw [Hosted.alone, Hosted.compile_of_bind_error hq]
    rfl
  case keyed_failed =>
    intro before key q after hall hbefore hq
    simp only [exists_answer_eq_ok] at hbefore
    cases halone : h.alone host.signals q with
    | ok found => exact absurd (by rw [halone, answer]) (hq (.ofNodes h.snapshot.table found))
    | error fault => exact ask_queryKeyed_of_failed hquiet hall hbefore halone
  case keyed_unchanged =>
    intro qs
    show { host with signals := (h.queryKeyed host.signals qs).signals } = host
    rw [Hosted.signals_queryKeyed hquiet]

/-- Of two queries that cannot be bound the first one is reported, behind one that is answered. -/
theorem ask_batches_unbound :
    let fragment : Table := { rows := #[⟨.document, 0, 2, 0, 0, []⟩, ⟨.text, 1, 1, 0, 0, [98]⟩] }
    let created : Database := ⟨"books", {}, .ofTable 0 "books" .empty {}, false⟩
    let h : Hosted := ⟨(created.add 1 [97] fragment).database, 0⟩
    let qs : List (String × Query) := [("a", .nodes [1]), ("b", .nodes [9]), ("a", .nodes [8])]
    BatchesLike {} "0.01" 0 h (fun q => (ask {} "0.01" 0 h (.query q .eager)).1) ∧
      (ask {} "0.01" 0 h (.queryKeyed qs)).1 = .ofFault (.invalidNode "books" 9 2) := by
  intro fragment created h qs
  have hcreated : Database.create 0 "books" {} = .ok (created, _) := rfl
  have hreachable : h.database.Reachable := .added 1 [97] fragment (.created hcreated)
  have hlike := ask_batches {} "0.01" 0 hreachable .eager
  have hbound : (Query.nodes [1]).bind h.snapshot = .ok (.nodes h.snapshot.binding [1]) := rfl
  refine ⟨hlike, (hlike.keyed_unbound [("a", .nodes [1])] "b" (.nodes [9]) [("a", .nodes [8])] _
    (fun p hp => ?_) rfl).1⟩
  obtain rfl := List.mem_singleton.1 hp
  exact ⟨_, hbound⟩

end Host

end XmlStore
