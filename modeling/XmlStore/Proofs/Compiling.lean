import Mathlib
import XmlStore.Proofs.Combining
import XmlStore.Proofs.Polling
import XmlStore.Proofs.Reading
import XmlStore.Proofs.ServingSets

/-!
# Compiling keeps the answer

A compiled expression reads its operands in other amounts than the plain one and may meet other
faults, but it has the same value wherever the plain one has a value.

* `Expr.Promised` — lookups that are said to ascend were promised to.  `Expr.Built` describes how
  expressions come about, and `Expr.Built.promised` says that they are so.
* `Expr.ascends_of_iterable` — what is said to ascend does so.
* `Expr.served_compile` — the script of an expression is served by the script of the compiled one.
* `Expr.value_compile` — hence both have the same value.
-/

namespace XmlStore

/-- All snapshots that can be found were found in the other collection. -/
def Live.Within (live history : Live) : Prop :=
  ∀ b s, live.find? b = some s → history.find? b = some s

namespace Expr

/-- Lookups that are said to ascend were promised to, unless their snapshots are gone. -/
def Promised (live : Live) (e : Expr) : Prop :=
  ∀ binding lookup, access binding lookup true ∈ e.leaves →
    ∀ s, live.find? binding = some s → s.promises lookup = true

/-- The expressions that can be made while the snapshots in `history` come and go: fresh ones, what
is compiled at any time of them, and their parts. -/
inductive Built (history : Live) : Expr → Prop where
  | empty : Built history empty
  | nodes (binding : Binding) (pres : List Nat) : Built history (nodes binding pres)
  | lookup (binding : Binding) (lookup : Lookup) : Built history (access binding lookup false)
  | set (op : SetOp) {es : List Expr} :
      (∀ e ∈ es, Built history e) → Built history (.set op es false)
  | compiled {live : Live} {e : Expr} :
      live.Within history → Built history e → Built history (compile live e).1
  | operand {op : SetOp} {es : List Expr} {iterable : Bool} {e : Expr} :
      Built history (.set op es iterable) → e ∈ es → Built history e

/-- The parts of an expression: itself, its operands, their operands and so on. -/
inductive PartOf : Expr → Expr → Prop where
  | self (e : Expr) : PartOf e e
  | operand {part e : Expr} {op : SetOp} {es : List Expr} {iterable : Bool} :
      e ∈ es → PartOf part e → PartOf part (.set op es iterable)

/-- The parts of an expression come about as it does. -/
theorem Built.part {history : Live} {part e : Expr} (h : e.Built history)
    (hpart : part.PartOf e) : part.Built history := by
  induction hpart with
  | self => exact h
  | operand he _ ih => exact ih (.operand h he)

theorem mem_leavesAll {leaf : Expr} {es : List Expr} :
    leaf ∈ leavesAll es ↔ ∃ e ∈ es, leaf ∈ e.leaves := by
  induction es with
  | nil => simp [leavesAll]
  | cons e rest ih => simp [leavesAll, ih]

theorem promised_set {live : Live} {op : SetOp} {es : List Expr} {iterable : Bool} :
    (set op es iterable).Promised live ↔ ∀ e ∈ es, e.Promised live := by
  simp only [Promised, leaves, mem_leavesAll]
  constructor
  · intro h e he b l hleaf
    exact h b l ⟨e, he, hleaf⟩
  · rintro h b l ⟨e, he, hleaf⟩
    exact h e he b l hleaf

theorem leaves_combine {op : SetOp} {es : List Expr} {leaf : Expr}
    (h : leaf ∈ (combine op es).1.leaves) : leaf = empty ∨ ∃ e ∈ es, leaf ∈ e.leaves := by
  have hmem : ∀ {kept : List Expr}, (dropEmpty op true es).1 = some kept →
      ∀ e ∈ kept, e ∈ es := by
    intro kept hdrop e he
    obtain ⟨rfl, _⟩ := dropEmpty_eq_some hdrop
    exact (List.mem_filter.1 he).1
  rcases combine_cases op es with ⟨_, hcombine⟩ | ⟨_, hcombine⟩ | ⟨e, hdrop, _, hcombine⟩ |
    ⟨kept, hdrop, -, -, hcombine⟩
  · rw [hcombine] at h
    exact Or.inl (List.mem_singleton.1 h)
  · rw [hcombine] at h
    exact Or.inl (List.mem_singleton.1 h)
  · rw [hcombine] at h
    exact Or.inr ⟨e, hmem hdrop e List.mem_cons_self, h⟩
  · rw [hcombine, leaves, mem_leavesAll] at h
    obtain ⟨e, he, hleaf⟩ := h
    exact Or.inr ⟨e, hmem hdrop e he, hleaf⟩

/-- A lookup in a compiled expression is one of the expression, with the flag that its snapshot
gives it. -/
theorem access_of_mem_leaves_compile {live : Live} {e : Expr} {binding : Binding} {lookup : Lookup}
    {iterable : Bool} (h : access binding lookup iterable ∈ (compile live e).1.leaves) :
    iterable = (ordersLookup live binding lookup).1 ∧
      ∃ before, access binding lookup before ∈ e.leaves := by
  induction e with
  | empty => cases List.mem_singleton.1 h
  | nodes => cases List.mem_singleton.1 h
  | access b l before =>
    have hleaf : access binding lookup iterable = access b l (ordersLookup live b l).1 :=
      List.mem_singleton.1 h
    obtain ⟨rfl, rfl, rfl⟩ := access.inj hleaf
    exact ⟨rfl, before, List.mem_singleton.2 rfl⟩
  | set op es _ ih =>
    rw [compile_set, compileAll_eq_map] at h
    rcases leaves_combine h with hempty | ⟨e', he', hleaf⟩
    · cases hempty
    · obtain ⟨e, he, rfl⟩ := List.mem_map.1 he'
      obtain ⟨hflag, before, hbefore⟩ := ih e he hleaf
      exact ⟨hflag, before, mem_leavesAll.2 ⟨e, he, hbefore⟩⟩

/-- A lookup in a compiled expression is said to ascend only if its snapshot promises so. -/
theorem promises_of_compile {live : Live} {e : Expr} {binding : Binding} {lookup : Lookup}
    (h : access binding lookup true ∈ (compile live e).1.leaves) :
    ∃ s, live.find? binding = some s ∧ s.promises lookup = true := by
  have hflag := (access_of_mem_leaves_compile h).1
  cases hs : live.find? binding with
  | none =>
    rw [ordersLookup, hs] at hflag
    cases hflag
  | some s => exact ⟨s, rfl, (ordersLookup_eq_promises hs lookup).symm.trans hflag.symm⟩

theorem promised_compile (live : Live) (e : Expr) : (compile live e).1.Promised live := by
  intro binding lookup hleaf s hs
  obtain ⟨s', hs', hpromises⟩ := promises_of_compile hleaf
  obtain rfl := Option.some.inj (hs.symm.trans hs')
  exact hpromises

theorem Built.promised {history : Live} {e : Expr} (h : e.Built history) : e.Promised history := by
  induction h with
  | empty => exact fun b l hleaf => by cases List.mem_singleton.1 hleaf
  | nodes => exact fun b l hleaf => by cases List.mem_singleton.1 hleaf
  | lookup => exact fun b l hleaf => by cases List.mem_singleton.1 hleaf
  | set op _ ih => exact promised_set.2 ih
  | compiled hwithin _ _ =>
    intro b l hleaf s hs
    obtain ⟨s', hs', hpromises⟩ := promises_of_compile hleaf
    obtain rfl := Option.some.inj (hs.symm.trans (hwithin b s' hs'))
    exact hpromises
  | operand _ he ih => exact promised_set.1 ih _ he

theorem Promised.within {live history : Live} (hwithin : live.Within history) {e : Expr}
    (h : e.Promised history) : e.Promised live :=
  fun b l hleaf s hs => h b l hleaf s (hwithin b s hs)

/-! ## What is said to ascend does so -/

section Evaluating

variable {live : Live} {hears : List SignalId → Bool}

theorem source_nodes {binding : Binding} {pres : List Nat} {src : Source}
    (h : (nodes binding pres).source live = .ok src) :
    ∃ s, live.find? binding = some s ∧ src = .ofNodes (pres.map fun pre => ⟨s.id, pre⟩) := by
  simp only [source, Live.resolve] at h
  cases hs : live.find? binding with
  | none => rw [hs] at h; cases h
  | some s =>
    rw [hs] at h
    exact ⟨s, rfl, (Except.ok.inj h).symm⟩

theorem source_access {binding : Binding} {lookup : Lookup} {iterable : Bool} {src : Source} :
    (access binding lookup iterable).source live = .ok src ↔
      ∃ s, live.find? binding = some s ∧ lookup.fault? = none ∧ src = .ofLookup s lookup := by
  simp only [source, openLookup, Live.resolve]
  cases live.find? binding with
  | none => simp [bind, Except.bind]
  | some s =>
    cases lookup.fault? with
    | none => simp [bind, Except.bind, eq_comm]
    | some fault => simp [bind, Except.bind]

/-- **The nodes of an expression that is said to be iterable ascend**, even if they end with a
fault. -/
theorem ascends_of_iterable (hindexes : ∀ s ∈ live.snapshots, s.index.KeepsOrder) {e : Expr}
    (he : e.Promised live) (hiterable : e.iterable = true) {src : Source}
    (h : e.source live = .ok src) : (src.script.heard hears).Pairwise (· < ·) := by
  induction e generalizing src with
  | empty =>
    obtain rfl := Except.ok.inj h
    exact List.Pairwise.nil
  | nodes binding pres =>
    obtain ⟨s, _, rfl⟩ := source_nodes h
    rw [Source.ofNodes, Script.heard_ofNodes]
    exact pairwise_nodes (isAscending_nat.1 hiterable) s.id
  | access binding lookup iterable =>
    obtain ⟨s, hs, _, rfl⟩ := source_access.1 h
    have hiterable : iterable = true := hiterable
    subst hiterable
    exact Source.ascends_ofLookup (hindexes s (List.mem_of_find?_eq_some hs))
      (he binding lookup (List.mem_singleton.2 rfl) s hs)
  | set op es iterable ih =>
    obtain ⟨operands, hoperands, rfl⟩ := source_set.1 h
    refine (Source.lists_ofSet op fun o ho hsorted => ?_).ascends
    obtain ⟨e, he', hsource, hflag⟩ := exists_of_mem_operandsFrom hoperands ho
    exact ih e he' (promised_set.1 he e he') (hflag.trans hsorted) hsource

/-! ## The compiled expression -/

/-- Compiling takes no flag away from an expression that can be opened. -/
theorem iterable_compile {e : Expr} (he : e.Promised live) (hiterable : e.iterable = true)
    {src : Source} (h : e.source live = .ok src) : (compile live e).1.iterable = true := by
  cases e with
  | empty => exact hiterable
  | nodes => exact hiterable
  | access binding lookup iterable =>
    obtain ⟨s, hs, _⟩ := source_access.1 h
    have hiterable : iterable = true := hiterable
    subst hiterable
    have hpromises := he binding lookup (List.mem_singleton.2 rfl) s hs
    exact (ordersLookup_eq_promises hs lookup).trans hpromises
  | set op es iterable =>
    rw [compile_set]
    exact iterable_combine op _

/-- The compiled expression can be opened too, and its script serves. -/
def ServedByCompiled (hears : List SignalId → Bool) (live : Live) (e : Expr) : Prop :=
  ∀ src, e.source live = .ok src →
    ∃ src', (compile live e).1.source live = .ok src' ∧ src.script.ServedBy hears src'.script

/-- An expression that is compiled to the empty one has nothing to give. -/
theorem ServedByCompiled.heard_eq_nil {e : Expr} (h : ServedByCompiled hears live e)
    (hempty : (compile live e).1.isEmpty = true) {src : Source}
    (hsource : e.source live = .ok src) : src.script.heard hears = [] := by
  obtain ⟨src', hsource', hserves⟩ := h src hsource
  cases hcompiled : (compile live e).1 with
  | empty =>
    rw [hcompiled] at hsource'
    obtain rfl := Except.ok.inj hsource'
    exact List.prefix_nil.1 hserves.nodes
  | nodes => rw [hcompiled] at hempty; cases hempty
  | access => rw [hcompiled] at hempty; cases hempty
  | set => rw [hcompiled] at hempty; cases hempty

/-- Opening what is left of the compiled operands. -/
theorem exists_kept (hindexes : ∀ s ∈ live.snapshots, s.index.KeepsOrder) {op : SetOp}
    {first : Bool} {position : Nat} (position' : Nat) {es kept : List Expr}
    {operands : List Operand} (hes : ∀ e ∈ es, e.Promised live)
    (hserved : ∀ e ∈ es, ServedByCompiled hears live e)
    (hoperands : operandsFrom live op position es = .ok operands)
    (hkept : (dropEmpty op first (es.map fun e => (compile live e).1)).1 = some kept) :
    ∃ operands', operandsFrom live op position' kept = .ok operands' ∧
      Operand.Reduces hears op first operands operands' := by
  induction es generalizing first position position' kept operands with
  | nil =>
    obtain rfl := Option.some.inj hkept
    obtain rfl := Except.ok.inj hoperands
    exact ⟨[], rfl, .nil⟩
  | cons e rest ih =>
    obtain ⟨he, hrest⟩ := List.forall_mem_cons.1 hes
    obtain ⟨hfirst, hothers⟩ := List.forall_mem_cons.1 hserved
    obtain ⟨src, others, hsource, hopened, rfl⟩ := operandsFrom_cons.1 hoperands
    obtain ⟨src', hsource', hserves⟩ := hfirst src hsource
    rw [List.map_cons] at hkept
    cases hempty : (compile live e).1.isEmpty with
    | true =>
      rw [dropEmpty_cons_of_empty _ hempty] at hkept
      split at hkept
      · cases hkept
      · rename_i hop
        obtain ⟨operands', hopened', hr⟩ := ih position' hrest hothers hopened hkept
        have hmay : op.MayDrop first := by
          cases op <;> cases first <;> simp_all [SetOp.MayDrop]
        exact ⟨operands', hopened', .drop (hfirst.heard_eq_nil hempty hsource) hmay hr⟩
    | false =>
      rw [dropEmpty_cons_of_nonempty _ hempty] at hkept
      obtain ⟨kept', hkept', rfl⟩ := Option.map_eq_some_iff.1 hkept
      obtain ⟨operands', hopened', hr⟩ := ih (position' + 1) hrest hothers hopened hkept'
      refine ⟨_, operandsFrom_cons.2 ⟨src', operands', hsource', hopened', rfl⟩, .keep ?_ hr⟩
      exact ⟨hserves, fun hsorted => iterable_compile he hsorted hsource,
        fun hsorted => ascends_of_iterable hindexes (promised_compile live e) hsorted hsource'⟩

/-- An operator that is compiled to the empty expression for the sake of one operand has nothing to
give. -/
theorem heard_ofSet_eq_nil (hindexes : ∀ s ∈ live.snapshots, s.index.KeepsOrder) {op : SetOp}
    {es : List Expr} {operands : List Operand} (hes : ∀ e ∈ es, e.Promised live)
    (hserved : ∀ e ∈ es, ServedByCompiled hears live e)
    (hoperands : operandsFrom live op 0 es = .ok operands)
    (hdrop : (dropEmpty op true (es.map fun e => (compile live e).1)).1 = none) :
    (Source.ofSet op operands).script.heard hears = [] := by
  have hsound : ∀ o ∈ operands, o.Sound hears := by
    intro o ho hsorted
    obtain ⟨e, he, hsource, hflag⟩ := exists_of_mem_operandsFrom hoperands ho
    exact ascends_of_iterable hindexes (hes e he) (hflag.trans hsorted) hsource
  have hidle : ∀ o : Operand, o.source.script.heard hears = [] → ∀ node, node ∉ o.nodes hears :=
    fun o ho node hn => by
      rw [Operand.mem_nodes, ho] at hn
      cases hn
  rw [List.eq_nil_iff_forall_not_mem]
  intro node hn
  have hselected := (Source.lists_ofSet op hsound).sound node hn
  rcases dropEmpty_eq_none hdrop with ⟨rfl, e', he', hempty⟩ | ⟨rfl, _, e', rest', hmap, hempty⟩
  · obtain ⟨e, he, rfl⟩ := List.mem_map.1 he'
    obtain ⟨o, ho, hsource⟩ := exists_operand_of_mem hoperands he
    apply hidle o ((hserved e he).heard_eq_nil hempty hsource) node
    exact hselected.2 _ (List.mem_map.2 ⟨o, ho, rfl⟩)
  · obtain ⟨e, rest, rfl, rfl, rfl⟩ := List.map_eq_cons_iff.1 hmap
    obtain ⟨src, others, hsource, _, rfl⟩ := operandsFrom_cons.1 hoperands
    have he := (hserved e List.mem_cons_self).heard_eq_nil hempty hsource
    exact hidle { source := src, sorted := e.iterable } he node hselected.1

/-- **The script of an expression is served by the script of the compiled one.**  The induction is
on the expression. -/
theorem served_compile (hindexes : ∀ s ∈ live.snapshots, s.index.KeepsOrder) {e : Expr}
    (he : e.Promised live) : ServedByCompiled hears live e := by
  induction e with
  | empty => exact fun src h => ⟨src, h, .refl _⟩
  | nodes => exact fun src h => ⟨src, h, .refl _⟩
  | access binding lookup iterable =>
    intro src h
    exact ⟨src, source_access.2 (source_access.1 h), .refl _⟩
  | set op es iterable ih =>
    intro src h
    obtain ⟨operands, hoperands, rfl⟩ := source_set.1 h
    have hes := promised_set.1 he
    have hserved : ∀ e ∈ es, ServedByCompiled hears live e := fun e he' => ih e he' (hes e he')
    have hkept : ∀ {kept}, (dropEmpty op true (es.map fun e => (compile live e).1)).1 = some kept →
        ∃ operands', operandsFrom live op 0 kept = .ok operands' ∧
          Operand.Reduces hears op true operands operands' := fun hdrop =>
      exists_kept hindexes 0 hes hserved hoperands hdrop
    rw [compile_set, compileAll_eq_map]
    rcases combine_cases op (es.map fun e => (compile live e).1) with ⟨hdrop, hcombine⟩ |
      ⟨hdrop, hcombine⟩ | ⟨e', hdrop, hiterable, hcombine⟩ | ⟨kept, hdrop, -, -, hcombine⟩
    · have hnil := heard_ofSet_eq_nil hindexes hes hserved hoperands hdrop
      rw [hcombine]
      refine ⟨.empty, rfl, hnil ▸ List.nil_prefix, fun _ => ⟨Script.clean_empty, hnil.symm⟩⟩
    · obtain ⟨operands', hoperands', hr⟩ := hkept hdrop
      obtain rfl := Except.ok.inj hoperands'
      have hserves := Source.served_ofSet hr
      rw [Source.ofSet_nil] at hserves
      rw [hcombine]
      exact ⟨.empty, rfl, hserves⟩
    · obtain ⟨operands', hoperands', hr⟩ := hkept hdrop
      obtain ⟨src', others, hsource', hothers, rfl⟩ := operandsFrom_cons.1 hoperands'
      obtain rfl := Except.ok.inj hothers
      rw [hcombine]
      exact ⟨src', hsource', (Source.served_ofSet hr).trans (Source.served_single op hiterable)⟩
    · obtain ⟨operands', hoperands', hr⟩ := hkept hdrop
      rw [hcombine]
      exact ⟨_, source_set.2 ⟨operands', hoperands', rfl⟩, Source.served_ofSet hr⟩

end Evaluating

/-- **Compiling never changes a successful answer.**  Where the plain expression has a value, the
compiled one has the same; so where the compiled one fails, the plain one fails too.  Snapshots may
be gone, intervals inverted, and entries of indexes wrong; indexes only have to keep their promises
of order. -/
theorem value_compile {live history : Live} (hlive : live.Within history)
    (hindexes : ∀ s ∈ live.snapshots, s.index.KeepsOrder) {e : Expr} (he : e.Built history)
    (signals : Signals) (signal : SignalId) :
    (∀ nodes, (e.value live signals signal).result = .ok nodes →
      ((compile live e).1.value live signals signal).result = .ok nodes) ∧
    ∀ fault, ((compile live e).1.value live signals signal).result = .error fault →
      ∃ fault', (e.value live signals signal).result = .error fault' := by
  have hkeeps : ∀ nodes, (e.value live signals signal).result = .ok nodes →
      ((compile live e).1.value live signals signal).result = .ok nodes := by
    intro nodes hvalue
    obtain ⟨hraised, src, hsource, hclean, hheard⟩ := value_eq_ok.1 hvalue
    obtain ⟨src', hsource', hserved⟩ :=
      served_compile hindexes (he.promised.within hlive) src hsource
    obtain ⟨hclean', hsame⟩ := hserved.complete hclean
    exact value_eq_ok.2 ⟨hraised, src', hsource', hclean', hsame.trans hheard⟩
  refine ⟨hkeeps, ?_⟩
  intro fault hfault
  cases hvalue : (e.value live signals signal).result with
  | error fault' => exact ⟨fault', rfl⟩
  | ok nodes =>
    rw [hkeeps nodes hvalue] at hfault
    cases hfault

/-- A union with an empty operand, over an index that orders all of its answers and is right about a
value, but wrong about an interval. -/
theorem value_compile_union :
    let row : Bytes → Row := fun value => ⟨.text, 1, 1, 0, 0, value⟩
    let index : ValueIndex :=
      { enabled := fun _ => true, maxLength := 8, exact := fun _ _ => [⟨0, []⟩, ⟨2, []⟩]
        range := fun _ => [⟨1, []⟩], orderedRanges := true }
    let s : Snapshot := ⟨0, "books", { rows := #[row [98], row [97], row [98]] }, index⟩
    let live : Live := ⟨[s]⟩
    let union : Lookup → Expr := fun lookup =>
      .set .union [.access s.binding lookup false, .empty] false
    let value : Lookup := .exact .text [98]
    let interval : Lookup := .range ⟨.text, some [98], true, none, true⟩
    ((union value).value live .empty 0).result = .ok [⟨0, 0⟩, ⟨0, 2⟩] ∧
      ((compile live (union value)).1.value live .empty 0).result = .ok [⟨0, 0⟩, ⟨0, 2⟩] ∧
      ((compile live (union interval)).1.value live .empty 0).result =
        .error (.indexInconsistent interval 1 .mismatch) ∧
      ∃ fault, ((union interval).value live .empty 0).result = .error fault := by
  intro row index s live union value interval
  have hindexes : ∀ s ∈ live.snapshots, s.index.KeepsOrder := by
    intro s hs lookup _
    obtain rfl := List.mem_singleton.1 hs
    cases lookup <;> simp [ValueIndex.answer, s, index]
  have hbuilt : ∀ lookup, (union lookup).Built live := by
    intro lookup
    refine .set .union fun e he => ?_
    simp only [List.mem_cons, List.not_mem_nil, or_false] at he
    rcases he with rfl | rfl
    · exact .lookup _ _
    · exact .empty
  have hplain : ((union value).value live .empty 0).result = .ok [⟨0, 0⟩, ⟨0, 2⟩] := by cbv
  have hfails : ((compile live (union interval)).1.value live .empty 0).result =
      .error (.indexInconsistent interval 1 .mismatch) := by cbv
  have hkeeps := @value_compile live live (fun _ _ h => h) hindexes
  exact ⟨hplain, (hkeeps (hbuilt value) .empty 0).1 _ hplain, hfails,
    (hkeeps (hbuilt interval) .empty 0).2 _ hfails⟩

end Expr

end XmlStore
