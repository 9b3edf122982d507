import Mathlib.Algebra.Order.BigOperators.Group.List
import Mathlib.Algebra.Order.Ring.Nat
import XmlStore.Proofs.Compiling
import XmlStore.Proofs.Keeping
import XmlStore.Proofs.LookupCourses

/-!
# How many nodes an operator gives

Every node that comes out of a merge is paid for by the slots, in whatever order their nodes come.

* `SetOp.most`, `SetOp.Within` — how many nodes an operator may give, by how many its operands
  supply.
* `Script.most_round` — a round takes what comes out of it from the slots; `Script.Merges.length_le`
  is the same of a whole merge.
* `Expr.supply`, `Expr.entries` — the nodes that an expression supplies, and the entries that its
  leaves list.  `Expr.length_nodes_set` and `Expr.supply_le_entries` bound them.
-/

namespace XmlStore

/-! ## Bounds -/

namespace SetOp

/-- The most nodes that an operator gives if its operands supply so many. -/
def most : SetOp → List Nat → Nat
  | union, supplies => supplies.sum
  | intersect, supplies => supplies.min?.getD 0
  | except, supplies => supplies.headD 0

/-- An operator gives no more nodes than its operands supply in all, an intersection no more than
any of them, and a difference no more than the first one. -/
structure Within (op : SetOp) (supplies : List Nat) (count : Nat) : Prop where
  total : count ≤ supplies.sum
  each : op = .intersect → ∀ n ∈ supplies, count ≤ n
  first : op = .except → count ≤ supplies.headD 0

theorem min?_getD_le {supplies : List Nat} {n : Nat} (h : n ∈ supplies) :
    supplies.min?.getD 0 ≤ n := by
  cases hmin : supplies.min? with
  | none =>
    rw [List.min?_eq_none_iff] at hmin
    rw [hmin] at h
    cases h
  | some m => exact (List.le_min?_iff hmin).1 (Nat.le_refl m) n h

theorem exists_of_forall₂ {α β : Type} {rel : α → β → Prop} {as : List α} {bs : List β}
    (h : List.Forall₂ rel as bs) {b : β} (hb : b ∈ bs) : ∃ a ∈ as, rel a b := by
  induction h with
  | nil => cases hb
  | cons hfirst _ ih =>
    rcases List.mem_cons.1 hb with rfl | hb
    · exact ⟨_, List.mem_cons_self, hfirst⟩
    · obtain ⟨a, ha, hrel⟩ := ih hb
      exact ⟨a, List.mem_cons_of_mem _ ha, hrel⟩

/-- An intersection gives fewer nodes by what all operands supply less. -/
theorem min?_getD_add_le {k : Nat} {left supplies : List Nat}
    (h : List.Forall₂ (fun a b => a + k ≤ b) left supplies) (hne : supplies ≠ []) :
    left.min?.getD 0 + k ≤ supplies.min?.getD 0 := by
  obtain ⟨m, hmin⟩ := Option.isSome_iff_exists.1 (List.isSome_min?_of_ne_nil hne)
  obtain ⟨a, ha, hle⟩ := exists_of_forall₂ h (List.min?_mem hmin)
  rw [hmin]
  exact Nat.le_trans (Nat.add_le_add_right (min?_getD_le ha) k) hle

theorem most_mono (op : SetOp) {supplies more : List Nat}
    (h : List.Forall₂ (· ≤ ·) supplies more) : op.most supplies ≤ op.most more := by
  cases op with
  | union => exact List.Forall₂.sum_le_sum h
  | intersect =>
    rcases eq_or_ne more [] with rfl | hne
    · cases h
      exact Nat.le_refl _
    · exact min?_getD_add_le (k := 0) h hne
  | except =>
    cases h with
    | nil => exact Nat.le_refl _
    | cons hfirst _ => exact hfirst

theorem most_le_sum (op : SetOp) (supplies : List Nat) : op.most supplies ≤ supplies.sum := by
  cases supplies with
  | nil => cases op <;> exact Nat.le_refl 0
  | cons n rest =>
    cases op with
    | union => exact Nat.le_refl _
    | intersect =>
      exact Nat.le_trans (min?_getD_le List.mem_cons_self) (List.le_sum_of_mem List.mem_cons_self)
    | except => exact List.le_sum_of_mem List.mem_cons_self

theorem within_of_le_most {op : SetOp} {supplies : List Nat} {count : Nat}
    (h : count ≤ op.most supplies) : op.Within supplies count where
  total := h.trans (op.most_le_sum supplies)
  each hop _ hn := h.trans (hop ▸ min?_getD_le hn)
  first hop := h.trans (hop ▸ Nat.le_refl _)

end SetOp

/-! ## Slots -/

namespace Script

theorem yields_eq_length (s : Script) : s.yields = s.nodes.length := by
  unfold yields nodes
  induction s.steps with
  | nil => rfl
  | cons step rest ih =>
    cases step with
    | yield node =>
      rw [List.countP_cons_of_pos rfl, ih, Step.filterMap_yield]
      rfl
    | _ => exact ih

theorem work_eq_sum (slots : List Slot) : work slots = (slots.map Slot.work).sum := by
  induction slots with
  | nil => rfl
  | cons s rest ih => rw [work, ih, List.map_cons, List.sum_cons]

variable {op : SetOp}

/-- What is moved slot by slot keeps its place. -/
theorem forall₂_moveAll {rel : Slot → Slot → Prop} {move : Slot → Stretch Slot}
    {slots next : List Slot} (h : (moveAll move slots).result = .ok next)
    (hmove : ∀ s ∈ slots, ∀ t, (move s).result = .ok t → rel t s) :
    List.Forall₂ rel next slots := by
  induction slots generalizing next with
  | nil =>
    obtain rfl := Except.ok.inj h
    exact .nil
  | cons s rest ih =>
    obtain ⟨hs, hrest⟩ := List.forall_mem_cons.1 hmove
    obtain ⟨t, ht, h⟩ := Stretch.bind_eq_ok h
    obtain ⟨ts, hts, h⟩ := Stretch.bind_eq_ok h
    obtain rfl := Except.ok.inj h
    exact .cons (hs t ht) (ih hts hrest)

theorem work_moveIf_le {which : Slot → Bool} {s t : Slot}
    (h : (moveIf op which s).result = .ok t) : t.work ≤ s.work := by
  unfold moveIf at h
  split at h
  · exact Slot.work_advance_le h
  · obtain rfl := Except.ok.inj h
    exact Nat.le_refl _

/-- **A round takes what comes out of it from the slots.** -/
theorem most_round {slots next : List Slot} {out : Option Node}
    {st : Stretch (Option Node × List Slot)} (h : round op slots = some st)
    (hst : st.result = .ok (out, next)) :
    op.most (next.map Slot.work) + out.toList.length ≤ op.most (slots.map Slot.work) := by
  cases turn_of_round h with
  | @earliest _ node hmin =>
    obtain ⟨next, hnext, hst⟩ := Stretch.bind_eq_ok hst
    obtain ⟨rfl, rfl⟩ := Prod.mk.inj (Except.ok.inj hst)
    obtain ⟨s, hs, hfront⟩ := List.mem_filterMap.1 (Node.earliest?_mem hmin)
    rw [← advanceWhere_eq_moveAll] at hnext
    have hlt := work_advanceWhere_lt hnext hs (by simp [hfront]) (by simp [hfront])
    rw [work_eq_sum, work_eq_sum] at hlt
    exact hlt
  | @common slots nodes node hfronts hmax _ =>
    obtain ⟨next, hnext, hst⟩ := Stretch.bind_eq_ok hst
    obtain ⟨rfl, rfl⟩ := Prod.mk.inj (Except.ok.inj hst)
    obtain ⟨s, hs, _⟩ := (mem_of_fronts? hfronts).1 (Node.latest?_mem hmax)
    refine SetOp.min?_getD_add_le ?_ (List.ne_nil_of_mem (List.mem_map_of_mem hs))
    rw [List.forall₂_map_left_iff, List.forall₂_map_right_iff]
    refine forall₂_moveAll hnext fun s hs t ht => ?_
    exact Slot.work_advance_lt ht (front_of_mem_fronts? hfronts hs)
  | behind hfronts hmax =>
    obtain ⟨next, hnext, hst⟩ := Stretch.bind_eq_ok hst
    obtain ⟨rfl, rfl⟩ := Prod.mk.inj (Except.ok.inj hst)
    refine SetOp.most_mono .intersect ?_
    rw [List.forall₂_map_left_iff, List.forall₂_map_right_iff]
    exact forall₂_moveAll hnext fun _ _ _ ht => work_moveIf_le ht
  | @first first rest node hfront =>
    obtain ⟨others, hothers, hst⟩ := Stretch.bind_eq_ok hst
    obtain ⟨next, hnext, hst⟩ := Stretch.bind_eq_ok hst
    obtain ⟨rfl, rfl⟩ := Prod.mk.inj (Except.ok.inj hst)
    have hlt : next.work < first.work := Slot.work_advance_lt hnext (by simp [hfront])
    show next.work + _ ≤ first.work
    split
    · exact Nat.le_of_lt hlt
    · exact hlt

theorem nodes_after_of_silent (s : Script) {steps : List (Step Node)}
    (h : Step.allSilent steps = true) : (s.after steps).nodes = s.nodes := by
  rw [nodes, after, List.filterMap_append, Step.filterMap_of_silent h]
  rfl

theorem length_nodes_after_emit (s : Script) {steps : List (Step Node)}
    (h : Step.allSilent steps = true) (out : Option Node) :
    (s.after (steps ++ emit out)).nodes.length = s.nodes.length + out.toList.length := by
  have hsplit : s.after (steps ++ emit out) = (s.after (emit out)).after steps := by
    simp [after]
  rw [hsplit, nodes_after_of_silent _ h]
  cases out <;> rfl

/-- **A merge gives no more nodes than its slots can pay for.**  The induction is on the rounds. -/
theorem Merges.length_le {slots : List Slot} {s : Script} (h : Merges op slots s) :
    s.nodes.length ≤ op.most (slots.map Slot.work) := by
  induction h with
  | finished => exact Nat.zero_le _
  | failed hround =>
    rw [nodes, Step.filterMap_of_silent (silent_round hround)]
    exact Nat.zero_le _
  | @next slots next steps out s hround _ ih =>
    rw [length_nodes_after_emit _ (silent_round hround)]
    exact Nat.le_trans (Nat.add_le_add_right ih _) (most_round hround rfl)

end Script

/-! ## Operands -/

theorem length_sortDistinct_le (nodes : List Node) :
    (sortDistinct nodes).length ≤ nodes.length := by
  have hrepeats : ∀ l : List Node, (dropRepeats l).length ≤ l.length := by
    intro l
    fun_induction dropRepeats l with
    | case1 a rest ih => exact Nat.le_succ_of_le ih
    | case2 a b rest _ ih => exact Nat.succ_le_succ ih
    | case3 => exact Nat.le_refl _
  exact (hrepeats _).trans_eq (List.length_mergeSort _)

namespace Operand

variable {op : SetOp} {position : Nat}

/-- A slot has no more nodes than its operand. -/
theorem work_start {o : Operand} {slot : Script.Slot}
    (h : (o.start op position).result = .ok slot) : slot.work ≤ o.source.script.nodes.length := by
  obtain ⟨script, hscript, hslot⟩ := Script.Stretch.bind_eq_ok h
  have hlength : script.nodes.length ≤ o.source.script.nodes.length := by
    split at hscript
    · obtain rfl := Except.ok.inj hscript
      exact Nat.le_refl _
    · unfold read at hscript
      split at hscript
      · cases hscript
      · obtain rfl := Except.ok.inj hscript
        rw [Script.nodes_ofNodes]
        exact length_sortDistinct_le _
  have hwork : slot.work ≤ script.yields := Script.Slot.work_advance hslot
  exact Nat.le_trans hwork (script.yields_eq_length ▸ hlength)

theorem work_startAll {operands : List Operand} {slots : List Script.Slot}
    (h : (startAll op position operands).result = .ok slots) :
    List.Forall₂ (fun slot o => slot.work ≤ o.source.script.nodes.length) slots operands := by
  induction operands generalizing position slots with
  | nil =>
    obtain rfl := Except.ok.inj h
    exact .nil
  | cons o rest ih =>
    obtain ⟨slot, hslot, h⟩ := Script.Stretch.bind_eq_ok h
    obtain ⟨others, hothers, h⟩ := Script.Stretch.bind_eq_ok h
    obtain rfl := Except.ok.inj h
    exact .cons (work_start hslot) (ih hothers)

end Operand

/-- **An operator gives no more nodes than its operands can pay for**, whether or not it fails. -/
theorem Source.length_nodes_ofSet (op : SetOp) (operands : List Operand) :
    (ofSet op operands).script.nodes.length ≤
      op.most (operands.map fun o => o.source.script.nodes.length) := by
  have hsilent := Operand.silent_startAll op 0 operands
  unfold ofSet
  split <;> rename_i hstart <;> rw [hstart] at hsilent
  · rw [Script.nodes, Step.filterMap_of_silent hsilent]
    exact Nat.zero_le _
  · rename_i slots
    have hslots : List.Forall₂ (· ≤ ·) (slots.map Script.Slot.work)
        (operands.map fun o => o.source.script.nodes.length) := by
      rw [List.forall₂_map_left_iff, List.forall₂_map_right_iff]
      exact Operand.work_startAll (congrArg Script.Stretch.result hstart)
    rw [Script.nodes_after_of_silent _ hsilent]
    exact (Script.merges_merge op slots).length_le.trans (op.most_mono hslots)

/-! ## Expressions -/

theorem Script.length_nodes_ofSteps {snapshot : Nat} {fault? : Nat → Option Fault}
    (steps : List (Step Nat)) :
    (ofSteps snapshot fault? steps).nodes.length ≤ (steps.filterMap Step.result?).length := by
  have hprefix : (ofSteps snapshot fault? steps).heard (fun _ => false) <+:
      (steps.filterMap Step.result?).map fun pre => ⟨snapshot, pre⟩ := heard_ofSteps steps
  rw [heard, Step.heard_of_quiet (Step.allQuiet_deaf _)] at hprefix
  exact hprefix.length_le.trans_eq (List.length_map _)

theorem Source.length_nodes_ofLookup (s : Snapshot) (lookup : Lookup) :
    (ofLookup s lookup).script.nodes.length ≤ (s.listed lookup).length := by
  unfold ofLookup Snapshot.listed
  split
  · rw [← Step.filterMap_result?_entries]
    exact Script.length_nodes_ofSteps _
  · rw [← Snapshot.filterMap_scanSteps]
    exact Script.length_nodes_ofSteps _

namespace Expr

variable {live : Live}

/-- The nodes that an expression supplies if it is read alone, up to its end or its fault; none if
it cannot be opened. -/
def supply (live : Live) (e : Expr) : Nat :=
  match e.source live with
  | .ok src => src.script.nodes.length
  | .error _ => 0

mutual

/-- The entries that can come out of an expression, counted at its leaves: the positions that are
listed, the answer of an index, or the rows that a scan finds. -/
def entries (live : Live) : Expr → Nat
  | empty => 0
  | nodes _ pres => pres.length
  | access binding lookup _ => ((live.find? binding).map fun s => (s.listed lookup).length).getD 0
  | set op operands _ => op.most (entriesAll live operands)

/-- The entries of several expressions. -/
def entriesAll (live : Live) : List Expr → List Nat
  | [] => []
  | e :: rest => entries live e :: entriesAll live rest

end

theorem entriesAll_eq_map (es : List Expr) : entriesAll live es = es.map (entries live) := by
  induction es with
  | nil => rfl
  | cons e rest ih => rw [entriesAll, ih, List.map_cons]

theorem supply_of_source {e : Expr} {src : Source} (h : e.source live = .ok src) :
    e.supply live = src.script.nodes.length := by
  rw [supply, h]

theorem map_supply {op : SetOp} {position : Nat} {es : List Expr} {operands : List Operand}
    (h : operandsFrom live op position es = .ok operands) :
    es.map (supply live) = operands.map fun o => o.source.script.nodes.length := by
  induction es generalizing position operands with
  | nil =>
    obtain rfl := Except.ok.inj h
    rfl
  | cons e rest ih =>
    obtain ⟨src, others, hsource, hothers, rfl⟩ := operandsFrom_cons.1 h
    rw [List.map_cons, List.map_cons, supply_of_source hsource, ih hothers]

/-- **An operator gives no more nodes than its operands supply.** -/
theorem length_nodes_set {op : SetOp} {es : List Expr} {iterable : Bool} {src : Source}
    (h : (set op es iterable).source live = .ok src) :
    src.script.nodes.length ≤ op.most (es.map (supply live)) := by
  obtain ⟨operands, hoperands, rfl⟩ := source_set.1 h
  rw [map_supply hoperands]
  exact Source.length_nodes_ofSet op operands

theorem supply_le {e : Expr} {n : Nat}
    (h : ∀ src, e.source live = .ok src → src.script.nodes.length ≤ n) : e.supply live ≤ n := by
  cases hsource : e.source live with
  | error fault =>
    rw [supply, hsource]
    exact Nat.zero_le n
  | ok src => exact supply_of_source hsource ▸ h src hsource

/-- **An expression supplies no more nodes than its leaves have entries.**  The induction is on the
expression. -/
theorem supply_le_entries (e : Expr) : e.supply live ≤ e.entries live := by
  induction e with
  | empty => exact Nat.le_refl 0
  | nodes binding pres =>
    refine supply_le fun src hsource => ?_
    obtain ⟨s, _, rfl⟩ := source_nodes hsource
    rw [Source.ofNodes, Script.nodes_ofNodes, List.length_map]
    exact Nat.le_refl _
  | access binding lookup iterable =>
    refine supply_le fun src hsource => ?_
    obtain ⟨s, hs, _, rfl⟩ := source_access.1 hsource
    rw [entries, hs]
    exact Source.length_nodes_ofLookup s lookup
  | set op es iterable ih =>
    refine supply_le fun src hsource => ?_
    rw [entries, entriesAll_eq_map]
    refine (length_nodes_set hsource).trans (op.most_mono ?_)
    rw [List.forall₂_map_left_iff, List.forall₂_map_right_iff, List.forall₂_same]
    exact ih

end Expr

end XmlStore
