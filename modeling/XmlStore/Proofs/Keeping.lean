import XmlStore.Proofs.Opening
import XmlStore.Proofs.Operands

/-!
# What merges keep

A merge makes nothing up: its nodes are nodes of its operands, and its fault is the fault of one of
them, seen from the operator.  Nothing is asked of the order in which the nodes come, which an index
may get wrong.

* `Script.Confined` — the nodes of a script are of a sort, and so is its fault, if it has one.
* `Script.Slot.Confined` — the same of a slot, whose fault is seen from the operator.  Moving on
  keeps this (`Slot.confined_advance`), hence so do a round and a whole merge
  (`Script.Merges.confined`).
* `Source.confined_ofSet` — the script of an operator is confined as its operands are.
-/

namespace XmlStore

namespace Script

/-- The nodes of a script are of a sort, and so is its fault, if it has one. -/
structure Confined (faults : Fault → Prop) (nodes : Node → Prop) (s : Script) : Prop where
  fault : ∀ fault, s.fault = some fault → faults fault
  nodes : ∀ node ∈ s.nodes, nodes node

/-- A stretch leads to a result of a sort, or to a fault of a sort. -/
def Stretch.Confined {α : Type} (faults : Fault → Prop) (ok : α → Prop) (st : Stretch α) : Prop :=
  match st.result with
  | .ok a => ok a
  | .error fault => faults fault

theorem Stretch.Confined.bind {α β : Type} {faults : Fault → Prop} {ok : α → Prop} {ok' : β → Prop}
    {st : Stretch α} (h : st.Confined faults ok) {next : α → Stretch β}
    (hnext : ∀ a, ok a → (next a).Confined faults ok') : (st.bind next).Confined faults ok' := by
  obtain ⟨steps, result⟩ := st
  cases result with
  | error fault => exact h
  | ok a => exact hnext a h

variable {op : SetOp} {faults : Fault → Prop} {nodes : Node → Prop}

theorem confined_empty : empty.Confined faults nodes where
  fault _ h := by cases h
  nodes _ h := by cases h

theorem confined_ofNodes {listed : List Node} (h : ∀ node ∈ listed, nodes node) :
    (ofNodes listed).Confined faults nodes where
  fault _ h := by cases h
  nodes := by rwa [nodes_ofNodes]

/-- Steps that yield nothing may be put in front. -/
theorem Confined.after {s : Script} (h : s.Confined faults nodes) {steps : List (Step Node)}
    (hsteps : ∀ node ∈ steps.filterMap Step.result?, nodes node) :
    (s.after steps).Confined faults nodes where
  fault := h.fault
  nodes node hmem := by
    rw [Script.nodes, Script.after, List.filterMap_append, List.mem_append] at hmem
    exact hmem.elim (hsteps node) (h.nodes node)

/-- The node at the front of a slot is of a sort, and so is the rest of it, seen from the
operator. -/
structure Slot.Confined (op : SetOp) (faults : Fault → Prop) (nodes : Node → Prop) (s : Slot) :
    Prop where
  rest : s.rest.Confined (fun fault => faults (fault.inOperand op s.position)) nodes
  front : ∀ node, s.front = some node → nodes node

/-- **A slot that moves on stays confined.** -/
theorem Slot.confined_advance {s : Slot}
    (h : s.rest.Confined (fun fault => faults (fault.inOperand op s.position)) nodes) :
    (s.advance op).Confined faults (Slot.Confined op faults nodes) := by
  have ha := s.advances op
  generalize s.advance op = st at ha
  cases ha with
  | @node before rest node hsteps =>
    have hmem : ∀ other ∈ node :: rest.filterMap Step.result?, nodes other := by
      intro other hother
      apply h.nodes other
      rw [Script.nodes, hsteps, List.filterMap_append]
      exact List.mem_append_right _ hother
    constructor
    case rest => exact ⟨h.fault, fun other hother => hmem other (List.mem_cons_of_mem _ hother)⟩
    case front =>
      intro other hfront
      obtain rfl := Option.some.inj hfront
      exact hmem node List.mem_cons_self
  | finished => exact ⟨confined_empty, fun node hfront => by cases hfront⟩
  | failed _ hfault => exact h.fault _ hfault

theorem confined_moveIf (which : Slot → Bool) {s : Slot} (h : s.Confined op faults nodes) :
    (moveIf op which s).Confined faults (Slot.Confined op faults nodes) := by
  unfold moveIf
  split
  · exact Slot.confined_advance h.rest
  · exact h

theorem confined_skipBelow (node : Node) {s : Slot} (h : s.Confined op faults nodes) :
    (skipBelow op node s).Confined faults (Slot.Confined op faults nodes) := by
  have hadvance := Slot.confined_advance h.rest
  fun_induction skipBelow op node s with
  | case1 => exact h
  | case2 s front _ _ steps fault hnext =>
    rw [hnext] at hadvance
    exact hadvance
  | case3 s front _ _ steps u hnext more ih =>
    rw [hnext] at hadvance
    have hu : u.Confined op faults nodes := hadvance
    exact ih hu (Slot.confined_advance hu.rest)
  | case4 => exact h

theorem confined_moveAll {move : Slot → Stretch Slot} {slots : List Slot}
    (h : ∀ s ∈ slots, (move s).Confined faults (Slot.Confined op faults nodes)) :
    (moveAll move slots).Confined faults fun next =>
      ∀ t ∈ next, Slot.Confined op faults nodes t := by
  induction slots with
  | nil => exact fun t ht => by cases ht
  | cons s rest ih =>
    obtain ⟨hfirst, hrest⟩ := List.forall_mem_cons.1 h
    exact hfirst.bind fun t ht => (ih hrest).bind fun ts hts => List.forall_mem_cons.2 ⟨ht, hts⟩

/-- **What a round keeps**: the slots stay confined, and what comes out is the front of one of
them. -/
theorem confined_round {slots : List Slot} {st : Stretch (Option Node × List Slot)}
    (hs : ∀ s ∈ slots, s.Confined op faults nodes) (h : round op slots = some st) :
    st.Confined faults fun a =>
      (∀ node, a.1 = some node → nodes node) ∧ ∀ t ∈ a.2, t.Confined op faults nodes := by
  have hmoves : ∀ (which : Slot → Bool) (out : Option Node),
      (∀ node, out = some node → nodes node) →
      ((moveAll (moveIf op which) slots).bind fun next => .pure (out, next)).Confined faults
        fun a => (∀ node, a.1 = some node → nodes node) ∧
          ∀ t ∈ a.2, t.Confined op faults nodes := fun which out hout =>
    (confined_moveAll fun s hmem => confined_moveIf which (hs s hmem)).bind
      fun _ hnext => ⟨hout, hnext⟩
  cases turn_of_round h with
  | earliest hmin =>
    apply hmoves
    intro node hout
    obtain rfl := Option.some.inj hout
    obtain ⟨s, hmem, hfront⟩ := List.mem_filterMap.1 (Node.earliest?_mem hmin)
    exact (hs s hmem).front _ hfront
  | common hfronts hmax =>
    apply hmoves
    intro node hout
    obtain rfl := Option.some.inj hout
    obtain ⟨s, hmem, hfront⟩ := (mem_of_fronts? hfronts).1 (Node.latest?_mem hmax)
    exact (hs s hmem).front _ hfront
  | behind => exact hmoves _ _ fun _ hout => by cases hout
  | @first first rest node hfront =>
    obtain ⟨hfirst, hrest⟩ := List.forall_mem_cons.1 hs
    refine (confined_moveAll fun s hmem => confined_skipBelow node (hrest s hmem)).bind ?_
    intro others hothers
    refine (Slot.confined_advance hfirst.rest).bind fun next hnext => ⟨?_, ?_⟩
    · intro other hout
      split at hout
      · cases hout
      · exact Option.some.inj hout ▸ hfirst.front node hfront
    · exact List.forall_mem_cons.2 ⟨hnext, hothers⟩

/-- **A merge is confined as its slots are.**  The induction is on the rounds. -/
theorem Merges.confined {slots : List Slot} {s : Script} (h : Merges op slots s)
    (hs : ∀ slot ∈ slots, slot.Confined op faults nodes) : s.Confined faults nodes := by
  induction h with
  | finished => exact confined_empty
  | failed hround =>
    refine ⟨fun fault hfault => ?_, fun node hmem => ?_⟩
    · obtain rfl := Option.some.inj hfault
      exact confined_round hs hround
    · rw [Script.nodes, Step.filterMap_of_silent (silent_round hround)] at hmem
      cases hmem
  | @next slots next steps out s hround _ ih =>
    obtain ⟨hout, hnext⟩ := confined_round hs hround
    refine (ih hnext).after fun node hmem => ?_
    rw [List.filterMap_append, Step.filterMap_of_silent (silent_round hround)] at hmem
    cases out with
    | none => cases hmem
    | some node' => exact hout node (congrArg some (List.mem_singleton.1 hmem).symm)

end Script

/-! ## Operands -/

variable {op : SetOp} {faults : Fault → Prop} {nodes : Node → Prop}

namespace Operand

theorem confined_read {position : Nat} {o : Operand}
    (h : o.source.script.Confined (fun fault => faults (fault.inOperand op position)) nodes) :
    (o.read op position).Confined faults
      (Script.Confined (fun fault => faults (fault.inOperand op position)) nodes) := by
  unfold read
  split
  · rename_i fault hfault
    exact h.fault fault hfault
  · refine Script.confined_ofNodes fun node hmem => ?_
    exact h.nodes node (mem_sortDistinct.1 hmem)

theorem confined_start {position : Nat} {o : Operand}
    (h : o.source.script.Confined (fun fault => faults (fault.inOperand op position)) nodes) :
    (o.start op position).Confined faults (Script.Slot.Confined op faults nodes) := by
  have hscript : (if o.sorted then .pure o.source.script else o.read op position).Confined faults
      (Script.Confined (fun fault => faults (fault.inOperand op position)) nodes) := by
    split
    · exact h
    · exact confined_read h
  exact hscript.bind fun script hs => Script.Slot.confined_advance hs

theorem confined_startAll {position : Nat} {operands : List Operand}
    (h : ∀ i (o : Operand), operands[i]? = some o →
      o.source.script.Confined (fun fault => faults (fault.inOperand op (position + i))) nodes) :
    (startAll op position operands).Confined faults fun slots =>
      ∀ s ∈ slots, Script.Slot.Confined op faults nodes s := by
  induction operands generalizing position with
  | nil => exact fun s hs => by cases hs
  | cons o rest ih =>
    refine (confined_start (h 0 o rfl)).bind fun slot hslot => ?_
    have hrest : (startAll op (position + 1) rest).Confined faults fun slots =>
        ∀ s ∈ slots, Script.Slot.Confined op faults nodes s := by
      apply ih
      intro i o' ho'
      rw [Nat.add_right_comm, Nat.add_assoc]
      exact h (i + 1) o' ho'
    exact hrest.bind fun slots hslots => List.forall_mem_cons.2 ⟨hslot, hslots⟩

end Operand

/-- **The script of an operator is confined as its operands are**, their faults seen from the
operator. -/
theorem Source.confined_ofSet {operands : List Operand}
    (h : ∀ i (o : Operand), operands[i]? = some o →
      o.source.script.Confined (fun fault => faults (fault.inOperand op i)) nodes) :
    (ofSet op operands).script.Confined faults nodes := by
  have hstart : (Operand.startAll op 0 operands).Confined faults fun slots =>
      ∀ s ∈ slots, Script.Slot.Confined op faults nodes s := by
    apply Operand.confined_startAll
    intro i o ho
    rw [Nat.zero_add]
    exact h i o ho
  have hsilent := Operand.silent_startAll op 0 operands
  unfold ofSet
  split <;> rename_i hall <;> rw [hall] at hstart hsilent
  · refine ⟨fun fault hfault => ?_, fun node hmem => ?_⟩
    · obtain rfl := Option.some.inj hfault
      exact hstart
    · rw [Script.nodes, Step.filterMap_of_silent hsilent] at hmem
      cases hmem
  · refine ((Script.merges_merge op _).confined hstart).after fun node hmem => ?_
    rw [Step.filterMap_of_silent hsilent] at hmem
    cases hmem

/-! ## Opening operands -/

namespace Expr

variable {live : Live}

/-- The operand at a position comes of the expression at this position. -/
theorem exists_of_operandsFrom {position : Nat} {es : List Expr} {operands : List Operand}
    (h : operandsFrom live op position es = .ok operands) {i : Nat} {o : Operand}
    (ho : operands[i]? = some o) : ∃ e, es[i]? = some e ∧ e.source live = .ok o.source := by
  induction es generalizing position operands i with
  | nil =>
    obtain rfl := Except.ok.inj h
    cases ho
  | cons e rest ih =>
    obtain ⟨src, others, hsource, hothers, rfl⟩ := operandsFrom_cons.1 h
    cases i with
    | zero =>
      obtain rfl := Option.some.inj ho
      exact ⟨e, rfl, hsource⟩
    | succ i => exact ih hothers ho

end Expr

end XmlStore
