import XmlStore.Script.Basic

/-!
# Merging scripts

A set operator merges the scripts of its operands.  Every operand has a slot with the node at its
front; the merge compares the fronts and moves on the slots that hold the node at issue.

* `Slot.advance` runs one slot up to its next node; a fault in it ends the merge and carries the
  operand's position.
* `Operand.start` makes the slot of an operand.  An operand that is not known to ascend is first
  read to its end, its snapshots are let go, and its nodes are put in order.
* `union`, `intersect` and `except` are the three merges, and `ofSet` runs the one that is asked
  for.

Every round of a merge takes a node away from some slot, so the number of nodes that the slots
still have (`work`) bounds the rounds, whatever order the nodes come in.
-/

namespace XmlStore

namespace Script

/-- Part of a script: the steps taken, and what they have led to. -/
structure Stretch (α : Type) where
  steps : List (Step Node)
  result : Except Fault α

namespace Stretch

variable {α β : Type}

/-- No steps. -/
def pure (a : α) : Stretch α := ⟨[], .ok a⟩

/-- One stretch after the other; a fault ends both. -/
def bind (s : Stretch α) (next : α → Stretch β) : Stretch β :=
  match s.result with
  | .error fault => ⟨s.steps, .error fault⟩
  | .ok a => ⟨s.steps ++ (next a).steps, (next a).result⟩

theorem bind_eq_ok {s : Stretch α} {next : α → Stretch β} {b : β}
    (h : (s.bind next).result = .ok b) :
    ∃ a, s.result = .ok a ∧ (next a).result = .ok b := by
  unfold bind at h
  split at h
  · cases h
  · exact ⟨_, ‹_›, h⟩

end Stretch

/-- An operand in a merge: its position, the node at its front, and the rest of its script. -/
structure Slot where
  position : Nat
  front : Option Node
  rest : Script
  deriving Repr

namespace Slot

/-- Nodes that the slot still has. -/
def work (s : Slot) : Nat := s.rest.yields + (if s.front.isSome then 1 else 0)

/-- Runs a slot up to its next node. -/
def advance (op : SetOp) (s : Slot) : Stretch Slot :=
  let before := s.rest.steps.takeWhile (!·.isYield)
  match s.rest.steps.dropWhile (!·.isYield) with
  | .yield node :: steps =>
    ⟨before, .ok { s with front := some node, rest := { s.rest with steps } }⟩
  | _ =>
    match s.rest.fault with
    | some fault => ⟨before, .error (fault.inOperand op s.position)⟩
    | none => ⟨before, .ok { s with front := none, rest := .empty }⟩

/-- No step before the first yield is a yield. -/
theorem countP_takeWhile (steps : List (Step Node)) :
    (steps.takeWhile (!·.isYield)).countP Step.isYield = 0 := by
  induction steps with
  | nil => rfl
  | cons step rest ih =>
    rw [List.takeWhile_cons]
    cases hstep : step.isYield <;> simp [hstep, ih]

/-- A slot that moves on loses the node at its front. -/
theorem work_advance {op : SetOp} {s t : Slot} (h : (s.advance op).result = .ok t) :
    t.work ≤ s.rest.yields := by
  unfold advance at h
  split at h
  · next node steps hdrop =>
    have hcount : s.rest.yields = steps.countP Step.isYield + 1 := by
      have := countP_takeWhile s.rest.steps
      rw [yields, ← List.takeWhile_append_dropWhile (p := (!·.isYield)) (l := s.rest.steps),
        List.countP_append, this, hdrop, List.countP_cons]
      simp [Step.isYield]
    simp only [Except.ok.injEq] at h
    subst h
    simp [work, hcount]
    simp [yields]
  · split at h
    · cases h
    · simp only [Except.ok.injEq] at h
      subst h
      simp [work, yields, empty]

theorem work_advance_le {op : SetOp} {s t : Slot} (h : (s.advance op).result = .ok t) :
    t.work ≤ s.work :=
  Nat.le_trans (work_advance h) (Nat.le_add_right ..)

theorem work_advance_lt {op : SetOp} {s t : Slot} (h : (s.advance op).result = .ok t)
    (hfront : s.front.isSome = true) : t.work < s.work := by
  have := work_advance h
  simp only [work, hfront, if_true] at *
  omega

end Slot

/-- Nodes that some slots still have. -/
def work : List Slot → Nat
  | [] => 0
  | s :: rest => s.work + work rest

/-- Moves on the slots that `which` picks, in order. -/
def advanceWhere (op : SetOp) (which : Slot → Bool) : List Slot → Stretch (List Slot)
  | [] => .pure []
  | s :: rest =>
    (if which s then s.advance op else .pure s).bind fun s =>
      (advanceWhere op which rest).bind fun rest => .pure (s :: rest)

theorem advanceWhere_cons {op : SetOp} {which : Slot → Bool} {s : Slot} {rest out : List Slot}
    (h : (advanceWhere op which (s :: rest)).result = .ok out) :
    ∃ t ts, out = t :: ts ∧ (advanceWhere op which rest).result = .ok ts ∧
      (if which s then s.advance op else .pure s).result = .ok t := by
  obtain ⟨t, ht, h⟩ := Stretch.bind_eq_ok h
  obtain ⟨ts, hts, h⟩ := Stretch.bind_eq_ok h
  simp only [Stretch.pure, Except.ok.injEq] at h
  exact ⟨t, ts, h.symm, hts, ht⟩

theorem work_advanceWhere_le {op : SetOp} {which : Slot → Bool} {slots out : List Slot}
    (h : (advanceWhere op which slots).result = .ok out) : work out ≤ work slots := by
  induction slots generalizing out with
  | nil => simp_all [advanceWhere, Stretch.pure]
  | cons s rest ih =>
    obtain ⟨t, ts, rfl, hts, ht⟩ := advanceWhere_cons h
    have hrest := ih hts
    have hs : t.work ≤ s.work := by
      split at ht
      · exact Slot.work_advance_le ht
      · simp_all [Stretch.pure]
    simp only [work] at *
    omega

/-- Moving on a slot that has a node takes that node away. -/
theorem work_advanceWhere_lt {op : SetOp} {which : Slot → Bool} {slots out : List Slot}
    (h : (advanceWhere op which slots).result = .ok out) {s : Slot} (hs : s ∈ slots)
    (hwhich : which s = true) (hfront : s.front.isSome = true) : work out < work slots := by
  induction slots generalizing out with
  | nil => cases hs
  | cons a rest ih =>
    obtain ⟨t, ts, rfl, hts, ht⟩ := advanceWhere_cons h
    have hrest := work_advanceWhere_le hts
    rcases List.mem_cons.1 hs with rfl | hmem
    · rw [if_pos hwhich] at ht
      have := Slot.work_advance_lt ht hfront
      simp only [work] at *
      omega
    · have hlt := ih hts hmem
      have ha : t.work ≤ a.work := by
        split at ht
        · exact Slot.work_advance_le ht
        · simp_all [Stretch.pure]
      simp only [work] at *
      omega

/-- The slot at whose front a node stands. -/
theorem exists_front {slots : List Slot} {node : Node}
    (h : node ∈ slots.filterMap Slot.front) : ∃ s ∈ slots, s.front = some node :=
  List.mem_filterMap.1 h

/-! ## The merges -/

-- the equations of the matches serve the termination proofs only
set_option linter.unusedVariables false

/-- The smallest front, which every slot that holds it gives up. -/
def union (slots : List Slot) : Script :=
  match hmin : Node.earliest? (slots.filterMap Slot.front) with
  | none => .empty
  | some node =>
    match hnext : advanceWhere .union (·.front == some node) slots with
    | ⟨steps, .error fault⟩ => { steps := steps, fault := some fault }
    | ⟨steps, .ok next⟩ => (union next).after (steps ++ [.poll, .yield node])
  termination_by work slots
  decreasing_by
    obtain ⟨s, hs, hfront⟩ := exists_front (Node.earliest?_mem hmin)
    exact work_advanceWhere_lt (by rw [hnext]) hs (by simp [hfront]) (by simp [hfront])

/-- The fronts of all slots, if every slot has one. -/
def fronts? : List Slot → Option (List Node)
  | [] => some []
  | s :: rest => do return (← s.front) :: (← fronts? rest)

theorem front_of_mem_fronts? {slots : List Slot} {nodes : List Node}
    (h : fronts? slots = some nodes) {s : Slot} (hs : s ∈ slots) : s.front.isSome = true := by
  induction slots generalizing nodes with
  | nil => cases hs
  | cons a rest ih =>
    simp only [fronts?, Option.pure_def, Option.bind_eq_bind, Option.bind_eq_some_iff,
      Option.some.injEq] at h
    obtain ⟨node, ha, others, hrest, _⟩ := h
    rcases List.mem_cons.1 hs with rfl | hmem
    · simp [ha]
    · exact ih hrest hmem

/-- The node at every front; while the fronts differ, the slots below the greatest one give up
theirs. -/
def intersect (slots : List Slot) : Script :=
  match hfronts : fronts? slots with
  | none => .empty
  | some nodes =>
    match hmax : Node.latest? nodes with
    | none => .empty
    | some node =>
      if hall : slots.all (·.front == some node) then
        match hnext : advanceWhere .intersect (fun _ => true) slots with
        | ⟨steps, .error fault⟩ => { steps := steps, fault := some fault }
        | ⟨steps, .ok next⟩ => (intersect next).after (steps ++ [.poll, .yield node])
      else
        match hnext : advanceWhere .intersect (·.front != some node) slots with
        | ⟨steps, .error fault⟩ => { steps := steps, fault := some fault }
        | ⟨steps, .ok next⟩ => (intersect next).after steps
  termination_by work slots
  decreasing_by
    · cases slots with
      | nil =>
        simp only [fronts?, Option.some.injEq] at hfronts
        subst hfronts
        simp [Node.latest?] at hmax
      | cons s rest =>
        exact work_advanceWhere_lt (by rw [hnext]) (List.mem_cons_self ..) rfl
          (front_of_mem_fronts? hfronts (List.mem_cons_self ..))
    · simp only [List.all_eq_true, Classical.not_forall] at hall
      obtain ⟨s, hs, hne⟩ := hall
      exact work_advanceWhere_lt (by rw [hnext]) hs (by simpa [bne] using hne)
        (front_of_mem_fronts? hfronts hs)

/-- Moves a slot on while its front is before `node`. -/
def skipBelow (op : SetOp) (node : Node) (s : Slot) : Stretch Slot :=
  match hfront : s.front with
  | none => .pure s
  | some front =>
    if front < node then
      match hnext : s.advance op with
      | ⟨steps, .error fault⟩ => ⟨steps, .error fault⟩
      | ⟨steps, .ok t⟩ =>
        let more := skipBelow op node t
        ⟨steps ++ more.steps, more.result⟩
    else .pure s
  termination_by s.work
  decreasing_by exact Slot.work_advance_lt (by rw [hnext]) (by simp [hfront])

theorem work_skipBelow_le {op : SetOp} {node : Node} {s t : Slot}
    (h : (skipBelow op node s).result = .ok t) : t.work ≤ s.work := by
  fun_induction skipBelow op node s with
  | case1 => simp_all [Stretch.pure]
  | case2 => simp at h
  | case3 s front _ _ steps u hnext more ih =>
    exact Nat.le_trans (ih h) (Slot.work_advance_le (by rw [hnext]))
  | case4 => simp_all [Stretch.pure]

/-- Moves all slots on while their fronts are before `node`. -/
def skipAllBelow (op : SetOp) (node : Node) : List Slot → Stretch (List Slot)
  | [] => .pure []
  | s :: rest =>
    (skipBelow op node s).bind fun s =>
      (skipAllBelow op node rest).bind fun rest => .pure (s :: rest)

theorem work_skipAllBelow_le {op : SetOp} {node : Node} {slots out : List Slot}
    (h : (skipAllBelow op node slots).result = .ok out) : work out ≤ work slots := by
  induction slots generalizing out with
  | nil => simp_all [skipAllBelow, Stretch.pure]
  | cons s rest ih =>
    obtain ⟨t, ht, h⟩ := Stretch.bind_eq_ok h
    obtain ⟨ts, hts, h⟩ := Stretch.bind_eq_ok h
    simp only [Stretch.pure, Except.ok.injEq] at h
    subst h
    have := work_skipBelow_le ht
    have := ih hts
    simp only [work] at *
    omega

/-- The front of the first slot, unless a later slot holds it too. -/
def except : List Slot → Script
  | [] => .empty
  | first :: rest =>
    match hfront : first.front with
    | none => .empty
    | some node =>
      match hrest : skipAllBelow .except node rest with
      | ⟨steps, .error fault⟩ => { steps := steps, fault := some fault }
      | ⟨skipped, .ok others⟩ =>
        match hfirst : first.advance .except with
        | ⟨steps, .error fault⟩ => { steps := skipped ++ steps, fault := some fault }
        | ⟨steps, .ok next⟩ =>
          let excluded := others.any (·.front == some node)
          (except (next :: others)).after
            (skipped ++ steps ++ if excluded then [] else [.poll, .yield node])
  termination_by slots => work slots
  decreasing_by
    have := work_skipAllBelow_le (by rw [hrest])
    have := Slot.work_advance_lt (by rw [hfirst]) (by simp [hfront])
    simp only [work] at *
    omega

/-- The merge of an operator. -/
def merge : SetOp → List Slot → Script
  | .union => union
  | .intersect => intersect
  | .except => except

end Script

/-! ## Operands -/

/-- An operand of a set operator, and whether its nodes are known to ascend. -/
structure Operand where
  source : Source
  sorted : Bool

namespace Operand

/-- Reads an operand to its end and puts its nodes in order; the snapshots it still keeps are let
go. -/
def read (op : SetOp) (position : Nat) (o : Operand) : Script.Stretch Script :=
  let steps := o.source.script.steps.filter (!·.isYield)
  match o.source.script.fault with
  | some fault => ⟨steps, .error (fault.inOperand op position)⟩
  | none =>
    ⟨steps ++ [.release (o.source.heldAtEnd.map (·.id))],
      .ok (.ofNodes (sortDistinct o.source.script.nodes))⟩

/-- The slot of an operand, with its first node at the front. -/
def start (op : SetOp) (position : Nat) (o : Operand) : Script.Stretch Script.Slot :=
  (if o.sorted then .pure o.source.script else o.read op position).bind fun script =>
    Script.Slot.advance op { position := position, front := none, rest := script }

/-- The slots of all operands. -/
def startAll (op : SetOp) (position : Nat) : List Operand → Script.Stretch (List Script.Slot)
  | [] => .pure []
  | o :: rest =>
    (o.start op position).bind fun slot =>
      (startAll op (position + 1) rest).bind fun slots => .pure (slot :: slots)

end Operand

namespace Source

/-- The nodes of a set operator over its operands. -/
def ofSet (op : SetOp) (operands : List Operand) : Source where
  script :=
    match Operand.startAll op 0 operands with
    | ⟨steps, .error fault⟩ => { steps := steps, fault := some fault }
    | ⟨steps, .ok slots⟩ => (Script.merge op slots).after steps
  held := operands.flatMap (·.source.held)

end Source

end XmlStore
