import XmlStore.Proofs.Heard

/-!
# Merges as rounds

The three merges differ only in what one round does: which slots move on, and whether a node comes
out.  Everything that holds of whole merges is proved from what one round preserves.

* `Slot.Advances` — the three ways in which a slot moves on.
* `Script.round` — one round of an operator: `none` at the end of the merge, else the steps to the
  node that comes out, if any, and the slots after it.  `Script.Turn` lists what a round can do.
* `Script.Merges` — a merge is a sequence of rounds; `merges_merge` says so of `Script.merge`.
-/

namespace XmlStore

namespace Script

variable {hears : List SignalId → Bool}

namespace Slot

/-- The ways in which a slot moves on. -/
inductive Advances (op : SetOp) (s : Slot) : Stretch Slot → Prop where
  /-- To its next node. -/
  | node {before rest : List (Step Node)} {node : Node} :
      s.rest.steps = before ++ .yield node :: rest → Step.allSilent before = true →
      Advances op s
        ⟨before, .ok { s with front := some node, rest := { s.rest with steps := rest } }⟩
  /-- To its end. -/
  | finished :
      Step.allSilent s.rest.steps = true → s.rest.fault = none →
      Advances op s ⟨s.rest.steps, .ok { s with front := none, rest := .empty }⟩
  /-- To its fault. -/
  | failed {fault : Fault} :
      Step.allSilent s.rest.steps = true → s.rest.fault = some fault →
      Advances op s ⟨s.rest.steps, .error (fault.inOperand op s.position)⟩

theorem advances (op : SetOp) (s : Slot) : Advances op s (s.advance op) := by
  have hsplit := (List.takeWhile_append_dropWhile (p := (!·.isYield)) (l := s.rest.steps)).symm
  have hbefore : Step.allSilent (s.rest.steps.takeWhile (!·.isYield)) = true :=
    List.all_takeWhile
  unfold advance
  split
  · rename_i node rest hdrop
    rw [hdrop] at hsplit
    exact .node hsplit hbefore
  · rename_i hdrop
    have hnil : s.rest.steps.dropWhile (!·.isYield) = [] := by
      cases hd : s.rest.steps.dropWhile (!·.isYield) with
      | nil => rfl
      | cons step rest =>
        have hyield : step.isYield = true := by
          have := List.head?_dropWhile_not (fun step : Step Node => !step.isYield) s.rest.steps
          rw [hd] at this
          simpa using this
        cases step with
        | yield node => exact absurd hd (hdrop node rest)
        | visit => simp [Step.isYield] at hyield
        | poll => simp [Step.isYield] at hyield
        | release => simp [Step.isYield] at hyield
    rw [hnil, List.append_nil] at hsplit
    rw [← hsplit] at hbefore ⊢
    split
    · exact .failed hbefore ‹_›
    · exact .finished hbefore ‹_›

theorem silent_advance (op : SetOp) (s : Slot) : (s.advance op).Silent := by
  have h := s.advances op
  generalize s.advance op = st at h
  cases h with
  | node _ hsilent => exact hsilent
  | finished hsilent _ => exact hsilent
  | failed hsilent _ => exact hsilent

/-- A slot without a front has come to its end. -/
def Ready (s : Slot) : Prop := s.front = none → s.rest = .empty

/-- The node at the front of a slot, and those that it still hears. -/
def heard (hears : List SignalId → Bool) (s : Slot) : List Node :=
  s.front.toList ++ s.rest.heard hears

theorem heard_of_front_none {s : Slot} (h : s.Ready) (hfront : s.front = none) :
    s.heard hears = [] := by
  rw [heard, hfront, h hfront]; rfl

theorem heard_of_front_some {s : Slot} {node : Node} (hfront : s.front = some node) :
    s.heard hears = node :: s.rest.heard hears := by
  rw [heard, hfront]; rfl

/-- **A slot that moves on has what the rest of it had.** -/
theorem advance_spec {op : SetOp} {s t : Slot} (h : (s.advance op).Clean hears t) :
    t.Ready ∧ t.heard hears = s.rest.heard hears ∧ (s.rest.Clean hears ↔ t.rest.Clean hears) := by
  obtain ⟨hresult, hquiet⟩ := h
  have ha := s.advances op
  generalize s.advance op = st at ha hresult hquiet
  cases ha with
  | @node before rest node hsteps hsilent =>
    obtain rfl := Except.ok.inj hresult
    have hall : Step.allQuiet hears s.rest.steps = Step.allQuiet hears rest := by
      rw [hsteps, Step.allQuiet_append, hquiet]; rfl
    refine ⟨fun hfront => by simp at hfront, ?_, fun hclean => ⟨hclean.fault, ?_⟩,
      fun hclean => ⟨hclean.fault, ?_⟩⟩
    · rw [heard_of_front_some rfl]
      simp only [Script.heard, hsteps, Step.heard_append_of_quiet hquiet,
        Step.heard_of_silent hsilent]
      rfl
    · exact hall ▸ hclean.quiet
    · exact hall ▸ hclean.quiet
  | finished hsilent hfault =>
    obtain rfl := Except.ok.inj hresult
    refine ⟨fun _ => rfl, ?_, fun _ => clean_empty, fun _ => ⟨hfault, hquiet⟩⟩
    rw [Script.heard, Step.heard_of_silent hsilent]; rfl
  | failed => cases hresult

/-- A slot moves on unless its script fails. -/
theorem clean_advance (op : SetOp) {s : Slot} (h : s.rest.Clean hears) :
    ∃ t, (s.advance op).Clean hears t := by
  have ha := s.advances op
  generalize s.advance op = st at ha
  cases ha with
  | @node before rest node hsteps hsilent =>
    refine ⟨_, rfl, ?_⟩
    have hquiet := h.quiet
    rw [hsteps, Step.allQuiet_append, Bool.and_eq_true] at hquiet
    exact hquiet.1
  | finished => exact ⟨_, rfl, h.quiet⟩
  | failed _ hfault => rw [h.fault] at hfault; cases hfault

end Slot

theorem skipBelow_of_lt (op : SetOp) {node front : Node} {s : Slot} (hfront : s.front = some front)
    (hlt : front < node) : skipBelow op node s = (s.advance op).bind (skipBelow op node) := by
  rw [skipBelow]
  split
  · rename_i hnone
    rw [hfront] at hnone
    cases hnone
  · rename_i front' hfront'
    obtain rfl := Option.some.inj (hfront.symm.trans hfront')
    rw [if_pos hlt]
    unfold Stretch.bind
    split <;> rename_i hnext <;> rw [hnext]

theorem skipBelow_of_not_lt (op : SetOp) {node : Node} {s : Slot}
    (h : ∀ front, s.front = some front → ¬ front < node) : skipBelow op node s = .pure s := by
  rw [skipBelow]
  split
  · rfl
  · rename_i front hfront
    rw [if_neg (h front hfront)]

theorem silent_skipBelow (op : SetOp) (node : Node) (s : Slot) : (skipBelow op node s).Silent := by
  fun_induction skipBelow op node s with
  | case1 s => exact Stretch.silent_pure s
  | case2 s front _ _ steps fault hnext =>
    have h := s.silent_advance op
    rw [hnext] at h
    exact h
  | case3 s front _ _ steps t hnext more ih =>
    have h := s.silent_advance op
    rw [hnext] at h
    show Step.allSilent (steps ++ more.steps) = true
    rw [Step.allSilent_append, Bool.and_eq_true]
    exact ⟨h, ih⟩
  | case4 s => exact Stretch.silent_pure s

/-! ## Moving several slots -/

/-- Moves every slot in its own way, in order. -/
def moveAll (move : Slot → Stretch Slot) : List Slot → Stretch (List Slot)
  | [] => .pure []
  | s :: rest =>
    (move s).bind fun s => (moveAll move rest).bind fun rest => .pure (s :: rest)

/-- Moves on a slot that is picked. -/
def moveIf (op : SetOp) (which : Slot → Bool) (s : Slot) : Stretch Slot :=
  if which s then s.advance op else .pure s

theorem advanceWhere_eq_moveAll (op : SetOp) (which : Slot → Bool) (slots : List Slot) :
    advanceWhere op which slots = moveAll (moveIf op which) slots := by
  induction slots with
  | nil => rfl
  | cons s rest ih => rw [advanceWhere, moveAll, ih]; rfl

theorem skipAllBelow_eq_moveAll (op : SetOp) (node : Node) (slots : List Slot) :
    skipAllBelow op node slots = moveAll (skipBelow op node) slots := by
  induction slots with
  | nil => rfl
  | cons s rest ih => rw [skipAllBelow, moveAll, ih]

theorem clean_moveAll_cons {move : Slot → Stretch Slot} {s : Slot} {rest next : List Slot} :
    (moveAll move (s :: rest)).Clean hears next ↔
      ∃ t ts, next = t :: ts ∧ (move s).Clean hears t ∧ (moveAll move rest).Clean hears ts := by
  rw [moveAll, Stretch.clean_bind]
  constructor
  · rintro ⟨t, ht, h⟩
    obtain ⟨ts, hts, h⟩ := Stretch.clean_bind.1 h
    exact ⟨t, ts, (Stretch.clean_pure.1 h).symm, ht, hts⟩
  · rintro ⟨t, ts, hnext, ht, hts⟩
    exact ⟨t, ht, Stretch.clean_bind.2 ⟨ts, hts, Stretch.clean_pure.2 hnext.symm⟩⟩

theorem silent_moveIf (op : SetOp) (which : Slot → Bool) (s : Slot) :
    (moveIf op which s).Silent := by
  unfold moveIf
  split
  · exact s.silent_advance op
  · exact Stretch.silent_pure s

theorem silent_moveAll {move : Slot → Stretch Slot} (h : ∀ s, (move s).Silent)
    (slots : List Slot) : (moveAll move slots).Silent := by
  induction slots with
  | nil => exact Stretch.silent_pure []
  | cons s rest ih =>
    exact Stretch.silent_bind (h s) fun _ => Stretch.silent_bind ih fun _ => Stretch.silent_pure _

/-! ## Fronts -/

theorem map_front_of_fronts? {slots : List Slot} {nodes : List Node}
    (h : fronts? slots = some nodes) : slots.map Slot.front = nodes.map some := by
  induction slots generalizing nodes with
  | nil =>
    obtain rfl := Option.some.inj h
    rfl
  | cons s rest ih =>
    simp only [fronts?, Option.pure_def, Option.bind_eq_bind, Option.bind_eq_some_iff,
      Option.some.injEq] at h
    obtain ⟨node, hfront, others, hrest, rfl⟩ := h
    rw [List.map_cons, List.map_cons, hfront, ih hrest]

theorem mem_of_fronts? {slots : List Slot} {nodes : List Node} (h : fronts? slots = some nodes)
    {node : Node} : node ∈ nodes ↔ ∃ s ∈ slots, s.front = some node := by
  have hmem : some node ∈ slots.map Slot.front ↔ some node ∈ nodes.map some := by
    rw [map_front_of_fronts? h]
  simpa using hmem.symm

theorem exists_front_none {slots : List Slot} (h : fronts? slots = none) :
    ∃ s ∈ slots, s.front = none := by
  induction slots with
  | nil => cases h
  | cons s rest ih =>
    cases hfront : s.front with
    | none => exact ⟨s, List.mem_cons_self, hfront⟩
    | some node =>
      cases hrest : fronts? rest with
      | none =>
        obtain ⟨t, ht, hnone⟩ := ih hrest
        exact ⟨t, List.mem_cons_of_mem s ht, hnone⟩
      | some others => simp [fronts?, hfront, hrest] at h

/-! ## Rounds -/

/-- One round of a merge: the node that comes out, if any, and the slots after it; `none` if there
is nothing more to come. -/
def round : SetOp → List Slot → Option (Stretch (Option Node × List Slot))
  | .union, slots =>
    (Node.earliest? (slots.filterMap Slot.front)).map fun node =>
      (moveAll (moveIf .union (·.front == some node)) slots).bind fun next =>
        .pure (some node, next)
  | .intersect, slots =>
    ((fronts? slots).bind Node.latest?).map fun node =>
      if slots.all (·.front == some node) then
        (moveAll (moveIf .intersect fun _ => true) slots).bind fun next => .pure (some node, next)
      else
        (moveAll (moveIf .intersect (·.front != some node)) slots).bind fun next =>
          .pure (none, next)
  | .except, [] => none
  | .except, first :: rest =>
    first.front.map fun node =>
      (moveAll (skipBelow .except node) rest).bind fun others =>
        (first.advance .except).bind fun next =>
          .pure (if others.any (·.front == some node) then none else some node, next :: others)

theorem round_union {slots : List Slot} {node : Node}
    (hmin : Node.earliest? (slots.filterMap Slot.front) = some node) :
    round .union slots =
      some ((moveAll (moveIf .union (·.front == some node)) slots).bind fun next =>
        .pure (some node, next)) := by
  rw [round, hmin, Option.map_some]

theorem round_intersect {slots : List Slot} {nodes : List Node} {node : Node}
    (hfronts : fronts? slots = some nodes) (hmax : Node.latest? nodes = some node) :
    round .intersect slots =
      some (if slots.all (·.front == some node) then
        (moveAll (moveIf .intersect fun _ => true) slots).bind fun next => .pure (some node, next)
      else
        (moveAll (moveIf .intersect (·.front != some node)) slots).bind fun next =>
          .pure (none, next)) := by
  rw [round, hfronts, Option.bind_some, hmax, Option.map_some]

theorem round_except {first : Slot} {rest : List Slot} {node : Node}
    (hfront : first.front = some node) :
    round .except (first :: rest) =
      some ((moveAll (skipBelow .except node) rest).bind fun others =>
        (first.advance .except).bind fun next =>
          .pure
            (if others.any (·.front == some node) then none else some node, next :: others)) := by
  rw [round, hfront, Option.map_some]

/-- What a round can do. -/
inductive Turn : SetOp → List Slot → Stretch (Option Node × List Slot) → Prop where
  /-- The earliest front comes out of all slots that have it. -/
  | earliest {slots : List Slot} {node : Node} :
      Node.earliest? (slots.filterMap Slot.front) = some node →
      Turn .union slots ((moveAll (moveIf .union (·.front == some node)) slots).bind fun next =>
        .pure (some node, next))
  /-- All fronts are equal and come out together. -/
  | common {slots : List Slot} {nodes : List Node} {node : Node} :
      fronts? slots = some nodes → Node.latest? nodes = some node →
      slots.all (·.front == some node) = true →
      Turn .intersect slots ((moveAll (moveIf .intersect fun _ => true) slots).bind fun next =>
        .pure (some node, next))
  /-- The slots that are behind the latest front move on. -/
  | behind {slots : List Slot} {nodes : List Node} {node : Node} :
      fronts? slots = some nodes → Node.latest? nodes = some node →
      slots.all (·.front == some node) = false →
      Turn .intersect slots ((moveAll (moveIf .intersect (·.front != some node)) slots).bind
        fun next => .pure (none, next))
  /-- The front of the first slot comes out, unless a later slot has it. -/
  | first {first : Slot} {rest : List Slot} {node : Node} :
      first.front = some node →
      Turn .except (first :: rest) ((moveAll (skipBelow .except node) rest).bind fun others =>
        (first.advance .except).bind fun next =>
          .pure (if others.any (·.front == some node) then none else some node, next :: others))

theorem turn_of_round {op : SetOp} {slots : List Slot} {st : Stretch (Option Node × List Slot)}
    (h : round op slots = some st) : Turn op slots st := by
  cases op with
  | union =>
    simp only [round, Option.map_eq_some_iff] at h
    obtain ⟨node, hmin, rfl⟩ := h
    exact .earliest hmin
  | intersect =>
    simp only [round, Option.map_eq_some_iff, Option.bind_eq_some_iff] at h
    obtain ⟨node, ⟨nodes, hfronts, hmax⟩, rfl⟩ := h
    split
    · rename_i hall
      exact .common hfronts hmax hall
    · rename_i hnot
      exact .behind hfronts hmax (by simpa using hnot)
  | except =>
    cases slots with
    | nil => cases h
    | cons first rest =>
      simp only [round, Option.map_eq_some_iff] at h
      obtain ⟨node, hfront, rfl⟩ := h
      exact .first hfront

theorem Turn.round_eq {op : SetOp} {slots : List Slot} {st : Stretch (Option Node × List Slot)}
    (h : Turn op slots st) : round op slots = some st := by
  cases h with
  | earliest hmin => exact round_union hmin
  | common hfronts hmax hall => rw [round_intersect hfronts hmax, if_pos hall]
  | behind hfronts hmax hnot => rw [round_intersect hfronts hmax, if_neg (by simp [hnot])]
  | first hfront => exact round_except hfront

/-- A round in which every slot moves for itself. -/
theorem clean_moveAll_bind {move : Slot → Stretch Slot} {slots next : List Slot}
    {out out' : Option Node} :
    ((moveAll move slots).bind fun next => .pure (out, next)).Clean hears (out', next) ↔
      out = out' ∧ (moveAll move slots).Clean hears next := by
  rw [Stretch.clean_bind]
  constructor
  · rintro ⟨ts, hts, hpure⟩
    obtain ⟨rfl, rfl⟩ := Prod.mk.inj (Stretch.clean_pure.1 hpure)
    exact ⟨rfl, hts⟩
  · rintro ⟨rfl, hnext⟩
    exact ⟨next, hnext, Stretch.clean_pure.2 rfl⟩

/-- The steps that yield what comes out of a round. -/
def emit : Option Node → List (Step Node)
  | none => []
  | some node => [.poll, .yield node]

@[simp] theorem allQuiet_emit (out : Option Node) : Step.allQuiet hears (emit out) = true := by
  cases out <;> rfl

@[simp] theorem heard_emit (out : Option Node) : Step.heard hears (emit out) = out.toList := by
  cases out <;> rfl

/-- A merge goes from round to round until there is nothing more to come or a slot fails. -/
inductive Merges (op : SetOp) : List Slot → Script → Prop where
  | finished {slots : List Slot} : round op slots = none → Merges op slots .empty
  | failed {slots : List Slot} {steps : List (Step Node)} {fault : Fault} :
      round op slots = some ⟨steps, .error fault⟩ →
      Merges op slots { steps := steps, fault := some fault }
  | next {slots next : List Slot} {steps : List (Step Node)} {out : Option Node} {s : Script} :
      round op slots = some ⟨steps, .ok (out, next)⟩ → Merges op next s →
      Merges op slots (s.after (steps ++ emit out))

theorem merges_union (slots : List Slot) : Merges .union slots (union slots) := by
  fun_induction union slots with
  | case1 slots hmin => exact .finished (by rw [round, hmin, Option.map_none])
  | case2 slots node hmin steps fault hnext =>
    exact .failed (by rw [round_union hmin, ← advanceWhere_eq_moveAll, hnext]; rfl)
  | case3 slots node hmin steps next hnext ih =>
    show Merges .union slots ((union next).after (steps ++ emit (some node)))
    refine .next ?_ ih
    rw [round_union hmin, ← advanceWhere_eq_moveAll, hnext]
    simp [Stretch.bind, Stretch.pure]

theorem merges_intersect (slots : List Slot) : Merges .intersect slots (intersect slots) := by
  fun_induction intersect slots with
  | case1 slots hfronts => exact .finished (by rw [round, hfronts]; rfl)
  | case2 slots nodes hfronts hmax =>
    exact .finished (by rw [round, hfronts, Option.bind_some, hmax, Option.map_none])
  | case3 slots nodes hfronts node hmax hall steps fault hnext =>
    exact .failed (by
      rw [round_intersect hfronts hmax, if_pos hall, ← advanceWhere_eq_moveAll, hnext]; rfl)
  | case4 slots nodes hfronts node hmax hall steps next hnext ih =>
    show Merges .intersect slots ((intersect next).after (steps ++ emit (some node)))
    refine .next ?_ ih
    rw [round_intersect hfronts hmax, if_pos hall, ← advanceWhere_eq_moveAll, hnext]
    simp [Stretch.bind, Stretch.pure]
  | case5 slots nodes hfronts node hmax hall steps fault hnext =>
    exact .failed (by
      rw [round_intersect hfronts hmax, if_neg hall, ← advanceWhere_eq_moveAll, hnext]; rfl)
  | case6 slots nodes hfronts node hmax hall steps next hnext ih =>
    have hemit : steps = steps ++ emit none := (List.append_nil steps).symm
    rw [hemit]
    refine .next ?_ ih
    rw [round_intersect hfronts hmax, if_neg hall, ← advanceWhere_eq_moveAll, hnext]
    simp [Stretch.bind, Stretch.pure]

theorem merges_except (slots : List Slot) : Merges .except slots (except slots) := by
  fun_induction except slots with
  | case1 => exact .finished rfl
  | case2 first rest hfront => exact .finished (by rw [round, hfront, Option.map_none])
  | case3 first rest node hfront steps fault hrest =>
    exact .failed (by rw [round_except hfront, ← skipAllBelow_eq_moveAll, hrest]; rfl)
  | case4 first rest node hfront skipped others hrest steps fault hfirst =>
    exact .failed (by
      rw [round_except hfront, ← skipAllBelow_eq_moveAll, hrest, Stretch.bind, hfirst]; rfl)
  | case5 first rest node hfront skipped others hrest steps next hfirst excluded ih =>
    have hemit : (if excluded then [] else [Step.poll, .yield node]) =
        emit (if excluded then none else some node) := by
      split <;> rfl
    rw [hemit]
    refine .next ?_ ih
    rw [round_except hfront, ← skipAllBelow_eq_moveAll, hrest, Stretch.bind, hfirst]
    simp [Stretch.bind, Stretch.pure, excluded]

theorem merges_merge (op : SetOp) (slots : List Slot) : Merges op slots (merge op slots) := by
  cases op with
  | union => exact merges_union slots
  | intersect => exact merges_intersect slots
  | except => exact merges_except slots

/-- Nothing is yielded on the way to what comes out of a round. -/
theorem silent_round {op : SetOp} {slots : List Slot} {st : Stretch (Option Node × List Slot)}
    (h : round op slots = some st) : st.Silent := by
  have hmoves : ∀ (which : Slot → Bool) (out : Option Node),
      ((moveAll (moveIf op which) slots).bind fun next => .pure (out, next)).Silent := by
    intro which out
    exact Stretch.silent_bind (silent_moveAll (silent_moveIf _ _) _) fun _ =>
      Stretch.silent_pure _
  cases turn_of_round h with
  | earliest => exact hmoves _ _
  | common => exact hmoves _ _
  | behind => exact hmoves _ _
  | @first first rest node =>
    exact Stretch.silent_bind (silent_moveAll (silent_skipBelow _ node) _) fun _ =>
      Stretch.silent_bind (first.silent_advance _) fun _ => Stretch.silent_pure _

end Script

end XmlStore
