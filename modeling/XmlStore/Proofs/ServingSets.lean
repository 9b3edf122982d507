import XmlStore.Proofs.Operands
import XmlStore.Proofs.Serving

/-!
# Set operators that serve other set operators

An operator may be replaced by one that reads its operands in another way.

* `Source.served_ofSet` — the operands are replaced by ones that serve: some that were read to
  their end and sorted are now read node by node, and some that have nothing are missing.
* `Source.served_single` — an operator on one operand that is read node by node is replaced by this
  operand.
* `Source.ofSet_nil` — an operator without operands has an empty script.
-/

namespace XmlStore

variable {hears : List SignalId → Bool}

namespace Operand

/-- An operand that serves another one: its source does, and it ascends where it is said to, which
is said of it if it is said of the other one. -/
structure ServedBy (hears : List SignalId → Bool) (o o' : Operand) : Prop where
  script : o.source.script.ServedBy hears o'.source.script
  sorted : o.sorted = true → o'.sorted = true
  sound : o'.Sound hears

/-- An operand that has no nodes to give. -/
def Idle (hears : List SignalId → Bool) (o : Operand) : Prop := o.source.script.heard hears = []

/-- The script that a merge reads of an operand. -/
theorem ServedBy.exists_script {op : SetOp} {position : Nat} (position' : Nat) {o o' : Operand}
    {s : Script} (h : o.ServedBy hears o')
    (hs : (if o.sorted then .pure o.source.script else o.read op position).Clean hears s) :
    ∃ s', (if o'.sorted then .pure o'.source.script else o'.read op position').Clean hears s' ∧
      s.ServedBy hears s' := by
  split at hs
  · rename_i hsorted
    rw [if_pos (h.sorted hsorted)]
    exact ⟨_, Script.Stretch.clean_pure.2 rfl, Script.Stretch.clean_pure.1 hs ▸ h.script⟩
  · obtain ⟨hclean, rfl⟩ := clean_read.1 hs
    obtain ⟨hclean', hsame⟩ := h.script.complete hclean
    split
    · -- what was sorted before is now taken as it comes, and it comes in the same order
      rename_i hsorted'
      refine ⟨_, Script.Stretch.clean_pure.2 rfl, .of_clean hclean' ?_⟩
      rw [Script.heard_ofNodes, ← hsame, sortDistinct_of_pairwise (h.sound hsorted')]
    · exact ⟨_, clean_read.2 ⟨hclean', rfl⟩, hsame ▸ .refl _⟩

theorem ServedBy.exists_start {op : SetOp} {position : Nat} (position' : Nat) {o o' : Operand}
    {slot : Script.Slot} (h : o.ServedBy hears o')
    (hs : (o.start op position).Clean hears slot) :
    ∃ slot', (o'.start op position').Clean hears slot' ∧ slot.ServedBy hears slot' := by
  obtain ⟨s, hscript, hslot⟩ := Script.Stretch.clean_bind.1 hs
  obtain ⟨s', hscript', hserved⟩ := h.exists_script position' hscript
  obtain ⟨slot', hslot', hserved'⟩ := Script.Slot.ServedBy.advance
    (s := { position := position, front := none, rest := s })
    (u := { position := position', front := none, rest := s' }) hserved hslot
  exact ⟨slot', Script.Stretch.clean_bind.2 ⟨s', hscript', hslot'⟩, hserved'⟩

/-- The slot of an operand without nodes is at its end from the start. -/
theorem Idle.front_eq_none {op : SetOp} {position : Nat} {o : Operand} {slot : Script.Slot}
    (h : o.Idle hears) (hs : (o.start op position).Clean hears slot) : slot.front = none := by
  have hsound : o.Sound hears := fun _ => h ▸ List.Pairwise.nil
  obtain ⟨_, hheard, _⟩ := start_spec hsound hs
  refine Script.Slot.front_eq_none_of_heard (?_ : slot.heard hears = [])
  rw [hheard, List.eq_nil_iff_forall_not_mem]
  intro node hn
  rw [mem_nodes, h] at hn
  cases hn

/-- Operands that serve those of an operator, in which operands without nodes may be missing. -/
abbrev Reduces (hears : List SignalId → Bool) (op : SetOp) (first : Bool)
    (operands operands' : List Operand) : Prop :=
  op.Reduces (ServedBy hears) (Idle hears) first operands operands'

theorem Reduces.exists_startAll {op : SetOp} {first : Bool} {operands operands' : List Operand}
    (h : Reduces hears op first operands operands') {position : Nat} (position' : Nat)
    {slots : List Script.Slot} (hs : (startAll op position operands).Clean hears slots) :
    ∃ slots', (startAll op position' operands').Clean hears slots' ∧
      Script.Reduces hears op first slots slots' := by
  induction h generalizing position position' slots with
  | nil =>
    obtain rfl := Script.Stretch.clean_pure.1 hs
    exact ⟨[], Script.Stretch.clean_pure.2 rfl, .nil⟩
  | keep hserved _ ih =>
    obtain ⟨slot, others, rfl, hslot, hothers⟩ := clean_startAll_cons.1 hs
    obtain ⟨slot', hslot', hserved'⟩ := hserved.exists_start position' hslot
    obtain ⟨others', hothers', hrest⟩ := ih (position' + 1) hothers
    exact ⟨slot' :: others', clean_startAll_cons.2 ⟨slot', others', rfl, hslot', hothers'⟩,
      .keep hserved' hrest⟩
  | drop hidle hmay _ ih =>
    obtain ⟨slot, others, rfl, hslot, hothers⟩ := clean_startAll_cons.1 hs
    obtain ⟨others', hothers', hrest⟩ := ih position' hothers
    exact ⟨others', hothers', .drop (hidle.front_eq_none hslot) hmay hrest⟩

end Operand

namespace Script

/-- A merge of a single slot gives its nodes out one by one. -/
theorem round_single (op : SetOp) (slot : Slot) :
    round op [slot] = slot.front.map fun node =>
      (slot.advance op).bind fun next => .pure (some node, [next]) := by
  have hmove : ∀ {move : Slot → Stretch Slot} (out : Option Node),
      ((moveAll move [slot]).bind fun next => .pure (out, next)) =
        (move slot).bind fun next => .pure (out, [next]) := fun {move} out => by
    simp only [moveAll, Stretch.pure_bind, Stretch.bind_assoc]
  cases hfront : slot.front with
  | none => cases op <;> simp [round, fronts?, hfront, Node.earliest?]
  | some node =>
    cases op with
    | union =>
      have hmin : Node.earliest? ([slot].filterMap Slot.front) = some node := by
        simp [hfront, Node.earliest?]
      rw [round_union hmin, hmove, moveIf, if_pos (by simp [hfront])]
      rfl
    | intersect =>
      have hfronts : fronts? [slot] = some [node] := by simp [fronts?, hfront]
      have hmax : Node.latest? [node] = some node := rfl
      rw [round_intersect hfronts hmax, if_pos (by simp [hfront]), hmove]
      rfl
    | except =>
      rw [round_except hfront, moveAll, Option.map_some, Stretch.pure_bind]
      rfl

/-- What a merge of a single slot has to do with it. -/
theorem Merges.served_single {op : SetOp} {slot : Slot} {s : Script} (h : Merges op [slot] s)
    (hr : slot.Ready) :
    s.heard hears <+: slot.heard hears ∧
      (s.Clean hears → slot.rest.Clean hears ∧ slot.heard hears = s.heard hears) := by
  generalize hslots : [slot] = slots at h
  induction h generalizing slot with
  | finished hround =>
    subst hslots
    rw [round_single, Option.map_eq_none_iff] at hround
    rw [hr hround, Slot.heard_of_front_none hr hround]
    exact ⟨ List.nil_prefix, fun hclean => ⟨hclean, rfl⟩⟩
  | failed hround =>
    rw [Script.heard, Step.heard_of_silent (silent_round hround)]
    refine ⟨ List.nil_prefix, ?_⟩
    intro hclean
    cases hclean.fault
  | @next slots next steps out s hround hlater ih =>
    subst hslots
    have hsilent : Step.heard hears steps = [] := Step.heard_of_silent (silent_round hround)
    rw [after_append]
    cases hquiet : Step.allQuiet hears steps with
    | false =>
      rw [heard_after_of_not_quiet hquiet, hsilent, clean_after, hquiet]
      refine ⟨ List.nil_prefix, ?_⟩
      rintro ⟨hc, _⟩
      cases hc
    | true =>
      rw [round_single, Option.map_eq_some_iff] at hround
      obtain ⟨node, hfront, hst⟩ := hround
      have hclean : ((slot.advance op).bind fun next => .pure (some node, [next])).Clean hears
          (out, next) := by
        rw [hst]; exact ⟨rfl, hquiet⟩
      obtain ⟨t, ht, hpure⟩ := Stretch.clean_bind.1 hclean
      obtain ⟨rfl, rfl⟩ := Prod.mk.inj (Stretch.clean_pure.1 hpure)
      obtain ⟨hready, hheard, hrest⟩ := Slot.advance_spec ht
      obtain ⟨hstarts, hcomplete⟩ := ih hready rfl
      rw [heard_after_of_quiet hquiet, hsilent, List.nil_append,
        heard_after_of_quiet (allQuiet_emit _), heard_emit, Slot.heard_of_front_some hfront,
        ← hheard, clean_after, clean_after]
      refine ⟨(List.prefix_cons_inj node).2 hstarts, ?_⟩
      rintro ⟨_, _, hs⟩
      obtain ⟨hc, hsame⟩ := hcomplete hs
      exact ⟨hrest.2 hc, by rw [hsame]; rfl⟩

end Script

namespace Source

/-- **An operator is served by the operator on operands that serve.** -/
theorem served_ofSet {op : SetOp} {operands operands' : List Operand}
    (h : Operand.Reduces hears op true operands operands') :
    (ofSet op operands).script.ServedBy hears (ofSet op operands').script := by
  by_cases hstart : ∃ slots, (Operand.startAll op 0 operands).Clean hears slots
  · obtain ⟨slots, hslots⟩ := hstart
    obtain ⟨slots', hslots', hr⟩ := h.exists_startAll 0 hslots
    rw [script_ofSet hslots.result, script_ofSet hslots'.result]
    refine Script.ServedBy.after ?_ hslots'.quiet ?_
    · exact (Script.merges_merge op slots).served (Script.merges_merge op slots') hr
    · rw [Step.heard_of_silent (Operand.silent_startAll op 0 operands),
        Step.heard_of_silent (Operand.silent_startAll op 0 operands')]
  · exact .of_failed _ (cut_ofSet hstart).1 (cut_ofSet hstart).2

theorem ofSet_nil (op : SetOp) : (ofSet op []).script = .empty := by
  have hround : Script.round op [] = none := by cases op <;> rfl
  have hstart : (Operand.startAll op 0 []).result = .ok [] := rfl
  rw [script_ofSet hstart, (Script.merges_merge op []).eq_empty hround]
  rfl

/-- **An operator on a single operand that is read node by node is served by the operand.** -/
theorem served_single (op : SetOp) {o : Operand} (h : o.sorted = true) :
    (ofSet op [o]).script.ServedBy hears o.source.script := by
  by_cases hstart : ∃ slots, (Operand.startAll op 0 [o]).Clean hears slots
  · obtain ⟨slots, hslots⟩ := hstart
    obtain ⟨slot, others, rfl, hslot, hothers⟩ := Operand.clean_startAll_cons.1 hslots
    obtain rfl := Script.Stretch.clean_pure.1 hothers
    obtain ⟨s, hs, hslot⟩ := Script.Stretch.clean_bind.1 hslot
    rw [if_pos h] at hs
    obtain rfl := Script.Stretch.clean_pure.1 hs
    obtain ⟨hready, hheard, hclean⟩ := Script.Slot.advance_spec hslot
    obtain ⟨hstarts, hcomplete⟩ := (Script.merges_merge op [slot]).served_single hready
    have hnil : Step.heard hears (Operand.startAll op 0 [o]).steps = [] :=
      Step.heard_of_silent (Operand.silent_startAll op 0 [o])
    rw [script_ofSet hslots.result]
    constructor
    · rw [Script.heard_after_of_quiet hslots.quiet, hnil, List.nil_append]
      exact hheard ▸ hstarts
    · intro hc
      obtain ⟨hrest, hsame⟩ := hcomplete (Script.clean_after.1 hc).2
      rw [Script.heard_after_of_quiet hslots.quiet, hnil, List.nil_append, ← hsame]
      exact ⟨hclean.2 hrest, hheard.symm⟩
  · exact .of_failed _ (cut_ofSet hstart).1 (cut_ofSet hstart).2

end Source

end XmlStore
