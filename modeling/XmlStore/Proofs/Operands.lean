import XmlStore.Proofs.MergeLaw

/-!
# The law of set operators

A set operator merges its operands in the order of nodes whatever order they come in: an operand
that is not known to ascend is put in order first.

* `Operand.nodes` — what an operand gives to the merge.
* `Operand.Sound` — an operand that is said to ascend does so; nothing is asked of the others.
* `Source.lists_ofSet` — over sound operands, the script of an operator lists what the operator
  selects from them.
-/

namespace XmlStore

variable {hears : List SignalId → Bool}

namespace Operand

/-- The nodes that an operand gives to a merge. -/
def nodes (hears : List SignalId → Bool) (o : Operand) : List Node :=
  if o.sorted then o.source.script.heard hears else sortDistinct (o.source.script.heard hears)

/-- An operand that is said to ascend does so. -/
def Sound (hears : List SignalId → Bool) (o : Operand) : Prop :=
  o.sorted = true → (o.source.script.heard hears).Pairwise (· < ·)

theorem pairwise_nodes {o : Operand} (h : o.Sound hears) : (o.nodes hears).Pairwise (· < ·) := by
  unfold nodes
  split
  · rename_i hsorted; exact h hsorted
  · exact pairwise_sortDistinct _

theorem mem_nodes {o : Operand} {node : Node} :
    node ∈ o.nodes hears ↔ node ∈ o.source.script.heard hears := by
  unfold nodes
  split
  · rfl
  · exact mem_sortDistinct

theorem silent_read (op : SetOp) (position : Nat) (o : Operand) : (o.read op position).Silent := by
  have hsilent := Step.allSilent_filter_silent o.source.script.steps
  unfold read
  split
  · exact hsilent
  · show Step.allSilent (_ ++ _) = true
    rw [Step.allSilent_append, hsilent]; rfl

/-- An operand that is read to its end leaves its nodes in order. -/
theorem clean_read {op : SetOp} {position : Nat} {o : Operand} {s : Script} :
    (o.read op position).Clean hears s ↔
      o.source.script.Clean hears ∧ s = .ofNodes (sortDistinct (o.source.script.heard hears)) := by
  unfold read
  cases hfault : o.source.script.fault with
  | some fault =>
    constructor
    · intro h
      cases h.result
    · rintro ⟨h, _⟩
      rw [h.fault] at hfault
      cases hfault
  | none =>
    constructor
    · rintro ⟨hresult, hquiet⟩
      rw [Step.allQuiet_append, Step.allQuiet_filter_silent, Bool.and_eq_true] at hquiet
      have hclean : o.source.script.Clean hears := ⟨hfault, hquiet.1⟩
      exact ⟨hclean, by rw [hclean.heard]; exact (Except.ok.inj hresult).symm⟩
    · rintro ⟨hclean, rfl⟩
      refine ⟨by rw [hclean.heard], ?_⟩
      rw [Step.allQuiet_append, Step.allQuiet_filter_silent, hclean.quiet]; rfl

theorem silent_start (op : SetOp) (position : Nat) (o : Operand) :
    (o.start op position).Silent := by
  unfold start
  refine Script.Stretch.silent_bind ?_ fun _ => Script.Slot.silent_advance op _
  split
  · exact Script.Stretch.silent_pure _
  · exact silent_read op position o

/-- The slot of a sound operand is sound and has the nodes of the operand. -/
theorem start_spec {op : SetOp} {position : Nat} {o : Operand} {slot : Script.Slot}
    (ho : o.Sound hears) (h : (o.start op position).Clean hears slot) :
    slot.Sound hears ∧ slot.heard hears = o.nodes hears ∧
      (o.source.script.Clean hears → slot.rest.Clean hears) := by
  have hasc := pairwise_nodes ho
  obtain ⟨script, hscript, hslot⟩ := Script.Stretch.clean_bind.1 h
  obtain ⟨hready, hheard, hclean⟩ := Script.Slot.advance_spec hslot
  have hnodes : script.heard hears = o.nodes hears ∧
      (o.source.script.Clean hears → script.Clean hears) := by
    unfold nodes
    split at hscript
    · rename_i hsorted
      obtain rfl := Script.Stretch.clean_pure.1 hscript
      exact ⟨by rw [if_pos hsorted], id⟩
    · rename_i hsorted
      obtain ⟨_, rfl⟩ := clean_read.1 hscript
      exact ⟨by rw [if_neg hsorted, Script.heard_ofNodes], fun _ => Script.clean_ofNodes _⟩
  have heq : slot.heard hears = o.nodes hears := hheard.trans hnodes.1
  exact ⟨⟨hready, heq ▸ hasc⟩, heq, fun hc => hclean.1 (hnodes.2 hc)⟩

theorem clean_start (op : SetOp) (position : Nat) {o : Operand} (h : o.source.script.Clean hears) :
    ∃ slot, (o.start op position).Clean hears slot := by
  have hscript : ∃ script, (if o.sorted then .pure o.source.script
      else o.read op position).Clean hears script ∧ script.Clean hears := by
    split
    · exact ⟨_, Script.Stretch.clean_pure.2 rfl, h⟩
    · exact ⟨_, clean_read.2 ⟨h, rfl⟩, Script.clean_ofNodes _⟩
  obtain ⟨script, hscript, hclean⟩ := hscript
  obtain ⟨slot, hslot⟩ := Script.Slot.clean_advance op
    (s := { position := position, front := none, rest := script }) hclean
  exact ⟨slot, Script.Stretch.clean_bind.2 ⟨script, hscript, hslot⟩⟩

theorem clean_startAll_cons {op : SetOp} {position : Nat} {o : Operand} {rest : List Operand}
    {slots : List Script.Slot} :
    (startAll op position (o :: rest)).Clean hears slots ↔
      ∃ slot others, slots = slot :: others ∧ (o.start op position).Clean hears slot ∧
        (startAll op (position + 1) rest).Clean hears others := by
  rw [startAll, Script.Stretch.clean_bind]
  constructor
  · rintro ⟨slot, hslot, h⟩
    obtain ⟨others, hothers, h⟩ := Script.Stretch.clean_bind.1 h
    exact ⟨slot, others, (Script.Stretch.clean_pure.1 h).symm, hslot, hothers⟩
  · rintro ⟨slot, others, hslots, hslot, hothers⟩
    exact ⟨slot, hslot, Script.Stretch.clean_bind.2
      ⟨others, hothers, Script.Stretch.clean_pure.2 hslots.symm⟩⟩

theorem silent_startAll (op : SetOp) (position : Nat) (operands : List Operand) :
    (startAll op position operands).Silent := by
  induction operands generalizing position with
  | nil => exact Script.Stretch.silent_pure []
  | cons o rest ih =>
    exact Script.Stretch.silent_bind (silent_start op position o) fun _ =>
      Script.Stretch.silent_bind (ih (position + 1)) fun _ => Script.Stretch.silent_pure _

theorem startAll_spec {op : SetOp} {position : Nat} {operands : List Operand}
    {slots : List Script.Slot} (hs : ∀ o ∈ operands, o.Sound hears)
    (h : (startAll op position operands).Clean hears slots) :
    (∀ slot ∈ slots, slot.Sound hears) ∧
      slots.map (Script.Slot.heard hears) = operands.map (nodes hears) ∧
      ((∀ o ∈ operands, o.source.script.Clean hears) → ∀ slot ∈ slots, slot.rest.Clean hears) := by
  induction operands generalizing position slots with
  | nil =>
    obtain rfl := Script.Stretch.clean_pure.1 h
    simp
  | cons o rest ih =>
    obtain ⟨ho, hrest⟩ := List.forall_mem_cons.1 hs
    obtain ⟨slot, others, rfl, hslot, hothers⟩ := clean_startAll_cons.1 h
    obtain ⟨hsound, hheard, hclean⟩ := start_spec ho hslot
    obtain ⟨hsounds, hmap, hcleans⟩ := ih hrest hothers
    refine ⟨List.forall_mem_cons.2 ⟨hsound, hsounds⟩,
      by rw [List.map_cons, List.map_cons, hheard, hmap], ?_⟩
    intro hall
    obtain ⟨hc, hcs⟩ := List.forall_mem_cons.1 hall
    exact List.forall_mem_cons.2 ⟨hclean hc, hcleans hcs⟩

theorem clean_startAll (op : SetOp) (position : Nat) {operands : List Operand}
    (h : ∀ o ∈ operands, o.source.script.Clean hears) :
    ∃ slots, (startAll op position operands).Clean hears slots := by
  induction operands generalizing position with
  | nil => exact ⟨[], Script.Stretch.clean_pure.2 rfl⟩
  | cons o rest ih =>
    obtain ⟨ho, hrest⟩ := List.forall_mem_cons.1 h
    obtain ⟨slot, hslot⟩ := clean_start op position ho
    obtain ⟨slots, hslots⟩ := ih (position + 1) hrest
    exact ⟨slot :: slots, clean_startAll_cons.2 ⟨slot, slots, rfl, hslot, hslots⟩⟩

end Operand

namespace Source

theorem script_ofSet {op : SetOp} {operands : List Operand} {slots : List Script.Slot}
    (h : (Operand.startAll op 0 operands).result = .ok slots) :
    (ofSet op operands).script =
      (Script.merge op slots).after (Operand.startAll op 0 operands).steps := by
  unfold ofSet
  split <;> rename_i hstart <;> rw [hstart] at h ⊢
  · cases h
  · rw [Except.ok.inj h]

/-- An operator that does not get all of its slots started yields nothing. -/
theorem cut_ofSet {op : SetOp} {operands : List Operand}
    (h : ¬ ∃ slots, (Operand.startAll op 0 operands).Clean hears slots) :
    (ofSet op operands).script.heard hears = [] ∧ ¬ (ofSet op operands).script.Clean hears := by
  have hnil : Step.heard hears (Operand.startAll op 0 operands).steps = [] :=
    Step.heard_of_silent (Operand.silent_startAll op 0 operands)
  cases hresult : (Operand.startAll op 0 operands).result with
  | error fault =>
    have hscript : (ofSet op operands).script =
        { steps := (Operand.startAll op 0 operands).steps, fault := some fault } := by
      unfold ofSet
      split <;> rename_i hstart <;> rw [hstart] at hresult ⊢
      · rw [Except.error.inj hresult]
      · cases hresult
    rw [hscript]
    exact ⟨hnil, fun hclean => by cases hclean.fault⟩
  | ok slots =>
    have hloud : Step.allQuiet hears (Operand.startAll op 0 operands).steps = false := by
      rw [← Bool.not_eq_true]
      exact fun hquiet => h ⟨slots, hresult, hquiet⟩
    rw [script_ofSet hresult, Script.heard_after_of_not_quiet hloud, Script.clean_after]
    exact ⟨hnil, fun hclean => by simp [hloud] at hclean⟩

/-- **The law of set operators.** -/
theorem lists_ofSet (op : SetOp) {operands : List Operand}
    (hs : ∀ o ∈ operands, o.Sound hears) :
    (ofSet op operands).script.Lists hears
      (fun node => op.Selects (node ∈ ·) (operands.map (Operand.nodes hears)))
      (∀ o ∈ operands, o.source.script.Clean hears) := by
  by_cases hstart : ∃ slots, (Operand.startAll op 0 operands).Clean hears slots
  · obtain ⟨slots, hslots⟩ := hstart
    obtain ⟨hsound, hmap, hcleans⟩ := Operand.startAll_spec hs hslots
    obtain ⟨hsel, hasc, hcomplete⟩ := (Script.merges_merge op slots).law hsound
    have hsame : ∀ node, Script.selected hears op slots node ↔
        op.Selects (node ∈ ·) (operands.map (Operand.nodes hears)) := by
      intro node
      rw [Script.selected, hmap]
    rw [script_ofSet hslots.result]
    refine .after_silent (Operand.silent_startAll op 0 operands) (fun _ => ?_)
      fun _ => hslots.quiet
    refine ⟨fun node hn => (hsame node).1 (hsel node hn), hasc, ?_⟩
    intro hall
    obtain ⟨hc, hin⟩ := hcomplete (hcleans hall)
    exact ⟨hc, fun node hn => hin node ((hsame node).2 hn)⟩
  · exact .of_cut (cut_ofSet hstart).1 fun hall => hstart (Operand.clean_startAll op 0 hall)

end Source

end XmlStore
