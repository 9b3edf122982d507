import XmlStore.Proofs.Slots

/-!
# The law of merging

What comes out of a merge is what the operator selects from its slots.

* `SetOp.Selects` — the meaning of an operator, given for every operand whether it has a node.
* `Script.round_spec` — one round of a merge over ascending slots: what was selected before is what
  comes out now or, behind it, is selected afterwards.
* `Script.Merges.law` — hence a merge yields only selected nodes and yields them in order, even if
  it fails in the end; over clean slots it is clean and yields all of them.
-/

namespace XmlStore

/-- What an operator selects, given which operands have the thing in question: any of them has it;
there are operands and all have it; the first one has it and no later one. -/
def SetOp.Selects {α : Type} (has : α → Prop) : SetOp → List α → Prop
  | union, operands => ∃ o ∈ operands, has o
  | intersect, operands => operands ≠ [] ∧ ∀ o ∈ operands, has o
  | except, [] => False
  | except, first :: rest => has first ∧ ∀ o ∈ rest, ¬ has o

theorem SetOp.selects_map {α β : Type} (op : SetOp) (has : β → Prop) (f : α → β) (xs : List α) :
    op.Selects has (xs.map f) ↔ op.Selects (fun x => has (f x)) xs := by
  cases op with
  | union =>
    simp only [Selects, List.mem_map]
    constructor
    · rintro ⟨_, ⟨x, hx, rfl⟩, hh⟩
      exact ⟨x, hx, hh⟩
    · rintro ⟨x, hx, hh⟩
      exact ⟨f x, ⟨x, hx, rfl⟩, hh⟩
  | intersect => simp [Selects]
  | except => cases xs <;> simp [Selects]

theorem SetOp.selects_of_map_eq {α β : Type} (op : SetOp) {has : α → Prop} {has' : β → Prop}
    {xs : List α} {ys : List β} (h : xs.map has = ys.map has') :
    op.Selects has xs ↔ op.Selects has' ys := by
  have hxs := op.selects_map id has xs
  rw [h] at hxs
  exact hxs.symm.trans (op.selects_map id has' ys)

namespace Script

variable {hears : List SignalId → Bool}

/-! ## One round -/

/-- Whether an operator selects a node from what slots hear. -/
def selected (hears : List SignalId → Bool) (op : SetOp) (slots : List Slot) (node : Node) : Prop :=
  op.Selects (node ∈ ·) (slots.map (Slot.heard hears))

/-- What a round does over sound slots: the selected nodes are the one that comes out and, behind
it, those that are selected afterwards. -/
structure Round (hears : List SignalId → Bool) (op : SetOp) (slots : List Slot)
    (out : Option Node) (next : List Slot) : Prop where
  sound : ∀ t ∈ next, t.Sound hears
  clean : (∀ s ∈ slots, s.rest.Clean hears) → ∀ t ∈ next, t.rest.Clean hears
  selected : ∀ node, selected hears op slots node ↔ out = some node ∨ selected hears op next node
  below : ∀ first, out = some first → ∀ node, Script.selected hears op next node → first < node

/-- Selection after a move, said of the slots before it. -/
theorem selected_of_map {op : SetOp} {slots next : List Slot} {change : Slot → List Node}
    (h : next.map (Slot.heard hears) = slots.map change) (node : Node) :
    selected hears op next node ↔ op.Selects (fun s => node ∈ change s) slots := by
  rw [selected, h, SetOp.selects_map]

theorem selected_iff {op : SetOp} {slots : List Slot} (node : Node) :
    selected hears op slots node ↔ op.Selects (fun s => node ∈ s.heard hears) slots :=
  selected_of_map rfl node

/-- The earliest front comes out, and every slot that holds it gives it up. -/
theorem round_union_spec {slots next : List Slot} {node : Node}
    (hs : ∀ s ∈ slots, s.Sound hears)
    (hmin : Node.earliest? (slots.filterMap Slot.front) = some node)
    (h : (moveAll (moveIf .union (·.front == some node)) slots).Clean hears next) :
    Round hears .union slots (some node) next := by
  obtain ⟨hsound, hmap, hclean⟩ := (moves_moveIf .union (·.front == some node)).all hs h
  refine ⟨hsound, hclean, ?_, ?_⟩
  · intro n
    rw [selected_iff, selected_of_map hmap]
    constructor
    · rintro ⟨s, hmem, hn⟩
      by_cases he : n = node
      · exact Or.inl (he ▸ rfl)
      · refine Or.inr ⟨s, hmem, Slot.mem_left (hs s hmem).ready hn fun hwhich hfront => he ?_⟩
        rw [hfront] at hwhich
        simpa using hwhich
    · rintro (hout | ⟨s, hmem, hn⟩)
      · obtain rfl := Option.some.inj hout
        obtain ⟨s, hmem, hfront⟩ := exists_front (Node.earliest?_mem hmin)
        exact ⟨s, hmem, (Slot.mem_heard_of_front hfront).2 (Or.inl rfl)⟩
      · exact ⟨s, hmem, Slot.mem_heard_of_mem_left hn⟩
  · intro first hfirst n hn
    obtain rfl := Option.some.inj hfirst
    obtain ⟨s, hmem, hn⟩ := (selected_of_map hmap n).1 hn
    obtain ⟨front, hfront⟩ :=
      Slot.exists_front_of_mem (hs s hmem).ready (Slot.mem_heard_of_mem_left hn)
    by_cases he : front = node
    · rw [Slot.left, if_pos (by simp [hfront, he])] at hn
      exact he ▸ (hs s hmem).front_lt_tail hfront hn
    · -- the front of this slot is not the earliest one, so all of its nodes are later
      have hlt : node < front := Node.lt_of_le_of_ne
        (Node.earliest?_le hmin front (List.mem_filterMap.2 ⟨s, hmem, hfront⟩)) (Ne.symm he)
      have hle := (hs s hmem).front_le hfront (Slot.mem_heard_of_mem_left hn)
      exact (Node.le_def.1 hle).elim (Node.lt_trans hlt) (· ▸ hlt)

/-- While all fronts are equal, they come out together. -/
theorem round_intersect_all_spec {slots next : List Slot} {node : Node}
    (hs : ∀ s ∈ slots, s.Sound hears) (hne : slots ≠ [])
    (hfront : ∀ s ∈ slots, s.front = some node)
    (h : (moveAll (moveIf .intersect fun _ => true) slots).Clean hears next) :
    Round hears .intersect slots (some node) next := by
  obtain ⟨hsound, hmap, hclean⟩ := (moves_moveIf .intersect fun _ => true).all hs h
  refine ⟨hsound, hclean, ?_, ?_⟩
  · intro n
    rw [selected_iff, selected_of_map hmap]
    constructor
    · rintro ⟨_, hn⟩
      by_cases he : n = node
      · exact Or.inl (he ▸ rfl)
      · refine Or.inr ⟨hne, fun s hmem => ?_⟩
        exact ((Slot.mem_heard_of_front (hfront s hmem)).1 (hn s hmem)).resolve_left he
    · rintro (hout | ⟨_, hn⟩)
      · obtain rfl := Option.some.inj hout
        exact ⟨hne, fun s hmem => (Slot.mem_heard_of_front (hfront s hmem)).2 (Or.inl rfl)⟩
      · exact ⟨hne, fun s hmem => Slot.mem_heard_of_mem_left (hn s hmem)⟩
  · intro first hfirst n hn
    obtain rfl := Option.some.inj hfirst
    obtain ⟨_, hn⟩ := (selected_of_map hmap n).1 hn
    obtain ⟨s, hmem⟩ := List.exists_mem_of_ne_nil slots hne
    exact (hs s hmem).front_lt_tail (hfront s hmem) (hn s hmem)

/-- While the fronts differ, those before the latest one are no common nodes. -/
theorem round_intersect_some_spec {slots next : List Slot} {nodes : List Node} {node : Node}
    (hs : ∀ s ∈ slots, s.Sound hears) (hfronts : fronts? slots = some nodes)
    (hmax : Node.latest? nodes = some node)
    (h : (moveAll (moveIf .intersect (·.front != some node)) slots).Clean hears next) :
    Round hears .intersect slots none next := by
  obtain ⟨hsound, hmap, hclean⟩ := (moves_moveIf .intersect (·.front != some node)).all hs h
  refine ⟨hsound, hclean, ?_, fun _ hfirst => by cases hfirst⟩
  intro n
  rw [selected_iff, selected_of_map hmap]
  constructor
  · rintro ⟨hne, hn⟩
    obtain ⟨latest, hlatest, hfront⟩ := (mem_of_fronts? hfronts).1 (Node.latest?_mem hmax)
    have hge : node ≤ n := (hs latest hlatest).front_le hfront (hn latest hlatest)
    refine Or.inr ⟨hne, fun s hmem => Slot.mem_left (hs s hmem).ready (hn s hmem) ?_⟩
    intro hwhich hsome
    have hle : n ≤ node := Node.le_latest? hmax n ((mem_of_fronts? hfronts).2 ⟨s, hmem, hsome⟩)
    have he : n ≠ node := fun he => by simp [hsome, he] at hwhich
    exact Node.not_lt_of_le hge (Node.lt_of_le_of_ne hle he)
  · rintro (hout | ⟨hne, hn⟩)
    · cases hout
    · exact ⟨hne, fun s hmem => Slot.mem_heard_of_mem_left (hn s hmem)⟩

/-- The front of the first slot comes out, unless a later slot holds it after those before it are
skipped. -/
theorem round_except_spec {first head : Slot} {rest others : List Slot} {node : Node}
    (hs : ∀ s ∈ first :: rest, s.Sound hears) (hfront : first.front = some node)
    (hrest : (moveAll (skipBelow .except node) rest).Clean hears others)
    (hhead : (first.advance .except).Clean hears head) :
    Round hears .except (first :: rest)
      (if others.any (·.front == some node) then none else some node) (head :: others) := by
  obtain ⟨hfirst, hsrest⟩ := List.forall_mem_cons.1 hs
  obtain ⟨hsound, hmap, hclean⟩ := (moves_skipBelow .except node).all hsrest hrest
  obtain ⟨hheadSound, htail⟩ := hfirst.advance hhead
  have hselected : ∀ n, selected hears .except (head :: others) n ↔
      n ∈ (first.heard hears).tail ∧
        ∀ s ∈ rest, n ∉ (s.heard hears).dropWhile fun m => decide (m < node) := by
    intro n
    rw [selected, List.map_cons, hmap, htail]
    simp [SetOp.Selects]
  have hexcluded : others.any (·.front == some node) = true ↔ ∃ s ∈ rest, node ∈ s.heard hears :=
    any_front_skipped hsrest hrest
  refine ⟨List.forall_mem_cons.2 ⟨hheadSound, hsound⟩, ?_, ?_, ?_⟩
  · intro hall
    obtain ⟨hc, hcs⟩ := List.forall_mem_cons.1 hall
    exact List.forall_mem_cons.2 ⟨(Slot.advance_spec hhead).2.2.1 hc, hclean hcs⟩
  · intro n
    rw [selected_iff, hselected]
    have hlater : n ∈ (first.heard hears).tail → ∀ s ∈ rest,
        (n ∈ (s.heard hears).dropWhile (fun m => decide (m < node)) ↔ n ∈ s.heard hears) :=
      fun hn s hmem => mem_dropWhile_below (hsrest s hmem).ascends
        (Node.le_def.2 (Or.inl (hfirst.front_lt_tail hfront hn)))
    constructor
    · rintro ⟨hn, hnot⟩
      rcases (Slot.mem_heard_of_front hfront).1 hn with rfl | hn
      · left
        rw [if_neg]
        rw [hexcluded]
        rintro ⟨s, hmem, hin⟩
        exact hnot s hmem hin
      · exact Or.inr ⟨hn, fun s hmem hin => hnot s hmem ((hlater hn s hmem).1 hin)⟩
    · rintro (hout | ⟨hn, hnot⟩)
      · split at hout
        · cases hout
        · rename_i hnone
          obtain rfl := Option.some.inj hout
          refine ⟨(Slot.mem_heard_of_front hfront).2 (Or.inl rfl), fun s hmem hin => ?_⟩
          exact hnone (hexcluded.2 ⟨s, hmem, hin⟩)
      · exact ⟨List.mem_of_mem_tail hn, fun s hmem hin => hnot s hmem ((hlater hn s hmem).2 hin)⟩
  · intro m hm n hn
    split at hm
    · cases hm
    · obtain rfl := Option.some.inj hm
      exact hfirst.front_lt_tail hfront ((hselected n).1 hn).1

/-- **One round of a merge over sound slots.** -/
theorem round_spec {op : SetOp} {slots next : List Slot}
    {st : Stretch (Option Node × List Slot)} {out : Option Node}
    (hs : ∀ s ∈ slots, s.Sound hears) (h : round op slots = some st)
    (hst : st.Clean hears (out, next)) : Round hears op slots out next := by
  cases turn_of_round h with
  | earliest hmin =>
    obtain ⟨rfl, hnext⟩ := clean_moveAll_bind.1 hst
    exact round_union_spec hs hmin hnext
  | common hfronts hmax hall =>
    obtain ⟨rfl, hnext⟩ := clean_moveAll_bind.1 hst
    have hne : slots ≠ [] := by
      rintro rfl
      obtain rfl := Option.some.inj hfronts
      cases hmax
    refine round_intersect_all_spec hs hne ?_ hnext
    intro s hmem
    simpa using List.all_eq_true.1 hall s hmem
  | behind hfronts hmax _ =>
    obtain ⟨rfl, hnext⟩ := clean_moveAll_bind.1 hst
    exact round_intersect_some_spec hs hfronts hmax hnext
  | first hfront =>
    obtain ⟨others, hrest, hst⟩ := Stretch.clean_bind.1 hst
    obtain ⟨head, hhead, hpure⟩ := Stretch.clean_bind.1 hst
    obtain ⟨rfl, rfl⟩ := Prod.mk.inj (Stretch.clean_pure.1 hpure)
    exact round_except_spec hs hfront hrest hhead

/-- A merge ends when nothing is selected any more. -/
theorem not_selected_of_round_none {op : SetOp} {slots : List Slot}
    (hs : ∀ s ∈ slots, s.Sound hears) (h : round op slots = none) (node : Node) :
    ¬ selected hears op slots node := by
  rw [selected_iff]
  intro hsel
  cases op with
  | union =>
    rw [round, Option.map_eq_none_iff, Node.earliest?_eq_none] at h
    obtain ⟨s, hmem, hn⟩ := hsel
    obtain ⟨front, hfront⟩ := Slot.exists_front_of_mem (hs s hmem).ready hn
    have hin : front ∈ slots.filterMap Slot.front := List.mem_filterMap.2 ⟨s, hmem, hfront⟩
    rw [h] at hin
    cases hin
  | intersect =>
    rw [round, Option.map_eq_none_iff] at h
    obtain ⟨hne, hn⟩ := hsel
    cases hfronts : fronts? slots with
    | none =>
      obtain ⟨s, hmem, hnone⟩ := exists_front_none hfronts
      obtain ⟨front, hfront⟩ := Slot.exists_front_of_mem (hs s hmem).ready (hn s hmem)
      rw [hnone] at hfront
      cases hfront
    | some nodes =>
      rw [hfronts, Option.bind_some, Node.latest?_eq_none] at h
      obtain ⟨s, hmem⟩ := List.exists_mem_of_ne_nil slots hne
      obtain ⟨front, hfront⟩ := Slot.exists_front_of_mem (hs s hmem).ready (hn s hmem)
      have hin := (mem_of_fronts? hfronts).2 ⟨s, hmem, hfront⟩
      rw [h] at hin
      cases hin
  | except =>
    cases slots with
    | nil => exact hsel
    | cons first rest =>
      rw [round, Option.map_eq_none_iff] at h
      obtain ⟨front, hfront⟩ :=
        Slot.exists_front_of_mem (hs first List.mem_cons_self).ready hsel.1
      rw [h] at hfront
      cases hfront

/-- A round fails only if a slot does. -/
theorem clean_round {op : SetOp} {slots : List Slot} {st : Stretch (Option Node × List Slot)}
    (hs : ∀ s ∈ slots, s.rest.Clean hears) (h : round op slots = some st) :
    ∃ r, st.Clean hears r := by
  have hpure : ∀ {move : Slot → Stretch Slot} {change : Slot → List Node} (out : Option Node),
      Moves hears move change →
      ∃ r, ((moveAll move slots).bind fun next => .pure (out, next)).Clean hears r := by
    intro move change out hm
    obtain ⟨next, hnext⟩ := hm.clean_all hs
    exact ⟨(out, next), clean_moveAll_bind.2 ⟨rfl, hnext⟩⟩
  cases turn_of_round h with
  | earliest => exact hpure _ (moves_moveIf _ _)
  | common => exact hpure _ (moves_moveIf _ _)
  | behind => exact hpure _ (moves_moveIf _ _)
  | @first first rest node =>
    obtain ⟨hfirst, hrest⟩ := List.forall_mem_cons.1 hs
    obtain ⟨others, hothers⟩ := (moves_skipBelow .except node).clean_all hrest
    obtain ⟨head, hhead⟩ := Slot.clean_advance .except hfirst
    exact ⟨_, Stretch.clean_bind.2 ⟨others, hothers, Stretch.clean_bind.2
      ⟨head, hhead, Stretch.clean_pure.2 rfl⟩⟩⟩

/-! ## Whole merges -/

/-- A script that lists the wanted nodes yields only these and in order, and if it is able to, it
yields all of them and comes to its end. -/
structure Lists (hears : List SignalId → Bool) (wanted : Node → Prop) (able : Prop) (s : Script) :
    Prop where
  sound : ∀ node ∈ s.heard hears, wanted node
  ascends : (s.heard hears).Pairwise (· < ·)
  complete : able → s.Clean hears ∧ ∀ node, wanted node → node ∈ s.heard hears

/-- Nothing is asked of a script that is cut before its first node. -/
theorem Lists.of_cut {wanted : Node → Prop} {able : Prop} {s : Script}
    (hnodes : s.heard hears = []) (h : ¬ able) : s.Lists hears wanted able := by
  refine ⟨?_, hnodes ▸ List.Pairwise.nil, fun hable => absurd hable h⟩
  intro node hn
  rw [hnodes] at hn
  cases hn

/-- Steps that yield nothing may be put in front, if the script is excused for loud ones. -/
theorem Lists.after_silent {wanted : Node → Prop} {able : Prop} {s : Script}
    {steps : List (Step Node)} (hsilent : Step.allSilent steps = true)
    (hs : Step.allQuiet hears steps = true → s.Lists hears wanted able)
    (hloud : able → Step.allQuiet hears steps = true) :
    (s.after steps).Lists hears wanted able := by
  cases hquiet : Step.allQuiet hears steps with
  | true =>
    have hnodes : (s.after steps).heard hears = s.heard hears := by
      rw [heard_after_of_quiet hquiet, Step.heard_of_silent hsilent, List.nil_append]
    obtain ⟨hsound, hascends, hcomplete⟩ := hs hquiet
    refine ⟨hnodes ▸ hsound, hnodes ▸ hascends, ?_⟩
    intro hable
    obtain ⟨hclean, hall⟩ := hcomplete hable
    exact ⟨clean_after.2 ⟨hquiet, hclean⟩, hnodes ▸ hall⟩
  | false =>
    refine .of_cut ?_ fun hable => ?_
    · rw [heard_after_of_not_quiet hquiet, Step.heard_of_silent hsilent]
    · rw [hloud hable] at hquiet
      cases hquiet

theorem after_append (s : Script) (a b : List (Step Node)) :
    s.after (a ++ b) = (s.after b).after a := by
  rw [after, after, after, List.append_assoc]

/-- What comes out of a round goes before what is listed after it. -/
theorem Round.lists {op : SetOp} {slots next : List Slot} {out : Option Node} {s : Script}
    (h : Round hears op slots out next)
    (hs : s.Lists hears (Script.selected hears op next) (∀ slot ∈ next, slot.rest.Clean hears)) :
    (s.after (emit out)).Lists hears (Script.selected hears op slots)
      (∀ slot ∈ slots, slot.rest.Clean hears) := by
  obtain ⟨hsound, hascends, hcomplete⟩ := hs
  have hnodes : (s.after (emit out)).heard hears = out.toList ++ s.heard hears := by
    rw [heard_after_of_quiet (allQuiet_emit out), heard_emit]
  have hmem : ∀ node, node ∈ (s.after (emit out)).heard hears ↔
      out = some node ∨ node ∈ s.heard hears := by
    intro node
    rw [hnodes, List.mem_append, Option.mem_toList]
  refine ⟨?_, ?_, ?_⟩
  · intro node hn
    exact (h.selected node).2 (((hmem node).1 hn).imp id (hsound node))
  · rw [hnodes]
    cases out with
    | none => exact hascends
    | some first =>
      exact List.pairwise_cons.2 ⟨fun n hn => h.below first rfl n (hsound n hn), hascends⟩
  · intro hclean
    obtain ⟨hs', hall⟩ := hcomplete (h.clean hclean)
    refine ⟨clean_after.2 ⟨allQuiet_emit out, hs'⟩, fun node hn => (hmem node).2 ?_⟩
    exact ((h.selected node).1 hn).imp id (hall node)

/-- **The law of merging.**  The induction is on the rounds of the merge. -/
theorem Merges.law {op : SetOp} {slots : List Slot} {s : Script} (h : Merges op slots s)
    (hs : ∀ slot ∈ slots, slot.Sound hears) :
    s.Lists hears (selected hears op slots) (∀ slot ∈ slots, slot.rest.Clean hears) := by
  induction h with
  | finished hround =>
    have hnone := not_selected_of_round_none hs hround
    refine ⟨?_, List.Pairwise.nil, fun _ => ⟨clean_empty, fun node hn => ?_⟩⟩
    · intro node hn
      cases hn
    · exact absurd hn (hnone node)
  | failed hround =>
    refine .of_cut (Step.heard_of_silent (silent_round hround)) fun hall => ?_
    obtain ⟨r, hr⟩ := clean_round hall hround
    cases hr.result
  | @next slots next steps out s hround hrest ih =>
    rw [after_append]
    refine .after_silent (silent_round hround) (fun hquiet => ?_) fun hall => ?_
    · have hstep : Round hears op slots out next := round_spec hs hround ⟨rfl, hquiet⟩
      exact hstep.lists (ih hstep.sound)
    · obtain ⟨r, hr⟩ := clean_round hall hround
      exact hr.quiet

end Script

end XmlStore
