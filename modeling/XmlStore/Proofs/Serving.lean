import XmlStore.Proofs.Rounds

/-!
# Merges that serve other merges

A merge over other slots yields at least the same nodes if every slot serves the one in its place.
Slots that have come to their end may be missing where the operator does not mind.

* `SetOp.Reduces` — a list with members replaced by ones that serve, and some of them dropped.
* `Slot.ServedBy.advance` — a slot that moves on is followed by the one that serves it.
* `Script.Reduces.exists_round` — one round: what comes out of it comes out of a round over
  slots that serve.
* `Script.Merges.served` — hence a merge is served by the merge over such slots, although either
  may fail on the way.
-/

namespace XmlStore

namespace SetOp

/-- Whether an operator may lose an operand that has nothing, `first` telling whether it is the
operator's first. -/
def MayDrop (op : SetOp) (first : Bool) : Prop := op = union ∨ (op = except ∧ first = false)

/-- A list whose members serve those of another list; members of that one which have nothing may
be dropped, as far as the operator allows. -/
inductive Reduces {α β : Type} (op : SetOp) (serves : α → β → Prop) (nothing : α → Prop) :
    Bool → List α → List β → Prop where
  | nil {first : Bool} : Reduces op serves nothing first [] []
  | keep {first : Bool} {a : α} {b : β} {rest : List α} {rest' : List β} :
      serves a b → Reduces op serves nothing false rest rest' →
      Reduces op serves nothing first (a :: rest) (b :: rest')
  | drop {first : Bool} {a : α} {rest : List α} {rest' : List β} :
      nothing a → op.MayDrop first → Reduces op serves nothing false rest rest' →
      Reduces op serves nothing first (a :: rest) rest'

end SetOp

namespace Script

variable {hears : List SignalId → Bool}

namespace Slot

/-- A slot with the same front, the rest of which serves. -/
structure ServedBy (hears : List SignalId → Bool) (s t : Slot) : Prop where
  front : t.front = s.front
  rest : s.rest.ServedBy hears t.rest

/-- A slot that hears a node can move on to it. -/
theorem exists_advance_of_heard (op : SetOp) {s : Slot} {node : Node} {later : List Node}
    (h : s.rest.heard hears = node :: later) :
    ∃ t, (s.advance op).Clean hears t ∧ t.front = some node ∧ t.rest.heard hears = later := by
  have ha := s.advances op
  generalize s.advance op = st at ha
  cases ha with
  | @node before rest first hsteps hsilent =>
    have hbefore : Step.heard hears before = [] := Step.heard_of_silent hsilent
    have hquiet : Step.allQuiet hears before = true := by
      cases hq : Step.allQuiet hears before with
      | true => rfl
      | false =>
        rw [Script.heard, hsteps, Step.heard_append_of_not_quiet hq, hbefore] at h
        cases h
    rw [Script.heard, hsteps, Step.heard_append_of_quiet hquiet, hbefore] at h
    obtain ⟨rfl, hlater⟩ := List.cons.inj h
    exact ⟨_, ⟨rfl, hquiet⟩, rfl, hlater⟩
  | finished hsilent =>
    rw [Script.heard, Step.heard_of_silent hsilent] at h
    cases h
  | failed hsilent =>
    rw [Script.heard, Step.heard_of_silent hsilent] at h
    cases h

theorem front_eq_none_of_heard {s : Slot} (h : s.heard hears = []) : s.front = none := by
  cases hfront : s.front with
  | none => rfl
  | some node =>
    rw [heard_of_front_some hfront] at h
    cases h

/-- A slot that moves on is followed by the one that serves it. -/
theorem ServedBy.advance {op : SetOp} {s u t : Slot} (h : s.rest.ServedBy hears u.rest)
    (ht : (s.advance op).Clean hears t) :
    ∃ t', (u.advance op).Clean hears t' ∧ t.ServedBy hears t' := by
  obtain ⟨hready, hheard, hclean⟩ := advance_spec ht
  cases hfront : t.front with
  | none =>
    -- the end of a slot is only seen if all of it is clean
    have hrest : s.rest.Clean hears := hclean.2 (hready hfront ▸ clean_empty)
    obtain ⟨hrest', hsame⟩ := h.complete hrest
    obtain ⟨t', ht'⟩ := clean_advance op hrest'
    obtain ⟨hready', hheard', _⟩ := advance_spec ht'
    have hnil : t'.heard hears = [] := by
      rw [hheard', hsame, ← hheard, heard_of_front_none hready hfront]
    have hfront' : t'.front = none := front_eq_none_of_heard hnil
    refine ⟨t', ht', hfront'.trans hfront.symm, ?_⟩
    rw [hready hfront, hready' hfront']
    exact .refl _
  | some node =>
    have hnodes : s.rest.heard hears = node :: t.rest.heard hears := by
      rw [← hheard, heard_of_front_some hfront]
    obtain ⟨later, hlater⟩ := h.nodes
    rw [hnodes, List.cons_append] at hlater
    obtain ⟨t', ht', hfront', hrest'⟩ := exists_advance_of_heard op hlater.symm
    refine ⟨t', ht', hfront'.trans hfront.symm, ?_, ?_⟩
    · exact hrest' ▸ List.prefix_append _ _
    · intro hc
      obtain ⟨hs', hsame⟩ := h.complete (hclean.2 hc)
      refine ⟨(advance_spec ht').2.2.1 hs', ?_⟩
      rw [hnodes, ← hlater] at hsame
      rw [hrest']
      exact (List.cons.inj hsame).2

end Slot

/-! ## Moving several slots -/

/-- A way of moving takes slots that serve to slots that serve; it leaves an end an end, where an
end may be missing. -/
structure Tracks (hears : List SignalId → Bool) (op : SetOp) (move : Slot → Stretch Slot) :
    Prop where
  served : ∀ {s s' t : Slot}, s.ServedBy hears s' → (move s).Clean hears t →
    ∃ t', (move s').Clean hears t' ∧ t.ServedBy hears t'
  ended : ∀ {first : Bool} {s t : Slot}, op.MayDrop first → s.front = none →
    (move s).Clean hears t → t.front = none

/-- Slots that serve those of a merge, in which slots that have come to their end may be missing. -/
abbrev Reduces (hears : List SignalId → Bool) (op : SetOp) (first : Bool)
    (slots slots' : List Slot) : Prop :=
  op.Reduces (Slot.ServedBy hears) (fun s => s.front = none) first slots slots'

theorem not_mayDrop_intersect {first : Bool} : ¬ SetOp.intersect.MayDrop first := by
  rintro (hop | ⟨hop, _⟩) <;> cases hop

theorem tracks_moveIf (op : SetOp) (which : Option Node → Bool)
    (h : ∀ {first}, op.MayDrop first → which none = false) :
    Tracks hears op (moveIf op fun s => which s.front) := by
  refine ⟨fun {s s' t} hs ht => ?_, fun {first s t} hmay hend ht => ?_⟩
  · simp only [moveIf, hs.front] at ht ⊢
    split at ht
    · rename_i hwhich
      rw [if_pos hwhich]
      exact Slot.ServedBy.advance hs.rest ht
    · rename_i hwhich
      rw [if_neg hwhich]
      exact ⟨s', Stretch.clean_pure.2 rfl, Stretch.clean_pure.1 ht ▸ hs⟩
  · simp only [moveIf, hend, h hmay, Bool.false_eq_true, if_false] at ht
    exact Stretch.clean_pure.1 ht ▸ hend

theorem tracks_skipBelow (op : SetOp) (node : Node) : Tracks hears op (skipBelow op node) := by
  refine ⟨fun {s s' t} hs ht => ?_, fun {first s t} _ hend ht => ?_⟩
  · fun_induction skipBelow op node s generalizing s' with
    | case1 s hfront =>
      rw [skipBelow_of_not_lt op fun front hf => by simp [hs.front, hfront] at hf]
      exact ⟨s', Stretch.clean_pure.2 rfl, Stretch.clean_pure.1 ht ▸ hs⟩
    | case2 s front hfront hlt steps fault hnext => cases ht.result
    | case3 s front hfront hlt steps u hnext more =>
      rename_i ih
      have hquiet := ht.quiet
      rw [Step.allQuiet_append, Bool.and_eq_true] at hquiet
      have hu : (s.advance op).Clean hears u := by rw [hnext]; exact ⟨rfl, hquiet.1⟩
      obtain ⟨u', hu', hserved⟩ := Slot.ServedBy.advance hs.rest hu
      obtain ⟨t', ht', hserved'⟩ := ih hserved ⟨ht.result, hquiet.2⟩
      rw [skipBelow_of_lt op (hs.front.trans hfront) hlt]
      exact ⟨t', Stretch.clean_bind.2 ⟨u', hu', ht'⟩, hserved'⟩
    | case4 s front hfront hge =>
      rw [skipBelow_of_not_lt op fun front' hf => by
        rw [hs.front, hfront] at hf
        exact Option.some.inj hf ▸ hge]
      exact ⟨s', Stretch.clean_pure.2 rfl, Stretch.clean_pure.1 ht ▸ hs⟩
  · rw [skipBelow_of_not_lt op fun front hf => by simp [hend] at hf] at ht
    exact Stretch.clean_pure.1 ht ▸ hend

theorem Tracks.all {op : SetOp} {move : Slot → Stretch Slot} (hm : Tracks hears op move)
    {first : Bool} {slots slots' next : List Slot} (hr : Reduces hears op first slots slots')
    (h : (moveAll move slots).Clean hears next) :
    ∃ next', (moveAll move slots').Clean hears next' ∧ Reduces hears op first next next' := by
  induction hr generalizing next with
  | nil =>
    obtain rfl := Stretch.clean_pure.1 h
    exact ⟨[], Stretch.clean_pure.2 rfl, .nil⟩
  | keep hserved _ ih =>
    obtain ⟨t, ts, rfl, ht, hts⟩ := clean_moveAll_cons.1 h
    obtain ⟨t', ht', hserved'⟩ := hm.served hserved ht
    obtain ⟨ts', hts', hrest⟩ := ih hts
    exact ⟨t' :: ts', clean_moveAll_cons.2 ⟨t', ts', rfl, ht', hts'⟩, .keep hserved' hrest⟩
  | drop hend hmay _ ih =>
    obtain ⟨t, ts, rfl, ht, hts⟩ := clean_moveAll_cons.1 h
    obtain ⟨ts', hts', hrest⟩ := ih hts
    exact ⟨ts', hts', .drop (hm.ended hmay hend ht) hmay hrest⟩

/-! ## Rounds and merges -/

namespace Reduces

variable {op : SetOp} {first : Bool} {slots slots' : List Slot}

theorem filterMap_front (h : Reduces hears op first slots slots') :
    slots'.filterMap Slot.front = slots.filterMap Slot.front := by
  induction h with
  | nil => rfl
  | keep hserved _ ih => rw [List.filterMap_cons, List.filterMap_cons, hserved.front, ih]
  | drop hend _ _ ih => rw [List.filterMap_cons_none hend, ih]

theorem any_front (h : Reduces hears op first slots slots') (node : Node) :
    slots'.any (·.front == some node) = slots.any (·.front == some node) := by
  have hany : ∀ l : List Slot, l.any (·.front == some node) = true ↔
      node ∈ l.filterMap Slot.front := fun l => by simp
  rw [Bool.eq_iff_iff, hany, hany, h.filterMap_front]

/-- No slot of an intersection is dropped. -/
theorem map_front (h : Reduces hears .intersect first slots slots') :
    slots'.map Slot.front = slots.map Slot.front := by
  generalize hop : SetOp.intersect = op at h
  induction h with
  | nil => rfl
  | keep hserved _ ih => rw [List.map_cons, List.map_cons, hserved.front, ih]
  | drop _ hmay => exact absurd (hop ▸ hmay) not_mayDrop_intersect

theorem all_front (h : Reduces hears .intersect first slots slots') (node : Node) :
    slots'.all (·.front == some node) = slots.all (·.front == some node) := by
  have hall : ∀ l : List Slot, l.all (·.front == some node) =
      (l.map Slot.front).all (· == some node) := by
    intro l
    rw [List.all_map]
    rfl
  rw [hall, hall, h.map_front]

theorem fronts?_eq (h : Reduces hears .intersect first slots slots') :
    fronts? slots' = fronts? slots := by
  have hfronts : ∀ l l' : List Slot, l.map Slot.front = l'.map Slot.front →
      fronts? l = fronts? l' := by
    intro l
    induction l with
    | nil => intro l' hl; rw [List.map_eq_nil_iff.1 hl.symm]
    | cons s rest ih =>
      intro l' hl
      obtain ⟨s', rest', rfl, hs, hrest⟩ := List.map_eq_cons_iff.1 hl.symm
      rw [fronts?, fronts?, hs, ih rest' hrest.symm]
  exact hfronts _ _ h.map_front

/-- **One round is followed by a round over slots that serve.** -/
theorem exists_round (hr : Reduces hears op true slots slots')
    {st : Stretch (Option Node × List Slot)} {out : Option Node} {next : List Slot}
    (h : round op slots = some st) (hst : st.Clean hears (out, next)) :
    ∃ st' next', round op slots' = some st' ∧ st'.Clean hears (out, next') ∧
      Reduces hears op true next next' := by
  have hall : ∀ {move : Slot → Stretch Slot} (out' : Option Node), Tracks hears op move →
      ((moveAll move slots).bind fun next => .pure (out', next)).Clean hears (out, next) →
      ∃ next', ((moveAll move slots').bind fun next => .pure (out', next)).Clean hears
        (out, next') ∧ Reduces hears op true next next' := by
    intro move out' hm hst
    obtain ⟨rfl, hnext⟩ := clean_moveAll_bind.1 hst
    obtain ⟨next', hnext', hr'⟩ := hm.all hr hnext
    exact ⟨next', clean_moveAll_bind.2 ⟨rfl, hnext'⟩, hr'⟩
  cases turn_of_round h with
  | @earliest _ node hmin =>
    obtain ⟨next', hnext', hr'⟩ := hall _ (tracks_moveIf .union (· == some node) fun _ => rfl) hst
    have hturn : Turn .union slots' _ := .earliest (hr.filterMap_front ▸ hmin)
    exact ⟨_, next', hturn.round_eq, hnext', hr'⟩
  | common hfronts hmax heq =>
    have htracks : Tracks hears .intersect (moveIf .intersect fun _ => true) :=
      tracks_moveIf .intersect (fun _ => true) fun hmay => absurd hmay not_mayDrop_intersect
    obtain ⟨next', hnext', hr'⟩ := hall _ htracks hst
    have hturn := Turn.common (hr.fronts?_eq.trans hfronts) hmax ((hr.all_front _).trans heq)
    exact ⟨_, next', hturn.round_eq, hnext', hr'⟩
  | @behind _ _ node hfronts hmax hne =>
    have htracks : Tracks hears .intersect (moveIf .intersect (·.front != some node)) :=
      tracks_moveIf .intersect (· != some node) fun hmay => absurd hmay not_mayDrop_intersect
    obtain ⟨next', hnext', hr'⟩ := hall _ htracks hst
    have hturn := Turn.behind (hr.fronts?_eq.trans hfronts) hmax ((hr.all_front _).trans hne)
    exact ⟨_, next', hturn.round_eq, hnext', hr'⟩
  | @first first rest node hfront =>
    cases hr with
    | drop _ hmay => rcases hmay with hop | ⟨_, hfirst⟩ <;> contradiction
    | @keep _ _ first' _ rest' hserved hrest =>
      obtain ⟨others, hothers, hst⟩ := Stretch.clean_bind.1 hst
      obtain ⟨head, hhead, hpure⟩ := Stretch.clean_bind.1 hst
      obtain ⟨rfl, rfl⟩ := Prod.mk.inj (Stretch.clean_pure.1 hpure)
      obtain ⟨others', hothers', hr'⟩ := (tracks_skipBelow .except node).all hrest hothers
      obtain ⟨head', hhead', hserved'⟩ := Slot.ServedBy.advance hserved.rest hhead
      refine ⟨_, head' :: others', round_except (hserved.front.trans hfront), ?_,
        .keep hserved' hr'⟩
      refine Stretch.clean_bind.2 ⟨others', hothers', Stretch.clean_bind.2 ⟨head', hhead', ?_⟩⟩
      exact Stretch.clean_pure.2 (by rw [hr'.any_front])

theorem round_eq_none (hr : Reduces hears op true slots slots') (h : round op slots = none) :
    round op slots' = none := by
  cases op with
  | union =>
    rw [round, Option.map_eq_none_iff] at h ⊢
    rw [hr.filterMap_front, h]
  | intersect =>
    rw [round, Option.map_eq_none_iff] at h ⊢
    rw [hr.fronts?_eq, h]
  | except =>
    cases hr with
    | nil => rfl
    | drop _ hmay => rcases hmay with hop | ⟨_, hfirst⟩ <;> contradiction
    | keep hserved _ =>
      rw [round, Option.map_eq_none_iff] at h ⊢
      rw [hserved.front, h]

end Reduces

theorem Merges.eq_empty {op : SetOp} {slots : List Slot} {s : Script} (h : Merges op slots s)
    (hround : round op slots = none) : s = .empty := by
  cases h with
  | finished => rfl
  | failed hround' => rw [hround] at hround'; cases hround'
  | next hround' => rw [hround] at hround'; cases hround'

theorem Merges.exists_next {op : SetOp} {slots next : List Slot} {s : Script}
    {st : Stretch (Option Node × List Slot)} {out : Option Node} (h : Merges op slots s)
    (hround : round op slots = some st) (hst : st.result = .ok (out, next)) :
    ∃ later, Merges op next later ∧ s = later.after (st.steps ++ emit out) := by
  cases h with
  | finished hround' => rw [hround] at hround'; cases hround'
  | failed hround' =>
    obtain rfl := Option.some.inj (hround.symm.trans hround')
    cases hst
  | next hround' hlater =>
    obtain rfl := Option.some.inj (hround.symm.trans hround')
    obtain ⟨rfl, rfl⟩ := Prod.mk.inj (Except.ok.inj hst)
    exact ⟨_, hlater, rfl⟩

/-- **A merge is served by the merge over slots that serve.**  The induction is on the rounds of the
merge that is served; one that fails needs no more than its nodes. -/
theorem Merges.served {op : SetOp} {slots slots' : List Slot} {s s' : Script}
    (h : Merges op slots s) (h' : Merges op slots' s') (hr : Reduces hears op true slots slots') :
    s.ServedBy hears s' := by
  induction h generalizing slots' s' with
  | finished hround =>
    obtain rfl := h'.eq_empty (hr.round_eq_none hround)
    exact .refl _
  | failed hround =>
    exact .of_failed s' (Step.heard_of_silent (silent_round hround)) fun hclean => by
      cases hclean.fault
  | @next slots next steps out s hround hlater ih =>
    have hsilent : Step.heard hears steps = [] := Step.heard_of_silent (silent_round hround)
    cases hquiet : Step.allQuiet hears steps with
    | true =>
      obtain ⟨st', next', hround', hst', hr'⟩ := hr.exists_round hround ⟨rfl, hquiet⟩
      obtain ⟨later', hlater', rfl⟩ := h'.exists_next hround' hst'.result
      have hsilent' : Step.heard hears st'.steps = [] :=
        Step.heard_of_silent (silent_round hround')
      refine (ih hlater' hr').after ?_ ?_
      · rw [Step.allQuiet_append, hst'.quiet, allQuiet_emit]; rfl
      · rw [Step.heard_append_of_quiet hquiet, Step.heard_append_of_quiet hst'.quiet, hsilent,
          hsilent']
    | false =>
      have hloud : Step.allQuiet hears (steps ++ emit out) = false := by
        rw [Step.allQuiet_append, hquiet]; rfl
      refine .of_failed s' ?_ fun hclean => ?_
      · rw [heard_after_of_not_quiet hloud, Step.heard_append_of_not_quiet hquiet, hsilent]
      · rw [(clean_after.1 hclean).1] at hloud
        cases hloud

end Script

end XmlStore
