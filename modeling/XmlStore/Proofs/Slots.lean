import XmlStore.Proofs.NodeOrder
import XmlStore.Proofs.Rounds

/-!
# Slots that ascend

A merge relies on the nodes of its slots to ascend.

* `Slot.Sound` — the nodes of a slot ascend, and it has a front unless it is at its end.
* `Script.Moves` — what a way of moving makes of the nodes of a sound slot: `moves_moveIf` says that
  a slot that is picked loses its front, `moves_skipBelow` that skipping drops the nodes below a
  bound.  `Moves.all` is the same for all slots of a merge.
* `any_front_skipped` — after skipping, the fronts tell whether a slot has the bound itself.
-/

namespace XmlStore

namespace Script

variable {hears : List SignalId → Bool}

namespace Slot

/-- A slot whose nodes ascend, and which has come to its end if it has no front. -/
structure Sound (hears : List SignalId → Bool) (s : Slot) : Prop where
  ready : s.Ready
  ascends : (s.heard hears).Pairwise (· < ·)

theorem front_eq_head? {s : Slot} (h : s.Ready) : s.front = (s.heard hears).head? := by
  cases hfront : s.front with
  | none => rw [heard_of_front_none h hfront]; rfl
  | some node => rw [heard_of_front_some hfront]; rfl

theorem Sound.front_le {s : Slot} (h : s.Sound hears) {front node : Node}
    (hfront : s.front = some front) (hnode : node ∈ s.heard hears) : front ≤ node := by
  have hasc := h.ascends
  rw [heard_of_front_some hfront] at hasc hnode
  rcases List.mem_cons.1 hnode with rfl | hnode
  · exact Node.le_refl node
  · exact Node.le_def.2 (Or.inl ((List.pairwise_cons.1 hasc).1 node hnode))

theorem Sound.front_lt_tail {s : Slot} (h : s.Sound hears) {front node : Node}
    (hfront : s.front = some front) (hnode : node ∈ (s.heard hears).tail) : front < node := by
  have hasc := h.ascends
  rw [heard_of_front_some hfront] at hasc hnode
  exact (List.pairwise_cons.1 hasc).1 node hnode

theorem mem_heard_of_front {s : Slot} {front node : Node} (hfront : s.front = some front) :
    node ∈ s.heard hears ↔ node = front ∨ node ∈ (s.heard hears).tail := by
  rw [heard_of_front_some hfront, List.mem_cons, List.tail_cons]

theorem exists_front_of_mem {s : Slot} (h : s.Ready) {node : Node}
    (hnode : node ∈ s.heard hears) : ∃ front, s.front = some front := by
  cases hfront : s.front with
  | none => rw [heard_of_front_none h hfront] at hnode; cases hnode
  | some front => exact ⟨front, rfl⟩

/-- What is left of a slot that loses its front if it is picked. -/
def left (hears : List SignalId → Bool) (which : Slot → Bool) (s : Slot) : List Node :=
  if which s then (s.heard hears).tail else s.heard hears

theorem mem_heard_of_mem_left {which : Slot → Bool} {s : Slot} {node : Node}
    (h : node ∈ s.left hears which) : node ∈ s.heard hears := by
  unfold left at h
  split at h
  · exact List.mem_of_mem_tail h
  · exact h

/-- Only the front of a slot that is picked gets lost. -/
theorem mem_left {which : Slot → Bool} {s : Slot} {node : Node} (hs : s.Ready)
    (h : node ∈ s.heard hears) (hkeep : which s = true → s.front ≠ some node) :
    node ∈ s.left hears which := by
  unfold left
  split
  · rename_i hwhich
    obtain ⟨front, hfront⟩ := exists_front_of_mem hs h
    apply ((mem_heard_of_front hfront).1 h).resolve_left
    intro he
    exact hkeep hwhich (he ▸ hfront)
  · exact h

/-- A slot that moves on loses its front. -/
theorem Sound.advance {op : SetOp} {s t : Slot} (h : s.Sound hears)
    (ht : (s.advance op).Clean hears t) :
    t.Sound hears ∧ t.heard hears = (s.heard hears).tail := by
  obtain ⟨hready, hheard, _⟩ := advance_spec ht
  have htail : t.heard hears = (s.heard hears).tail := by
    cases hfront : s.front with
    | none =>
      rw [hheard, heard_of_front_none h.ready hfront, h.ready hfront]; rfl
    | some node => rw [hheard, heard_of_front_some hfront]; rfl
  exact ⟨⟨hready, htail ▸ h.ascends.tail⟩, htail⟩

end Slot

/-- What a way of moving makes of the nodes of a sound slot; it fails only if the script of the slot
does. -/
structure Moves (hears : List SignalId → Bool) (move : Slot → Stretch Slot)
    (change : Slot → List Node) : Prop where
  spec : ∀ {s t : Slot}, s.Sound hears → (move s).Clean hears t →
    t.Sound hears ∧ t.heard hears = change s ∧ (s.rest.Clean hears → t.rest.Clean hears)
  clean : ∀ {s : Slot}, s.rest.Clean hears → ∃ t, (move s).Clean hears t

/-- A slot that is picked loses its front. -/
theorem moves_moveIf (op : SetOp) (which : Slot → Bool) :
    Moves hears (moveIf op which) (Slot.left hears which) := by
  refine ⟨fun {s t} hs h => ?_, fun {s} hs => ?_⟩
  · unfold moveIf at h
    split at h
    · rename_i hwhich
      rw [Slot.left, if_pos hwhich]
      exact ⟨(hs.advance h).1, (hs.advance h).2, (Slot.advance_spec h).2.2.1⟩
    · rename_i hwhich
      obtain rfl := Stretch.clean_pure.1 h
      rw [Slot.left, if_neg hwhich]
      exact ⟨hs, rfl, id⟩
  · unfold moveIf
    split
    · exact Slot.clean_advance op hs
    · exact ⟨s, Stretch.clean_pure.2 rfl⟩

/-- Skipping drops the nodes of a slot below the given one. -/
theorem skipBelow_spec {op : SetOp} {node : Node} {s t : Slot} (hs : s.Sound hears)
    (h : (skipBelow op node s).Clean hears t) :
    t.Sound hears ∧ t.heard hears = (s.heard hears).dropWhile (fun n => decide (n < node)) ∧
      (s.rest.Clean hears → t.rest.Clean hears) := by
  fun_induction skipBelow op node s with
  | case1 s hfront =>
    obtain rfl := Stretch.clean_pure.1 h
    refine ⟨hs, ?_, id⟩
    rw [Slot.heard_of_front_none hs.ready hfront, List.dropWhile_nil]
  | case2 s front hfront hlt steps fault hnext => cases h.result
  | case3 s front hfront hlt steps u hnext more ih =>
    have hquiet := h.quiet
    rw [Step.allQuiet_append, Bool.and_eq_true] at hquiet
    have hu : (s.advance op).Clean hears u := by
      rw [hnext]; exact ⟨rfl, hquiet.1⟩
    obtain ⟨hsound, htail⟩ := hs.advance hu
    obtain ⟨ht, hheard, hclean⟩ := ih hsound ⟨h.result, hquiet.2⟩
    refine ⟨ht, ?_, fun hc => hclean ((Slot.advance_spec hu).2.2.1 hc)⟩
    rw [hheard, htail, Slot.heard_of_front_some hfront, List.tail_cons,
      List.dropWhile_cons_of_pos (by simpa using hlt)]
  | case4 s front hfront hge =>
    obtain rfl := Stretch.clean_pure.1 h
    refine ⟨hs, ?_, id⟩
    rw [Slot.heard_of_front_some hfront, List.dropWhile_cons_of_neg (by simpa using hge)]

theorem clean_skipBelow (op : SetOp) (node : Node) {s : Slot} (hs : s.rest.Clean hears) :
    ∃ t, (skipBelow op node s).Clean hears t := by
  fun_induction skipBelow op node s with
  | case1 s hfront => exact ⟨s, Stretch.clean_pure.2 rfl⟩
  | case2 s front hfront hlt steps fault hnext =>
    obtain ⟨t, ht⟩ := Slot.clean_advance op hs
    rw [hnext] at ht
    cases ht.result
  | case3 s front hfront hlt steps u hnext more ih =>
    obtain ⟨t, ht⟩ := Slot.clean_advance op hs
    rw [hnext] at ht
    obtain rfl := Except.ok.inj ht.result
    have hu : (s.advance op).Clean hears u := by rw [hnext]; exact ht
    obtain ⟨v, hv⟩ := ih ((Slot.advance_spec hu).2.2.1 hs)
    refine ⟨v, hv.result, ?_⟩
    rw [Step.allQuiet_append, Bool.and_eq_true]
    exact ⟨ht.quiet, hv.quiet⟩
  | case4 s front hfront hge => exact ⟨s, Stretch.clean_pure.2 rfl⟩

theorem moves_skipBelow (op : SetOp) (node : Node) :
    Moves hears (skipBelow op node)
      (fun s => (s.heard hears).dropWhile fun n => decide (n < node)) :=
  ⟨skipBelow_spec, clean_skipBelow op node⟩

namespace Moves

variable {move : Slot → Stretch Slot} {change : Slot → List Node}

theorem all {slots next : List Slot} (hm : Moves hears move change)
    (hs : ∀ s ∈ slots, s.Sound hears) (h : (moveAll move slots).Clean hears next) :
    (∀ t ∈ next, t.Sound hears) ∧ next.map (Slot.heard hears) = slots.map change ∧
      ((∀ s ∈ slots, s.rest.Clean hears) → ∀ t ∈ next, t.rest.Clean hears) := by
  induction slots generalizing next with
  | nil =>
    obtain rfl := Stretch.clean_pure.1 h
    simp
  | cons s rest ih =>
    obtain ⟨t, ts, rfl, ht, hts⟩ := clean_moveAll_cons.1 h
    obtain ⟨hhead, hrest⟩ := List.forall_mem_cons.1 hs
    obtain ⟨hsound, hmap, hclean⟩ := ih hrest hts
    obtain ⟨htsound, hheard, htclean⟩ := hm.spec hhead ht
    refine ⟨List.forall_mem_cons.2 ⟨htsound, hsound⟩,
      by rw [List.map_cons, List.map_cons, hheard, hmap], ?_⟩
    intro hall
    obtain ⟨hc, hcs⟩ := List.forall_mem_cons.1 hall
    exact List.forall_mem_cons.2 ⟨htclean hc, hclean hcs⟩

theorem clean_all {slots : List Slot} (hm : Moves hears move change)
    (h : ∀ s ∈ slots, s.rest.Clean hears) : ∃ next, (moveAll move slots).Clean hears next := by
  induction slots with
  | nil => exact ⟨[], Stretch.clean_pure.2 rfl⟩
  | cons s rest ih =>
    obtain ⟨hs, hrest⟩ := List.forall_mem_cons.1 h
    obtain ⟨t, ht⟩ := hm.clean hs
    obtain ⟨ts, hts⟩ := ih hrest
    exact ⟨t :: ts, clean_moveAll_cons.2 ⟨t, ts, rfl, ht, hts⟩⟩

end Moves

/-! ## Skipping in ascending lists -/

theorem mem_dropWhile_below {l : List Node} {bound node : Node} (hl : l.Pairwise (· < ·))
    (h : bound ≤ node) :
    node ∈ l.dropWhile (fun n => decide (n < bound)) ↔ node ∈ l := by
  induction l with
  | nil => rfl
  | cons first rest ih =>
    by_cases hlt : first < bound
    · rw [List.dropWhile_cons_of_pos (by simpa using hlt), ih hl.of_cons, List.mem_cons]
      refine ⟨Or.inr, fun hn => hn.resolve_left fun he => ?_⟩
      exact Node.not_lt_of_le h (he ▸ hlt)
    · rw [List.dropWhile_cons_of_neg (by simpa using hlt)]

/-- After the nodes below a bound are dropped, the front tells whether the bound is there. -/
theorem head?_dropWhile_below {l : List Node} {bound : Node} (hl : l.Pairwise (· < ·)) :
    (l.dropWhile fun n => decide (n < bound)).head? = some bound ↔ bound ∈ l := by
  rw [← mem_dropWhile_below hl (Node.le_refl bound)]
  have hsub := hl.sublist (List.dropWhile_sublist fun n => decide (n < bound))
  have hfirst := List.head?_dropWhile_not (fun n => decide (n < bound)) l
  cases hd : l.dropWhile fun n => decide (n < bound) with
  | nil => simp
  | cons first rest =>
    rw [hd] at hsub hfirst
    simp only [List.head?_cons, decide_eq_false_iff_not, Option.some.injEq] at hfirst ⊢
    refine ⟨fun h => h ▸ List.mem_cons_self, ?_⟩
    intro h
    rcases List.mem_cons.1 h with h | h
    · exact h.symm
    · exact absurd ((List.pairwise_cons.1 hsub).1 bound h) hfirst

/-- After slots are skipped up to a bound, one of their fronts is the bound exactly if one of them
had it. -/
theorem any_front_skipped {op : SetOp} {bound : Node} {slots next : List Slot}
    (hs : ∀ s ∈ slots, s.Sound hears)
    (h : (moveAll (skipBelow op bound) slots).Clean hears next) :
    next.any (·.front == some bound) = true ↔ ∃ s ∈ slots, bound ∈ s.heard hears := by
  obtain ⟨hsound, hmap, _⟩ := (moves_skipBelow op bound).all hs h
  have hheads : next.map Slot.front =
      slots.map fun s => ((s.heard hears).dropWhile fun n => decide (n < bound)).head? := by
    have hheard : next.map Slot.front = (next.map (Slot.heard hears)).map List.head? := by
      rw [List.map_map]
      exact List.map_congr_left fun t ht => Slot.front_eq_head? (hsound t ht).ready
    rw [hheard, hmap, List.map_map]; rfl
  have hany : next.any (·.front == some bound) = true ↔ some bound ∈ next.map Slot.front := by
    simp
  rw [hany, hheads, List.mem_map]
  constructor
  · rintro ⟨s, hmem, hfront⟩
    exact ⟨s, hmem, (head?_dropWhile_below (hs s hmem).ascends).1 hfront⟩
  · rintro ⟨s, hmem, hbound⟩
    exact ⟨s, hmem, (head?_dropWhile_below (hs s hmem).ascends).2 hbound⟩

end Script

end XmlStore
