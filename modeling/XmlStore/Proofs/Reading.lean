import XmlStore.Proofs.Heard
import XmlStore.Proofs.NodeOrder

/-!
# Reading a lookup

A lookup is answered by an index or by a scan; either way its positions become nodes of the snapshot
one after the other.

* `Snapshot.found` — the positions of the rows that belong to a lookup, in ascending order.
  `filterMap_scanSteps` says that a scan yields these.
* `Script.heard_ofSteps`, `Script.clean_ofSteps` — the nodes of a cursor are its positions; all of
  them come if the cursor is quiet and the snapshot confirms every one.
* `Source.ascends_ofLookup` — the nodes of a lookup ascend if the snapshot promises so, even if they
  end with a fault.
-/

namespace XmlStore

namespace Step

theorem filterMap_result?_append {α : Type} (a b : List (Step α)) :
    (a ++ b).filterMap result? = a.filterMap result? ++ b.filterMap result? :=
  List.filterMap_append

theorem filterMap_result?_entries (entries : List Entry) :
    (Entry.steps entries).filterMap result? = entries.map Entry.pre := by
  induction entries with
  | nil => rfl
  | cons entry rest ih =>
    show entry.pre :: (Entry.steps rest).filterMap result? = _
    rw [ih, List.map_cons]

end Step

/-- The positions of a list ascend. -/
theorem pairwise_zipIdx {α : Type} (l : List α) : l.zipIdx.Pairwise fun a b => a.2 < b.2 := by
  have hpositions : (l.zipIdx.map (·.2)).Pairwise (· < ·) := by
    rw [List.zipIdx_map_snd]
    exact List.pairwise_lt_range'
  exact List.pairwise_map.1 hpositions

namespace Snapshot

/-- The positions of the rows that belong to a lookup, in ascending order. -/
def found (s : Snapshot) (lookup : Lookup) : List Nat :=
  (s.table.rows.toList.zipIdx.filter fun (row, _) => selects lookup row).map (·.2)

theorem mem_found {s : Snapshot} {lookup : Lookup} {pre : Nat} :
    pre ∈ s.found lookup ↔ ∃ row, s.table.rows[pre]? = some row ∧ selects lookup row = true := by
  simp only [found, List.mem_map, List.mem_filter, Prod.exists, List.mk_mem_zipIdx_iff_getElem?,
    Array.getElem?_toList]
  constructor
  · rintro ⟨row, _, ⟨hrow, hsel⟩, rfl⟩
    exact ⟨row, hrow, hsel⟩
  · rintro ⟨row, hrow, hsel⟩
    exact ⟨row, pre, ⟨hrow, hsel⟩, rfl⟩

theorem pairwise_found (s : Snapshot) (lookup : Lookup) : (s.found lookup).Pairwise (· < ·) := by
  exact List.pairwise_map.2 ((pairwise_zipIdx _).sublist List.filter_sublist)

theorem filterMap_scanRow (lookup : Lookup) (pre : Nat) (row : Row) :
    (scanRow lookup pre row).filterMap Step.result? =
      if selects lookup row then [pre] else [] := by
  unfold scanRow
  split <;> split <;> rfl

/-- **A scan yields the rows that belong to the lookup.** -/
theorem filterMap_scanSteps (s : Snapshot) (lookup : Lookup) :
    (s.scanSteps lookup).filterMap Step.result? = s.found lookup := by
  unfold scanSteps found
  induction s.table.rows.toList.zipIdx with
  | nil => rfl
  | cons entry rest ih =>
    obtain ⟨row, pre⟩ := entry
    rw [List.flatMap_cons, Step.filterMap_result?_append, ih, filterMap_scanRow, List.filter_cons]
    split <;> rfl

/-- Scanning raises no signals. -/
theorem allQuiet_scanSteps {hears : List SignalId → Bool} (h : hears [] = false) (s : Snapshot)
    (lookup : Lookup) : Step.allQuiet hears (s.scanSteps lookup) = true := by
  unfold scanSteps
  induction s.table.rows.toList.zipIdx with
  | nil => rfl
  | cons entry rest ih =>
    obtain ⟨row, pre⟩ := entry
    rw [List.flatMap_cons, Step.allQuiet_append, ih, Bool.and_true]
    show Step.allQuiet hears (scanRow lookup pre row) = true
    cases hsel : selects lookup row <;> cases hpoll : decide (pre % pollInterval = 0) <;>
      simp_all [scanRow, Step.isQuiet]

end Snapshot

namespace Script

variable {hears : List SignalId → Bool} {snapshot : Nat} {fault? : Nat → Option Fault}

/-- A checked cursor yields its positions, up to the first one that is refused. -/
theorem heard_ofSteps (steps : List (Step Nat)) :
    (ofSteps snapshot fault? steps).heard hears <+:
      (steps.filterMap Step.result?).map fun pre => ⟨snapshot, pre⟩ := by
  induction steps with
  | nil => exact List.nil_prefix
  | cons step rest ih =>
    cases step with
    | visit raises =>
      rw [ofSteps, List.filterMap_cons_none rfl]
      cases hraises : hears raises with
      | true =>
        rw [heard_after_of_not_quiet (by simp [Step.isQuiet, hraises])]
        simp [Step.heard, hraises]
      | false =>
        rw [heard_after_of_quiet (by simp [Step.isQuiet, hraises])]
        simpa [Step.heard, hraises] using ih
    | poll => exact ih
    | release => exact ih
    | yield pre =>
      rw [ofSteps, Step.filterMap_yield, List.map_cons]
      split
      · exact List.nil_prefix
      · rw [heard_after_of_quiet rfl]
        exact (List.prefix_cons_inj _).2 ih

/-- A quiet cursor all positions of which are confirmed yields them all. -/
theorem clean_ofSteps {steps : List (Step Nat)} (hquiet : Step.allQuiet hears steps = true)
    (h : ∀ pre ∈ steps.filterMap Step.result?, fault? pre = none) :
    (ofSteps snapshot fault? steps).Clean hears ∧
      (ofSteps snapshot fault? steps).heard hears =
        (steps.filterMap Step.result?).map fun pre => ⟨snapshot, pre⟩ := by
  induction steps with
  | nil => exact ⟨⟨rfl, rfl⟩, rfl⟩
  | cons step rest ih =>
    rw [Step.allQuiet_cons, Bool.and_eq_true] at hquiet
    have hafter : ∀ step : Step Node, step.isQuiet hears = true →
        Step.allQuiet hears [step] = true := fun step hs => by simp [hs]
    cases step with
    | visit raises =>
      obtain ⟨hclean, hheard⟩ := ih hquiet.2 h
      have hstep := hafter (.visit raises) hquiet.1
      have hraises : hears raises = false := by simpa [Step.isQuiet] using hquiet.1
      refine ⟨clean_after.2 ⟨hstep, hclean⟩, ?_⟩
      rw [ofSteps, heard_after_of_quiet hstep, hheard, List.filterMap_cons_none rfl]
      simp [Step.heard, hraises]
    | poll =>
      obtain ⟨hclean, hheard⟩ := ih hquiet.2 h
      exact ⟨clean_after.2 ⟨rfl, hclean⟩, hheard⟩
    | release =>
      obtain ⟨hclean, hheard⟩ := ih hquiet.2 h
      exact ⟨clean_after.2 ⟨rfl, hclean⟩, hheard⟩
    | yield pre =>
      rw [Step.filterMap_yield, List.forall_mem_cons] at h
      obtain ⟨hclean, hheard⟩ := ih hquiet.2 h.2
      rw [ofSteps, h.1, Step.filterMap_yield, List.map_cons, ← hheard]
      exact ⟨clean_after.2 ⟨rfl, hclean⟩, heard_after_of_quiet rfl⟩

end Script

/-- An index keeps its promise: the answers that it says are in document order are so. -/
def ValueIndex.KeepsOrder (index : ValueIndex) : Prop :=
  ∀ lookup, index.orders lookup = true → ((index.answer lookup).map Entry.pre).Pairwise (· < ·)

/-- Whether a snapshot promises document order for a lookup: it is scanned for, or the index orders
its answer. -/
def Snapshot.promises (s : Snapshot) (lookup : Lookup) : Bool :=
  !s.index.answers lookup || s.index.orders lookup

theorem pairwise_nodes {pres : List Nat} (h : pres.Pairwise (· < ·)) (snapshot : Nat) :
    (pres.map fun pre => (⟨snapshot, pre⟩ : Node)).Pairwise (· < ·) := by
  rw [List.pairwise_map]
  refine h.imp fun {a b} hlt => ?_
  exact Node.lt_def.2 (Or.inr ⟨rfl, hlt⟩)

/-- **The nodes of a lookup ascend if the snapshot promises so.** -/
theorem Source.ascends_ofLookup {hears : List SignalId → Bool} {s : Snapshot} {lookup : Lookup}
    (hindex : s.index.KeepsOrder) (h : s.promises lookup = true) :
    ((ofLookup s lookup).script.heard hears).Pairwise (· < ·) := by
  unfold ofLookup
  split
  · rename_i hanswers
    have horders : s.index.orders lookup = true := by simpa [Snapshot.promises, hanswers] using h
    refine List.Pairwise.sublist (Script.heard_ofSteps _).sublist (pairwise_nodes ?_ s.id)
    rw [Step.filterMap_result?_entries]
    exact hindex lookup horders
  · refine List.Pairwise.sublist (Script.heard_ofSteps _).sublist (pairwise_nodes ?_ s.id)
    rw [Snapshot.filterMap_scanSteps]
    exact s.pairwise_found lookup

end XmlStore
