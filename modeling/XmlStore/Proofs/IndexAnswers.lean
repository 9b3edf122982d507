import XmlStore.Proofs.Postings
import XmlStore.Proofs.Reading

/-!
# The answers of built indexes

What the index of a table answers is compared with a scan of the table.

* `Snapshot.found_eq` — a scan finds the pairs of value and position that the index is built of, as
  far as they belong to the lookup.
* `Snapshot.answer_exact` — an exact lookup is answered with just the positions of a scan.
* `Snapshot.answer_range` — an interval is answered with the values within the length limit, then
  the longer ones, each group in the order of values.
* `Snapshot.entryFault?_of_mem_found` — a snapshot confirms every entry of its index.
* `Cursor.take_eq` — pulling a cursor gives its positions one after the other.
-/

namespace XmlStore

/-- The value of the row at a position. -/
def Table.valueAt (t : Table) (pre : Nat) : Bytes := (t.rows[pre]?.map Row.value).getD []

/-- The order in which an index lists positions: by value, and by position within a value. -/
def Table.Before (t : Table) (a b : Nat) : Prop :=
  t.valueAt a < t.valueAt b ∨ (t.valueAt a = t.valueAt b ∧ a < b)

/-- A degenerate interval contains nothing. -/
theorem Interval.contains_of_isDegenerate {i : Interval} (h : i.isDegenerate = true)
    (value : Bytes) : i.contains value = false := by
  obtain ⟨kind, min, minIncluded, max, maxIncluded⟩ := i
  cases min with
  | none => cases h
  | some low =>
    cases max with
    | none => cases h
    | some high =>
      simp only [isDegenerate, Bool.and_eq_true, beq_iff_eq, Bool.not_eq_true'] at h
      obtain ⟨rfl, hexcluded⟩ := h
      simp only [contains, lower, upper]
      cases minIncluded with
      | false =>
        rw [if_neg (by simp), Bool.and_eq_false_iff]
        by_cases hlt : low < value
        · right
          split
          · simpa [Bound.admitsBelow] using hlt
          · simpa [Bound.admitsBelow] using List.le_of_lt hlt
        · left
          simpa [Bound.admitsAbove] using hlt
      | true =>
        have hmax : maxIncluded = false := by simpa using hexcluded
        subst hmax
        rw [if_pos rfl, if_neg (by simp), Bool.and_eq_false_iff]
        by_cases hle : low ≤ value
        · right
          simpa [Bound.admitsBelow] using hle
        · left
          simpa [Bound.admitsAbove] using hle

/-! ## The pairs of a table -/

theorem Table.mem_valuePairs {t : Table} {kind : ValueKind} {pair : Bytes × Nat} :
    pair ∈ t.valuePairs kind ↔
      ∃ row, t.rows[pair.2]? = some row ∧ row.kind = kind.nodeKind ∧ row.value = pair.1 := by
  obtain ⟨value, pre⟩ := pair
  simp only [valuePairs, List.mem_filterMap, Prod.exists, List.mk_mem_zipIdx_iff_getElem?,
    Array.getElem?_toList]
  constructor
  · rintro ⟨row, pre', hrow, hpair⟩
    split at hpair
    · rename_i hkind
      obtain ⟨rfl, rfl⟩ := Prod.mk.inj (Option.some.inj hpair)
      exact ⟨row, hrow, hkind, rfl⟩
    · cases hpair
  · rintro ⟨row, hrow, hkind, rfl⟩
    exact ⟨row, pre, hrow, by rw [if_pos hkind]⟩

theorem Table.valueAt_of_mem_valuePairs {t : Table} {kind : ValueKind} {pair : Bytes × Nat}
    (h : pair ∈ t.valuePairs kind) : t.valueAt pair.2 = pair.1 := by
  obtain ⟨row, hrow, _, hvalue⟩ := mem_valuePairs.1 h
  rw [valueAt, hrow]
  exact hvalue

theorem Table.pairwise_valuePairs (t : Table) (kind : ValueKind) :
    (t.valuePairs kind).Pairwise fun a b => a.2 < b.2 := by
  rw [valuePairs, List.pairwise_filterMap]
  refine (pairwise_zipIdx _).imp fun {a b} hlt pa ha pb hb => ?_
  simp only [Option.ite_none_right_eq_some, Option.some.injEq] at ha hb
  rw [← ha.2, ← hb.2]
  exact hlt

namespace Snapshot

/-- **A scan finds the pairs of a table that belong to a lookup.** -/
theorem found_eq (s : Snapshot) (lookup : Lookup) :
    s.found lookup =
      ((s.table.valuePairs lookup.kind).filter fun pair => lookup.accepts pair.1).map (·.2) := by
  unfold found Table.valuePairs
  induction s.table.rows.toList.zipIdx with
  | nil => rfl
  | cons entry rest ih =>
    obtain ⟨row, pre⟩ := entry
    by_cases hkind : row.kind = lookup.kind.nodeKind
    · have hsel : selects lookup row = lookup.accepts row.value := by simp [selects, hkind]
      simp only [List.filterMap_cons, List.filter_cons, hsel, if_pos hkind]
      split
      · rw [List.map_cons, List.map_cons, ih]
      · exact ih
    · have hsel : selects lookup row = false := by simp [selects, hkind]
      simp only [List.filterMap_cons, List.filter_cons, hsel, if_neg hkind]
      exact ih

/-- The positions of a scan whose values meet a condition. -/
theorem filter_found (s : Snapshot) (lookup : Lookup) (keep : Bytes → Bool) :
    (s.found lookup).filter (fun pre => keep (s.table.valueAt pre)) =
      ((s.table.valuePairs lookup.kind).filter fun pair =>
        lookup.accepts pair.1 && keep pair.1).map (·.2) := by
  rw [found_eq, List.filter_map, List.filter_filter]
  congr 1
  apply List.filter_congr
  intro pair hpair
  rw [Function.comp_apply, Table.valueAt_of_mem_valuePairs hpair, Bool.and_comm]

/-! ## Exact lookups -/

section Built

variable {number : Nat} {name : String} {t : Table} {options : Options}

theorem values?_ofTable {kind : ValueKind} {values : Values}
    (h : (BuiltIndex.ofTable t options).values? kind = some values) :
    values = Values.ofTable t kind options.maxLength.toNat := by
  cases kind <;>
    simp only [BuiltIndex.values?, BuiltIndex.ofTable, Option.ite_none_right_eq_some,
      Option.some.injEq] at h <;>
    exact h.2.symm

theorem values?_of_answers {lookup : Lookup}
    (h : (ofTable number name t options).index.answers lookup = true) :
    lookup.fits options.maxLength.toNat = true ∧
      (BuiltIndex.ofTable t options).values? lookup.kind =
        some (Values.ofTable t lookup.kind options.maxLength.toNat) := by
  rw [ValueIndex.answers, Bool.and_eq_true] at h
  obtain ⟨hfits, henabled⟩ := h
  obtain ⟨values, hvalues⟩ := Option.isSome_iff_exists.1 henabled
  exact ⟨hfits, hvalues.trans (congrArg some (values?_ofTable hvalues))⟩

/-- **An exact lookup is answered with the positions of a scan.** -/
theorem answer_exact {kind : ValueKind} {value : Bytes}
    (h : (ofTable number name t options).index.answers (.exact kind value) = true) :
    ((ofTable number name t options).index.answer (.exact kind value)).map Entry.pre =
      (ofTable number name t options).found (.exact kind value) := by
  obtain ⟨hfits, hvalues⟩ := values?_of_answers h
  have hfits : value.length ≤ options.maxLength.toNat := by simpa [Lookup.fits] using hfits
  have hanswer : (ofTable number name t options).index.answer (.exact kind value) =
      ((Values.ofTable t kind options.maxLength.toNat).short.find value).map
        fun pre => { pre } := by
    have hvalues : (BuiltIndex.ofTable t options).values? kind = _ := hvalues
    simp only [ofTable, ValueIndex.answer, BuiltIndex.toValueIndex, hvalues, Lookup.kind]
  rw [hanswer, List.map_map, found_eq]
  show ((Postings.ofPairs ((t.valuePairs kind).partition _).1).find value).map (fun pre => pre) = _
  rw [List.map_id', Postings.find_ofPairs, List.partition_eq_filter_filter, List.filter_filter]
  congr 1
  apply List.filter_congr
  intro pair _
  show (pair.1 == value && decide (pair.1.length ≤ _)) = (value == pair.1)
  by_cases heq : pair.1 = value
  · simp [heq, hfits]
  · rw [beq_eq_false_iff_ne.2 heq, beq_eq_false_iff_ne.2 (Ne.symm heq)]
    rfl

/-! ## Intervals -/

/-- The pairs of one part of an index, as an interval lists them. -/
theorem part_spec (s : Snapshot) (i : Interval) (keep : Bytes → Bool) :
    let part := ((Postings.sortByValue ((s.table.valuePairs i.kind).filter fun pair =>
      keep pair.1)).filter fun pair => i.contains pair.1).map (·.2)
    part.Perm ((s.found (.range i)).filter fun pre => keep (s.table.valueAt pre)) ∧
      part.Pairwise s.table.Before := by
  intro part
  constructor
  · have hperm := ((Postings.sortByValue_perm ((s.table.valuePairs i.kind).filter fun pair =>
      keep pair.1)).filter fun pair => i.contains pair.1).map (·.2)
    rw [List.filter_filter] at hperm
    rw [filter_found]
    exact hperm
  · have hpairs := (s.table.pairwise_valuePairs i.kind).sublist
      (List.filter_sublist (p := fun pair => keep pair.1))
    have hsorted := (Postings.pairwise_sortByValue hpairs).sublist
      (List.filter_sublist (p := fun pair => i.contains pair.1))
    refine List.pairwise_map.2 (hsorted.imp_of_mem fun {a b} ha hb hlt => ?_)
    have hvalue : ∀ pair, pair ∈ (Postings.sortByValue ((s.table.valuePairs i.kind).filter
        fun pair => keep pair.1)).filter (fun pair => i.contains pair.1) →
        s.table.valueAt pair.2 = pair.1 := by
      intro pair hpair
      have hmem := (Postings.sortByValue_perm _).subset (List.mem_filter.1 hpair).1
      exact Table.valueAt_of_mem_valuePairs (List.mem_filter.1 hmem).1
    rw [Table.Before, hvalue a ha, hvalue b hb]
    exact hlt

/-- The values of an interval are searched among the values within the length limit, then among the
longer ones; where no search is possible there is nothing to find. -/
theorem range_ofTable (t : Table) (maxLength : Nat) {i : Interval} (h : i.isInverted = false) :
    (Values.ofTable t i.kind maxLength).range i =
      ((Postings.sortByValue ((t.valuePairs i.kind).filter fun pair =>
        decide (pair.1.length ≤ maxLength))).filter fun pair => i.contains pair.1).map (·.2) ++
      ((Postings.sortByValue ((t.valuePairs i.kind).filter fun pair =>
        !decide (pair.1.length ≤ maxLength))).filter fun pair => i.contains pair.1).map (·.2) := by
  unfold Values.range
  split
  · simp only [Values.ofTable, List.partition_eq_filter_filter, Postings.between_ofPairs]
    rfl
  · rename_i hdegenerate
    have hcontains := i.contains_of_isDegenerate (by simpa [h] using hdegenerate)
    simp [hcontains]

/-- **An interval is answered with the positions of a scan**, those of the values within the length
limit first, each group in the order of values. -/
theorem answer_range {i : Interval} (hvalid : i.isInverted = false)
    (h : (ofTable number name t options).index.answers (.range i) = true) :
    ∃ short long,
      ((ofTable number name t options).index.answer (.range i)).map Entry.pre = short ++ long ∧
      short.Perm (((ofTable number name t options).found (.range i)).filter fun pre =>
        decide ((t.valueAt pre).length ≤ options.maxLength.toNat)) ∧
      long.Perm (((ofTable number name t options).found (.range i)).filter fun pre =>
        !decide ((t.valueAt pre).length ≤ options.maxLength.toNat)) ∧
      short.Pairwise t.Before ∧ long.Pairwise t.Before := by
  obtain ⟨_, hvalues⟩ := values?_of_answers h
  have hanswer : (ofTable number name t options).index.answer (.range i) =
      ((Values.ofTable t i.kind options.maxLength.toNat).range i).map fun pre => { pre } := by
    have hvalues : (BuiltIndex.ofTable t options).values? i.kind = _ := hvalues
    simp only [ofTable, ValueIndex.answer, BuiltIndex.toValueIndex, hvalues, Lookup.kind]
  have hshort := part_spec (ofTable number name t options) i
    fun value => decide (value.length ≤ options.maxLength.toNat)
  have hlong := part_spec (ofTable number name t options) i
    fun value => !decide (value.length ≤ options.maxLength.toNat)
  refine ⟨_, _, ?_, hshort.1, hlong.1, hshort.2, hlong.2⟩
  rw [hanswer, List.map_map, range_ofTable t _ hvalid]
  exact List.map_id' _

end Built

/-! ## Checking entries -/

/-- **A snapshot confirms every position that a scan finds**, if the lookup names no longer values
than the index has. -/
theorem entryFault?_of_mem_found {s : Snapshot} {lookup : Lookup} {pre : Nat}
    (hfits : lookup.fits s.index.maxLength = true) (h : pre ∈ s.found lookup) :
    Source.entryFault? s lookup pre = none := by
  obtain ⟨row, hrow, hsel⟩ := mem_found.1 h
  simp only [selects, Bool.and_eq_true, beq_iff_eq] at hsel
  obtain ⟨hkind, haccepts⟩ := hsel
  have hshort : (lookup.isExact && decide (s.index.maxLength < row.value.length)) = false := by
    cases lookup with
    | range => rfl
    | exact kind value =>
      have hvalue : value = row.value := by simpa [Lookup.accepts] using haccepts
      have hlength : value.length ≤ s.index.maxLength := by simpa [Lookup.fits] using hfits
      simpa [Lookup.isExact, ← hvalue] using hlength
  simp [Source.entryFault?, inconsistency?, hrow, hkind, hshort, haccepts]

end Snapshot

/-! ## Pulling a cursor -/

namespace Cursor

variable {watch : Option SignalId} {signals : Signals}

/-- Running some steps that raise nothing ends at the first position. -/
theorem run_eq (hwatch : stops watch signals = false) {steps : List (Step Nat)}
    (hquiet : Step.allQuiet (!·.isEmpty) steps = true) :
    (run watch signals steps = (none, [], signals) ∧ steps.filterMap Step.result? = []) ∨
      ∃ pre rest, run watch signals steps = (some pre, rest, signals) ∧
        steps.filterMap Step.result? = pre :: rest.filterMap Step.result? ∧
          Step.allQuiet (!·.isEmpty) rest = true := by
  induction steps with
  | nil => exact Or.inl ⟨rfl, rfl⟩
  | cons step rest ih =>
    rw [Step.allQuiet_cons, Bool.and_eq_true] at hquiet
    cases step with
    | visit raises =>
      have hraises : raises = [] := by simpa [Step.isQuiet] using hquiet.1
      subst hraises
      exact ih hquiet.2
    | poll =>
      rw [run, hwatch, if_neg (by simp)]
      exact ih hquiet.2
    | release => exact ih hquiet.2
    | yield pre => exact Or.inr ⟨pre, rest, rfl, rfl, hquiet.2⟩

/-- **Pulling a cursor that nothing interrupts gives its positions one after the other.** -/
theorem take_eq (hwatch : stops watch signals = false) {steps : List (Step Nat)}
    (hquiet : Step.allQuiet (!·.isEmpty) steps = true) (n : Nat) :
    (take { steps, watch } signals n).1 = (steps.filterMap Step.result?).take n := by
  induction n generalizing steps with
  | zero => rfl
  | succ n ih =>
    rcases run_eq hwatch hquiet with ⟨hrun, hnone⟩ | ⟨pre, rest, hrun, hsome, hrest⟩
    · simp only [take, pull, hrun, hnone, List.take_nil]
    · simp only [take, pull, hrun, hsome, List.take_succ_cons, ih hrest]

end Cursor

end XmlStore
