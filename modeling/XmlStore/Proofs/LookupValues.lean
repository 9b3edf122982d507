import XmlStore.Proofs.IndexAnswers
import XmlStore.Proofs.Polling

/-!
# Values of lookups

* `Snapshot.listed` — the positions of a lookup in the order in which they come, read from the index
  or by a scan.
* `Expr.value_access` — a lookup has these as its value, if the snapshot confirms them and nothing
  is heard.
* `Snapshot.perm_listed` — over a built index these are the positions of a scan, in some order.
* `Snapshot.index_agrees_with_scan` — the order too: only an interval that the index answers is
  listed differently, by the values.
-/

namespace XmlStore

/-- The positions of a lookup in the order in which they come. -/
def Snapshot.listed (s : Snapshot) (lookup : Lookup) : List Nat :=
  if s.index.answers lookup then (s.index.answer lookup).map Entry.pre else s.found lookup

theorem Step.allQuiet_entries {hears : List SignalId → Bool} {entries : List Entry}
    (h : ∀ entry ∈ entries, hears entry.raises = false) :
    allQuiet hears (Entry.steps entries) = true := by
  induction entries with
  | nil => rfl
  | cons entry rest ih =>
    obtain ⟨hentry, hrest⟩ := List.forall_mem_cons.1 h
    have hsteps : Entry.steps (entry :: rest) =
        [.visit entry.raises, .yield entry.pre] ++ Entry.steps rest := rfl
    rw [hsteps, allQuiet_append, ih hrest]
    simp [isQuiet, hentry]

/-- **The value of a lookup.** -/
theorem Expr.value_access {live : Live} {signals : Signals} {signal : SignalId} {s : Snapshot}
    {binding : Binding} {lookup : Lookup} (hs : live.find? binding = some s)
    (hvalid : lookup.fault? = none) (hraised : signals.isRaised signal = false)
    (hquiet : ∀ entry ∈ s.index.answer lookup, signals.hears signal entry.raises = false)
    (hconfirmed : s.index.answers lookup = true →
      ∀ pre ∈ s.listed lookup, Source.entryFault? s lookup pre = none) (iterable : Bool) :
    ((access binding lookup iterable).value live signals signal).result =
      .ok ((s.listed lookup).map fun pre => ⟨s.id, pre⟩) := by
  have hsource : (access binding lookup iterable).source live = .ok (.ofLookup s lookup) := by
    simp only [source, openLookup, Live.resolve, hs, hvalid]
    rfl
  refine value_eq_ok.2 ⟨hraised, _, hsource, ?_⟩
  unfold Source.ofLookup Snapshot.listed
  split
  · rename_i hanswers
    have hlisted : s.listed lookup = (s.index.answer lookup).map Entry.pre := by
      rw [Snapshot.listed, if_pos hanswers]
    rw [← Step.filterMap_result?_entries]
    apply Script.clean_ofSteps (Step.allQuiet_entries hquiet)
    intro pre hpre
    rw [Step.filterMap_result?_entries, ← hlisted] at hpre
    exact hconfirmed hanswers pre hpre
  · rw [← Snapshot.filterMap_scanSteps]
    exact Script.clean_ofSteps (s.allQuiet_scanSteps (by simp [Signals.hears]) lookup)
      fun _ _ => rfl

namespace Snapshot

variable {number : Nat} {name : String} {t : Table} {options : Options}

/-- Reading a built index raises no signals. -/
theorem raises_of_mem_answer {lookup : Lookup} {entry : Entry}
    (h : entry ∈ (ofTable number name t options).index.answer lookup) : entry.raises = [] := by
  have hentries : ∀ pres : List Nat, entry ∈ (pres.map fun pre => { pre } : List Entry) →
      entry.raises = [] := by
    intro pres he
    obtain ⟨pre, _, rfl⟩ := List.mem_map.1 he
    rfl
  cases lookup with
  | exact kind value =>
    simp only [ofTable, ValueIndex.answer, BuiltIndex.toValueIndex] at h
    split at h
    · exact hentries _ h
    · cases h
  | range i =>
    simp only [ofTable, ValueIndex.answer, BuiltIndex.toValueIndex] at h
    split at h
    · exact hentries _ h
    · cases h

theorem isInverted_of_valid {i : Interval} (h : (Lookup.range i).fault? = none) :
    i.isInverted = false := by
  simpa [Lookup.fault?] using h

/-- Two parts of a list that are picked by opposite conditions make up the list. -/
theorem perm_of_parts {l short long : List Nat} {keep : Nat → Bool}
    (hshort : short.Perm (l.filter keep)) (hlong : long.Perm (l.filter fun pre => !keep pre)) :
    (short ++ long).Perm l :=
  (hshort.append hlong).trans (List.filter_append_perm keep l)

/-- **A built index lists the positions of a scan.** -/
theorem perm_listed {lookup : Lookup} (hvalid : lookup.fault? = none) :
    ((ofTable number name t options).listed lookup).Perm
      ((ofTable number name t options).found lookup) := by
  unfold listed
  split
  · rename_i hanswers
    cases lookup with
    | exact kind value =>
      rw [answer_exact hanswers]
    | range i =>
      obtain ⟨short, long, hanswer, hshort, hlong, _⟩ :=
        answer_range (isInverted_of_valid hvalid) hanswers
      rw [hanswer]
      exact perm_of_parts hshort hlong
  · exact .refl _

/-- **The value of a lookup over a built index.** -/
theorem value_ofTable {live : Live} {signals : Signals} {signal : SignalId} {lookup : Lookup}
    (hlive : live.find? (ofTable number name t options).binding =
      some (ofTable number name t options))
    (hvalid : lookup.fault? = none) (hraised : signals.isRaised signal = false) (iterable : Bool) :
    ((Expr.access (ofTable number name t options).binding lookup iterable).value live signals
      signal).result = .ok (((ofTable number name t options).listed lookup).map fun pre =>
        ⟨number, pre⟩) := by
  refine Expr.value_access hlive hvalid hraised (fun entry he => ?_) (fun hanswers pre hpre => ?_)
    iterable
  · rw [raises_of_mem_answer he]
    simp [Signals.hears]
  · rw [ValueIndex.answers, Bool.and_eq_true] at hanswers
    exact entryFault?_of_mem_found hanswers.1 ((perm_listed hvalid).subset hpre)

theorem length_found_le (s : Snapshot) (lookup : Lookup) : (s.found lookup).length ≤ s.size := by
  unfold found
  rw [List.length_map]
  apply Nat.le_trans (List.length_filter_le _ _)
  rw [List.length_zipIdx, Array.length_toList]
  exact Nat.le_refl _

/-- The value of a lookup is that of a scan, unless it is an interval that the index answers. -/
theorem listed_eq_found {lookup : Lookup}
    (h : lookup.isExact = true ∨ (ofTable number name t options).index.answers lookup = false) :
    (ofTable number name t options).listed lookup =
      (ofTable number name t options).found lookup := by
  unfold listed
  split
  · rename_i hanswers
    rcases h with hexact | hnot
    · cases lookup with
      | exact kind value => exact answer_exact hanswers
      | range i => cases hexact
    · rw [hnot] at hanswers
      cases hanswers
  · rfl

/-- No list is searched with bounds that cross; where they would, there is nothing to find. -/
theorem range_searched (i : Interval) :
    (∃ apart : Bound.cross i.lower i.upper = false, ∀ values : Values,
      values.range i = values.short.between i.lower i.upper apart ++
        values.long.between i.lower i.upper apart) ∨
    ∀ values : Values, values.range i = [] := by
  by_cases hsearch : (i.isInverted || i.isDegenerate) = false
  · refine Or.inl ⟨Interval.cross_eq_false hsearch, ?_⟩
    intro values
    rw [Values.range, dif_pos hsearch]
  · right
    intro values
    rw [Values.range, dif_neg hsearch]

/-- **Index and scan agree.**  A scan finds all rows that belong to a lookup, in document order.
The value of the lookup is the same list, unless it is an interval that the index answers: then the
values within the length limit come first, then the longer ones, each group in the order of values
and positions.  No list is searched with bounds that cross. -/
theorem index_agrees_with_scan (number : Nat) (name : String) (t : Table) (options : Options)
    {lookup : Lookup} (hvalid : lookup.fault? = none) {live : Live}
    (hlive : live.find? (ofTable number name t options).binding =
      some (ofTable number name t options))
    {signals : Signals} {signal : SignalId} (hraised : signals.isRaised signal = false) :
    let s := ofTable number name t options
    let limit := options.maxLength.toNat
    let value := fun iterable =>
      ((Expr.access s.binding lookup iterable).value live signals signal).result
    ∃ scan : List Nat,
      (∀ n, t.size ≤ n → (Cursor.take { steps := s.scanSteps lookup, watch := some signal }
        signals n).1 = scan) ∧
      scan.Pairwise (· < ·) ∧
      (∀ pre, pre ∈ scan ↔ ∃ row, t.rows[pre]? = some row ∧ row.kind = lookup.kind.nodeKind ∧
        lookup.accepts row.value = true) ∧
      (lookup.isExact = true ∨ s.index.answers lookup = false →
        ∀ iterable, value iterable = .ok (scan.map fun pre => ⟨number, pre⟩)) ∧
      (lookup.isExact = false → s.index.answers lookup = true → ∃ short long : List Nat,
        (∀ iterable, value iterable = .ok ((short ++ long).map fun pre => ⟨number, pre⟩)) ∧
        (short ++ long).Perm scan ∧ (short ++ long).Nodup ∧
        short.Perm (scan.filter fun pre => decide ((t.valueAt pre).length ≤ limit)) ∧
        long.Perm (scan.filter fun pre => !decide ((t.valueAt pre).length ≤ limit)) ∧
        short.Pairwise t.Before ∧ long.Pairwise t.Before) ∧
      ∀ i, lookup = .range i →
        (∃ apart : Bound.cross i.lower i.upper = false, ∀ values : Values,
          values.range i = values.short.between i.lower i.upper apart ++
            values.long.between i.lower i.upper apart) ∨
        ∀ values : Values, values.range i = [] := by
  intro s limit value
  have hvalue : ∀ iterable, value iterable =
      .ok ((s.listed lookup).map fun pre => ⟨number, pre⟩) :=
    value_ofTable hlive hvalid hraised
  refine ⟨s.found lookup, ?_, s.pairwise_found lookup, ?_, ?_, ?_, fun i _ => range_searched i⟩
  · intro n hn
    rw [Cursor.take_eq (by simpa [Cursor.stops] using hraised) (s.allQuiet_scanSteps rfl lookup),
      filterMap_scanSteps]
    exact List.take_of_length_le (Nat.le_trans (s.length_found_le lookup) hn)
  · intro pre
    rw [mem_found]
    simp [selects, s, ofTable]
  · intro hsame iterable
    have hlisted : s.listed lookup = s.found lookup := listed_eq_found hsame
    exact hlisted ▸ hvalue iterable
  · intro hrange hanswers
    cases lookup with
    | exact kind value => cases hrange
    | range i =>
      obtain ⟨short, long, hanswer, hshort, hlong, hshortAsc, hlongAsc⟩ :=
        answer_range (isInverted_of_valid hvalid) hanswers
      have hperm := perm_of_parts hshort hlong
      have hlisted : s.listed (.range i) = short ++ long := by
        rw [listed, if_pos hanswers]
        exact hanswer
      refine ⟨short, long, fun iterable => hlisted ▸ hvalue iterable, hperm, ?_, hshort, hlong,
        hshortAsc, hlongAsc⟩
      exact hperm.nodup_iff.2 ((s.pairwise_found _).imp Nat.ne_of_lt)

/-- An open interval over three texts, one of which is longer than the limit. -/
theorem index_agrees_with_scan_above :
    let row : Bytes → Row := fun value => ⟨.text, 1, 1, 0, 0, value⟩
    let t : Table := { rows := #[row [98], row [97, 98, 99], row [97, 97]] }
    let s := ofTable 0 "books" t { maxLength := 2 }
    let lookup : Lookup := .range ⟨.text, some [97], false, none, false⟩
    ∃ scan short long : List Nat,
      (Cursor.take { steps := s.scanSteps lookup, watch := some 0 } .empty 3).1 = scan ∧
      ((Expr.access s.binding lookup false).value ⟨[s]⟩ .empty 0).result =
        .ok ((short ++ long).map fun pre => ⟨0, pre⟩) ∧
      (short ++ long).Perm scan ∧ short.Pairwise t.Before ∧ long.Pairwise t.Before := by
  intro row t s lookup
  obtain ⟨scan, hscan, _, _, _, hindex, _⟩ :=
    @index_agrees_with_scan 0 "books" t { maxLength := 2 } lookup rfl ⟨[s]⟩ rfl .empty 0 rfl
  obtain ⟨short, long, hvalue, hperm, _, _, _, hshort, hlong⟩ := hindex rfl rfl
  exact ⟨scan, short, long, hscan 3 (Nat.le_refl 3), hvalue false, hperm, hshort, hlong⟩

end Snapshot

end XmlStore
