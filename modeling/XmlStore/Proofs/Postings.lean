import XmlStore.ValueIndex.Postings

/-!
# Postings

Postings are sorted by value, and the sort is stable, so the positions of a value keep the order in
which they came.

* `Postings.pairs_ofPairs` — postings hold the pairs they are made of, sorted by value.
* `Postings.filter_sortByValue` — sorting does not disturb the pairs of one value.
* `Postings.find_ofPairs`, `Postings.between_ofPairs` — what the two kinds of searches find.
* `Postings.pairwise_sortByValue` — a search between bounds finds value by value, and in the given
  order within a value.
-/

namespace XmlStore.Postings

/-- Pairs of value and position in the order of values. -/
def sortByValue (pairs : List (Bytes × Nat)) : List (Bytes × Nat) :=
  pairs.mergeSort fun a b => decide (a.1 ≤ b.1)

/-- The pairs of value and position in postings. -/
def pairs (p : Postings) : List (Bytes × Nat) :=
  p.flatMap fun entry => entry.2.map fun pre => (entry.1, pre)

/-! ## Sorting by value -/

theorem le_trans_value (a b c : Bytes × Nat) (h : decide (a.1 ≤ b.1) = true)
    (h' : decide (b.1 ≤ c.1) = true) : decide (a.1 ≤ c.1) = true := by
  rw [decide_eq_true_eq] at *
  exact List.le_trans h h'

theorem le_total_value (a b : Bytes × Nat) :
    (decide (a.1 ≤ b.1) || decide (b.1 ≤ a.1)) = true := by
  rw [Bool.or_eq_true, decide_eq_true_eq, decide_eq_true_eq]
  exact List.le_total a.1 b.1

theorem sortByValue_perm (l : List (Bytes × Nat)) : (sortByValue l).Perm l :=
  List.mergeSort_perm l _

theorem pairwise_le_sortByValue (l : List (Bytes × Nat)) :
    (sortByValue l).Pairwise fun a b => a.1 ≤ b.1 :=
  (List.pairwise_mergeSort le_trans_value le_total_value l).imp fun h => by simpa using h

/-- **Sorting does not disturb the pairs of one value.** -/
theorem filter_sortByValue (l : List (Bytes × Nat)) (value : Bytes) :
    (sortByValue l).filter (·.1 == value) = l.filter (·.1 == value) := by
  have hsame : (l.filter (·.1 == value)).Pairwise fun a b => decide (a.1 ≤ b.1) = true := by
    apply List.pairwise_of_forall_mem_list
    intro a ha b hb
    have ha : a.1 = value := by simpa using (List.mem_filter.1 ha).2
    have hb : b.1 = value := by simpa using (List.mem_filter.1 hb).2
    rw [ha, hb, decide_eq_true_eq]
    exact List.le_refl value
  have hsub : (l.filter (·.1 == value)).Sublist (sortByValue l) :=
    List.sublist_mergeSort le_trans_value le_total_value hsame List.filter_sublist
  have hfilter := hsub.filter (·.1 == value)
  rw [List.filter_filter] at hfilter
  simp only [Bool.and_self] at hfilter
  refine (hfilter.eq_of_length ?_).symm
  exact ((sortByValue_perm l).filter _).length_eq.symm

/-- **Sorted pairs are ordered by value, and within a value by position** if they were in the order
of positions before. -/
theorem pairwise_sortByValue {l : List (Bytes × Nat)} (h : l.Pairwise fun a b => a.2 < b.2) :
    (sortByValue l).Pairwise fun a b => a.1 < b.1 ∨ (a.1 = b.1 ∧ a.2 < b.2) := by
  rw [List.pairwise_iff_forall_sublist]
  intro a b hab
  have hle : a.1 ≤ b.1 :=
    List.pairwise_iff_forall_sublist.1 (pairwise_le_sortByValue l) hab
  by_cases heq : a.1 = b.1
  · -- both pairs are among those of one value, which sorting does not disturb
    have hsub := hab.filter (·.1 == b.1)
    rw [filter_sortByValue, List.filter_cons_of_pos (by simp [heq]),
      List.filter_cons_of_pos (by simp), List.filter_nil] at hsub
    exact Or.inr ⟨heq, List.pairwise_iff_forall_sublist.1 h (hsub.trans List.filter_sublist)⟩
  · exact Or.inl (List.not_le.1 fun hge => heq (List.le_antisymm hle hge))

/-! ## Grouping -/

theorem pairs_group (l : List (Bytes × Nat)) : (group l).pairs = l := by
  induction l with
  | nil => rfl
  | cons pair rest ih =>
    obtain ⟨value, pre⟩ := pair
    rw [group]
    split
    · rename_i hnil
      rw [hnil] at ih
      rw [← ih]; rfl
    · rename_i next pres others hgroup
      rw [hgroup] at ih
      split
      · rename_i heq
        subst heq
        rw [← ih]; rfl
      · rw [← ih]; rfl

theorem head?_group (l : List (Bytes × Nat)) :
    (group l).head?.map (·.1) = l.head?.map (·.1) := by
  cases l with
  | nil => rfl
  | cons pair rest =>
    obtain ⟨value, pre⟩ := pair
    rw [group]
    split
    · rfl
    · split <;> rfl

/-- The values of grouped pairs ascend if the pairs are sorted. -/
theorem pairwise_group {l : List (Bytes × Nat)} (h : l.Pairwise fun a b => a.1 ≤ b.1) :
    (group l).Pairwise fun a b => a.1 < b.1 := by
  induction l with
  | nil => exact List.Pairwise.nil
  | cons pair rest ih =>
    obtain ⟨value, pre⟩ := pair
    obtain ⟨hfirst, hrest⟩ := List.pairwise_cons.1 h
    have hgroup := ih hrest
    have hhead := head?_group rest
    rw [group]
    split
    · exact List.pairwise_singleton _ _
    · rename_i next pres others hcons
      rw [hcons] at hgroup hhead
      obtain ⟨hnext, hothers⟩ := List.pairwise_cons.1 hgroup
      split
      · rename_i heq
        subst heq
        exact List.pairwise_cons.2 ⟨hnext, hothers⟩
      · rename_i hne
        have hle : value ≤ next := by
          cases rest with
          | nil => cases hhead
          | cons pair' rest' =>
            have heq : next = pair'.1 := Option.some.inj hhead
            exact heq ▸ hfirst pair' List.mem_cons_self
        have hlt : value < next := List.not_le.1 fun hge => hne (List.le_antisymm hle hge)
        refine List.pairwise_cons.2 ⟨fun entry he => ?_, hgroup⟩
        rcases List.mem_cons.1 he with rfl | he
        · exact hlt
        · exact List.lt_trans hlt (hnext entry he)

/-- **Postings hold the pairs they are made of, sorted by value.** -/
theorem pairs_ofPairs (l : List (Bytes × Nat)) : (ofPairs l).pairs = sortByValue l :=
  pairs_group _

/-! ## Searches -/

theorem filter_pairs_of_ne {p : Postings} {value : Bytes} (h : ∀ entry ∈ p, entry.1 ≠ value) :
    p.pairs.filter (·.1 == value) = [] := by
  rw [List.filter_eq_nil_iff]
  intro pair hpair
  obtain ⟨entry, he, hpair⟩ := List.mem_flatMap.1 hpair
  obtain ⟨pre, _, rfl⟩ := List.mem_map.1 hpair
  simpa using h entry he

theorem find_eq {p : Postings} (h : p.Pairwise fun a b => a.1 < b.1) (value : Bytes) :
    p.find value = (p.pairs.filter (·.1 == value)).map (·.2) := by
  induction p with
  | nil => rfl
  | cons entry rest ih =>
    obtain ⟨key, pres⟩ := entry
    obtain ⟨hfirst, hrest⟩ := List.pairwise_cons.1 h
    have hpairs : pairs ((key, pres) :: rest) =
        pres.map (fun pre => (key, pre)) ++ pairs rest := rfl
    rw [hpairs, List.filter_append, List.map_append]
    by_cases hkey : key = value
    · subst hkey
      have hlater : (pairs rest).filter (·.1 == key) = [] :=
        filter_pairs_of_ne fun e he heq => List.lt_irrefl key (heq ▸ hfirst e he)
      have hall : (pres.map fun pre => (key, pre)).filter (·.1 == key) =
          pres.map fun pre => (key, pre) := by
        rw [List.filter_eq_self]
        simp
      have hfind : find ((key, pres) :: rest) key = pres := by simp [find]
      rw [hfind, hlater, hall, List.map_map, List.map_nil, List.append_nil]
      exact (List.map_id pres).symm
    · have hnone : (pres.map fun pre => (key, pre)).filter (·.1 == value) = [] := by
        rw [List.filter_eq_nil_iff]
        simp [hkey]
      have hfind : find ((key, pres) :: rest) value = find rest value := by simp [find, hkey]
      rw [hfind, hnone, List.map_nil, List.nil_append, ih hrest]

/-- **A value is found with its positions**, in the order in which they came. -/
theorem find_ofPairs (l : List (Bytes × Nat)) (value : Bytes) :
    (ofPairs l).find value = (l.filter (·.1 == value)).map (·.2) := by
  have hkeys : (ofPairs l).Pairwise fun a b => a.1 < b.1 :=
    pairwise_group (pairwise_le_sortByValue l)
  rw [find_eq hkeys, pairs_ofPairs, filter_sortByValue]

theorem between_eq (p : Postings) (lower upper : Bound) (h : Bound.cross lower upper = false) :
    p.between lower upper h =
      (p.pairs.filter fun pair => lower.admitsAbove pair.1 && upper.admitsBelow pair.1).map
        (·.2) := by
  unfold between pairs
  induction p with
  | nil => rfl
  | cons entry rest ih =>
    rw [List.flatMap_cons, List.filter_append, List.map_append, ← ih, List.filter_cons,
      List.filter_map, List.map_map]
    cases hadmits : lower.admitsAbove entry.1 && upper.admitsBelow entry.1 with
    | true =>
      have hall : entry.2.filter ((fun pair : Bytes × Nat => lower.admitsAbove pair.1 &&
          upper.admitsBelow pair.1) ∘ fun pre => (entry.1, pre)) = entry.2 := by
        rw [List.filter_eq_self]
        exact fun _ _ => hadmits
      rw [if_pos rfl, hall, List.flatMap_cons]
      congr 1
      exact (List.map_id entry.2).symm
    | false =>
      have hnone : entry.2.filter ((fun pair : Bytes × Nat => lower.admitsAbove pair.1 &&
          upper.admitsBelow pair.1) ∘ fun pre => (entry.1, pre)) = [] := by
        rw [List.filter_eq_nil_iff]
        exact fun _ _ => by simp [hadmits]
      rw [if_neg (by simp), hnone]
      rfl

/-- **The values between two bounds are found in order.** -/
theorem between_ofPairs (l : List (Bytes × Nat)) (i : Interval)
    (h : Bound.cross i.lower i.upper = false) :
    (ofPairs l).between i.lower i.upper h =
      ((sortByValue l).filter fun pair => i.contains pair.1).map (·.2) := by
  rw [between_eq, pairs_ofPairs]
  rfl

end XmlStore.Postings
