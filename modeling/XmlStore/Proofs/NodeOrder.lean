import XmlStore.Node

/-!
# The order of nodes

Nodes are totally ordered, by snapshot first and by position within a snapshot.

* `isAscending_iff_pairwise` — the test of neighbours decides whether a list ascends as a whole.
* `mem_sortDistinct`, `pairwise_sortDistinct` — `sortDistinct` keeps the members of a list and
  makes it ascend.
* `sortDistinct_of_pairwise` — a list that ascends already stays as it is, so reading an operand
  in one go and sorting it does not differ from reading it node by node.
-/

namespace XmlStore

namespace Node

theorem eq_iff {a b : Node} : a = b ↔ a.snapshot = b.snapshot ∧ a.pre = b.pre := by
  cases a; cases b; simp

theorem lt_irrefl (a : Node) : ¬ a < a := by
  rw [lt_def]; omega

theorem lt_trans {a b c : Node} (h : a < b) (h' : b < c) : a < c := by
  rw [lt_def] at *; omega

theorem lt_asymm {a b : Node} (h : a < b) : ¬ b < a := fun h' => lt_irrefl a (lt_trans h h')

theorem lt_or_eq_or_lt (a b : Node) : a < b ∨ a = b ∨ b < a := by
  rw [lt_def, lt_def, eq_iff]; omega

theorem ne_of_lt {a b : Node} (h : a < b) : a ≠ b := fun he => lt_irrefl b (he ▸ h)

theorem le_of_not_lt {a b : Node} (h : ¬ b < a) : a ≤ b := by
  rw [le_def]
  rcases lt_or_eq_or_lt a b with hlt | heq | hgt
  · exact Or.inl hlt
  · exact Or.inr heq
  · exact absurd hgt h

theorem le_trans {a b c : Node} (h : a ≤ b) (h' : b ≤ c) : a ≤ c := by
  rw [le_def] at *
  rcases h with h | rfl
  · rcases h' with h' | rfl
    · exact Or.inl (lt_trans h h')
    · exact Or.inl h
  · exact h'

theorem le_refl (a : Node) : a ≤ a := le_def.2 (Or.inr rfl)

theorem not_lt_of_le {a b : Node} (h : a ≤ b) : ¬ b < a := by
  rw [le_def] at h
  rcases h with h | rfl
  · exact lt_asymm h
  · exact lt_irrefl a

theorem lt_of_le_of_ne {a b : Node} (h : a ≤ b) (hne : a ≠ b) : a < b :=
  (le_def.1 h).resolve_right hne

/-- The comparison of two nodes agrees with their order. -/
theorem diff_eq_lt {a b : Node} : a.diff b = .lt ↔ a < b := by
  unfold diff
  split
  · simp_all
  · split <;> simp_all

theorem earliest?_eq_none {nodes : List Node} : earliest? nodes = none ↔ nodes = [] := by
  cases nodes <;> simp [earliest?]

theorem latest?_eq_none {nodes : List Node} : latest? nodes = none ↔ nodes = [] := by
  cases nodes <;> simp [latest?]

/-- A choice that stands in a transitive relation to both of its nodes stands in it, when repeated
over a list, to every node it has met. -/
theorem foldl_rel {choose : Node → Node → Node} {r : Node → Node → Prop}
    (trans : ∀ {a b c}, r a b → r b c → r a c) (refl : ∀ a, r a a)
    (both : ∀ a b, r (choose a b) a ∧ r (choose a b) b) (a : Node) (rest : List Node) :
    ∀ b ∈ a :: rest, r (rest.foldl choose a) b := by
  induction rest generalizing a with
  | nil =>
    intro b hb
    rw [List.mem_singleton] at hb
    exact hb ▸ refl a
  | cons c rest ih =>
    have hfirst := ih (choose a c) (choose a c) List.mem_cons_self
    obtain ⟨ha, hc⟩ := both a c
    intro b hb
    rw [List.foldl_cons]
    rcases List.mem_cons.1 hb with rfl | hb
    · exact trans hfirst ha
    · rcases List.mem_cons.1 hb with rfl | hb
      · exact trans hfirst hc
      · exact ih _ b (List.mem_cons_of_mem _ hb)

theorem earlier_le (a b : Node) : earlier a b ≤ a ∧ earlier a b ≤ b := by
  unfold earlier
  split
  · rename_i h; exact ⟨le_def.2 (Or.inl h), le_refl b⟩
  · rename_i h; exact ⟨le_refl a, le_of_not_lt h⟩

theorem le_later (a b : Node) : a ≤ later a b ∧ b ≤ later a b := by
  unfold later
  split
  · rename_i h; exact ⟨le_def.2 (Or.inl h), le_refl b⟩
  · rename_i h; exact ⟨le_refl a, le_of_not_lt h⟩

theorem earliest?_le {nodes : List Node} {node : Node} (h : earliest? nodes = some node) :
    ∀ b ∈ nodes, node ≤ b := by
  cases nodes with
  | nil => simp [earliest?] at h
  | cons a rest =>
    simp only [earliest?, Option.some.injEq] at h
    exact h ▸ foldl_rel (r := (· ≤ ·)) le_trans le_refl earlier_le a rest

theorem le_latest? {nodes : List Node} {node : Node} (h : latest? nodes = some node) :
    ∀ b ∈ nodes, b ≤ node := by
  cases nodes with
  | nil => simp [latest?] at h
  | cons a rest =>
    simp only [latest?, Option.some.injEq] at h
    exact h ▸ foldl_rel (r := (· ≥ ·)) (fun h h' => le_trans h' h) le_refl le_later a rest

end Node

/-! ## Ascending lists -/

/-- Comparing neighbours is enough where the order is transitive. -/
theorem isAscending_iff_pairwise {α : Type} [LT α] [DecidableLT α]
    (trans : ∀ {a b c : α}, a < b → b < c → a < c) {l : List α} :
    isAscending l = true ↔ l.Pairwise (· < ·) := by
  induction l with
  | nil => simp [isAscending]
  | cons a rest ih =>
    cases rest with
    | nil => simp [isAscending]
    | cons b rest =>
      rw [isAscending, Bool.and_eq_true, decide_eq_true_eq, ih, List.pairwise_cons (a := a)]
      constructor
      · rintro ⟨hab, hrest⟩
        refine ⟨?_, hrest⟩
        intro c hc
        rcases List.mem_cons.1 hc with rfl | hc
        · exact hab
        · exact trans hab ((List.pairwise_cons.1 hrest).1 c hc)
      · rintro ⟨ha, hrest⟩
        exact ⟨ha b List.mem_cons_self, hrest⟩

theorem isAscending_nat {l : List Nat} : isAscending l = true ↔ l.Pairwise (· < ·) :=
  isAscending_iff_pairwise Nat.lt_trans

/-! ## Sorting -/

theorem mem_dropRepeats {node : Node} {l : List Node} : node ∈ dropRepeats l ↔ node ∈ l := by
  fun_induction dropRepeats l with
  | case1 a rest ih => simp [ih]
  | case2 a b rest hne ih => simp [ih]
  | case3 => rfl

/-- What is left of a sorted list without repeats ascends strictly. -/
theorem pairwise_dropRepeats {l : List Node} (h : l.Pairwise (· ≤ ·)) :
    (dropRepeats l).Pairwise (· < ·) := by
  fun_induction dropRepeats l with
  | case1 a rest ih => exact ih h.of_cons
  | case2 a b rest hne ih =>
    obtain ⟨ha, hrest⟩ := List.pairwise_cons.1 h
    refine List.pairwise_cons.2 ⟨fun c hc => ?_, ih hrest⟩
    have hab : a < b := Node.lt_of_le_of_ne (ha b List.mem_cons_self) hne
    rcases List.mem_cons.1 (mem_dropRepeats.1 hc) with rfl | hc
    · exact hab
    · have hbc := (List.pairwise_cons.1 hrest).1 c hc
      exact (Node.le_def.1 hbc).elim (Node.lt_trans hab) (· ▸ hab)
  | case3 l hshort =>
    rcases l with _ | ⟨a, _ | ⟨b, rest⟩⟩
    · exact List.Pairwise.nil
    · exact List.pairwise_singleton _ a
    · exact absurd rfl (hshort a b rest)

theorem dropRepeats_of_pairwise {l : List Node} (h : l.Pairwise (· < ·)) : dropRepeats l = l := by
  fun_induction dropRepeats l with
  | case1 a rest ih =>
    exact absurd ((List.pairwise_cons.1 h).1 a List.mem_cons_self) (Node.lt_irrefl a)
  | case2 a b rest hne ih => rw [ih h.of_cons]
  | case3 => rfl

theorem mem_sortDistinct {node : Node} {l : List Node} : node ∈ sortDistinct l ↔ node ∈ l := by
  rw [sortDistinct, mem_dropRepeats, List.mem_mergeSort]

theorem pairwise_sortDistinct (l : List Node) : (sortDistinct l).Pairwise (· < ·) := by
  apply pairwise_dropRepeats
  have hsorted : (l.mergeSort fun a b => decide (a ≤ b)).Pairwise
      (fun a b => decide (a ≤ b) = true) := List.pairwise_mergeSort
    (fun a b c hab hbc => by
      simp only [decide_eq_true_eq] at *
      exact Node.le_trans hab hbc)
    (fun a b => by
      simp only [Bool.or_eq_true, decide_eq_true_eq]
      by_cases h : b < a
      · exact Or.inr (Node.le_def.2 (Or.inl h))
      · exact Or.inl (Node.le_of_not_lt h)) l
  exact hsorted.imp fun h => by simpa using h

theorem sortDistinct_of_pairwise {l : List Node} (h : l.Pairwise (· < ·)) :
    sortDistinct l = l := by
  rw [sortDistinct, List.mergeSort_of_pairwise, dropRepeats_of_pairwise h]
  exact h.imp fun hab => by simpa using Node.le_def.2 (Or.inl hab)

end XmlStore
