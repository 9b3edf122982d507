import Mathlib.Data.List.Sort
import XmlStore.Proofs.IndexAnswers

/-!
# What postings hold

Postings are told by the pairs of value and position in them, so what is said of these pairs says
everything, however the postings were put together.

* `Postings.Holds` — postings hold just the pairs for which a statement is true, in the order that
  searches rely on.
* `Postings.Holds.mem_find`, `Postings.Holds.pairwise_find` — what a search for a value finds.
* `Postings.Holds.eq` — postings that hold the same are the same.
* `Postings.holds_ofPairs` — postings that are made of sorted pairs hold these pairs.
* `Postings.Holds.add` — so do postings that one more pair is put into.
-/

namespace XmlStore.Postings

variable {p p' : Postings} {held : Bytes → Nat → Prop} {value : Bytes} {pre : Nat}

/-- Postings hold the positions for which `held` is true, under their values. -/
structure Holds (p : Postings) (held : Bytes → Nat → Prop) : Prop where
  /-- Every value is there once; values ascend. -/
  values : p.Pairwise fun a b => a.1 < b.1
  /-- No value is there without a position. -/
  nonempty : ∀ entry ∈ p, entry.2 ≠ []
  /-- The positions of a value ascend. -/
  ascending : ∀ entry ∈ p, entry.2.Pairwise (· < ·)
  iff : ∀ value pre, (∃ pres, (value, pres) ∈ p ∧ pre ∈ pres) ↔ held value pre

theorem holds_nil (hnone : ∀ value pre, ¬ held value pre) : Holds [] held where
  values := List.Pairwise.nil
  nonempty _ h := by cases h
  ascending _ h := by cases h
  iff value pre := by simp [hnone]

theorem Holds.congr (h : p.Holds held) {held' : Bytes → Nat → Prop}
    (hiff : ∀ value pre, held value pre ↔ held' value pre) : p.Holds held' :=
  { h with iff := fun value pre => (h.iff value pre).trans (hiff value pre) }

/-! ## Searches -/

/-- A value that is there is found with its positions. -/
theorem find_of_mem (h : p.Pairwise fun a b => a.1 < b.1) {pres : List Nat}
    (hmem : (value, pres) ∈ p) : p.find value = pres := by
  induction p with
  | nil => cases hmem
  | cons entry rest ih =>
    obtain ⟨hfirst, hrest⟩ := List.pairwise_cons.1 h
    rcases List.mem_cons.1 hmem with rfl | hmem
    · simp [find]
    · have hlt : entry.1 < value := hfirst _ hmem
      have hne : entry.1 ≠ value := fun heq => List.lt_irrefl value (heq ▸ hlt)
      rw [← ih hrest hmem]
      simp [find, hne]

/-- What is found is there, or nothing is found. -/
theorem find_eq_nil_or_mem (p : Postings) (value : Bytes) :
    p.find value = [] ∨ (value, p.find value) ∈ p := by
  rw [find]
  cases hfind : p.find? (·.1 == value) with
  | none => exact Or.inl rfl
  | some entry =>
    obtain ⟨key, pres⟩ := entry
    have hkey : key = value := by simpa using List.find?_some hfind
    exact Or.inr (hkey ▸ List.mem_of_find?_eq_some hfind)

/-- All positions in postings. -/
def positions (p : Postings) : List Nat := p.flatMap (·.2)

namespace Holds

variable (h : p.Holds held)
include h

/-- **A value is found with its positions.** -/
theorem mem_find : pre ∈ p.find value ↔ held value pre := by
  rw [← h.iff]
  constructor
  · intro hpre
    rcases p.find_eq_nil_or_mem value with hnil | hmem
    · rw [hnil] at hpre
      cases hpre
    · exact ⟨_, hmem, hpre⟩
  · rintro ⟨pres, hmem, hpre⟩
    rwa [find_of_mem h.values hmem]

theorem pairwise_find (value : Bytes) : (p.find value).Pairwise (· < ·) := by
  rcases p.find_eq_nil_or_mem value with hnil | hmem
  · rw [hnil]
    exact List.Pairwise.nil
  · exact h.ascending _ hmem

theorem mem_iff_find {entry : Bytes × List Nat} :
    entry ∈ p ↔ entry.2 ≠ [] ∧ p.find entry.1 = entry.2 := by
  obtain ⟨key, pres⟩ := entry
  constructor
  · exact fun hmem => ⟨h.nonempty _ hmem, find_of_mem h.values hmem⟩
  · rintro ⟨hne, hfind⟩
    have hfind : p.find key = pres := hfind
    exact hfind ▸ (p.find_eq_nil_or_mem key).resolve_left (hfind ▸ hne)

/-- **Postings that hold the same are the same.** -/
theorem eq (h' : p'.Holds held) : p = p' := by
  have hfind : ∀ value, p.find value = p'.find value := fun value =>
    (h.pairwise_find value).eq_of_mem_iff (h'.pairwise_find value) fun pre =>
      h.mem_find.trans h'.mem_find.symm
  have hperm : p.Perm p' := by
    have hdistinct : ∀ {q : Postings}, (q.Pairwise fun a b => a.1 < b.1) → q.Nodup := fun hq =>
      hq.imp fun {a b} hlt (heq : a = b) => List.lt_irrefl b.1 (heq ▸ hlt)
    refine (List.perm_ext_iff_of_nodup (hdistinct h.values) (hdistinct h'.values)).2 fun entry => ?_
    rw [h.mem_iff_find, h'.mem_iff_find, hfind]
  exact hperm.eq_of_pairwise (fun a b _ _ hab hba => absurd hba (List.lt_asymm hab)) h.values
    h'.values

theorem mem_positions : pre ∈ p.positions ↔ ∃ value, held value pre := by
  simp only [← h.iff, positions, List.mem_flatMap, Prod.exists]

/-- No position is there twice if each has one value. -/
theorem nodup_positions (hunique : ∀ {a b pre}, held a pre → held b pre → a = b) :
    p.positions.Nodup := by
  refine List.nodup_flatMap.2 ⟨fun entry hentry => (h.ascending entry hentry).nodup, ?_⟩
  refine h.values.imp_of_mem fun {a b} ha hb hlt pre hpre hpre' => ?_
  have heq := hunique ((h.iff a.1 pre).1 ⟨a.2, ha, hpre⟩) ((h.iff b.1 pre).1 ⟨b.2, hb, hpre'⟩)
  exact List.lt_irrefl b.1 (heq ▸ hlt)

end Holds

/-! ## Postings of sorted pairs -/

theorem ne_nil_of_mem_group {l : List (Bytes × Nat)} {entry : Bytes × List Nat}
    (h : entry ∈ group l) : entry.2 ≠ [] := by
  induction l with
  | nil => cases h
  | cons pair rest ih =>
    obtain ⟨value, pre⟩ := pair
    rw [group] at h
    split at h
    · rw [List.mem_singleton.1 h]
      exact List.cons_ne_nil _ _
    · rename_i next pres others hgroup
      rw [hgroup] at ih
      split at h
      · rcases List.mem_cons.1 h with rfl | h
        · exact List.cons_ne_nil _ _
        · exact ih (List.mem_cons_of_mem _ h)
      · rcases List.mem_cons.1 h with rfl | h
        · exact List.cons_ne_nil _ _
        · exact ih h

theorem mem_pairs {pair : Bytes × Nat} :
    pair ∈ p.pairs ↔ ∃ pres, (pair.1, pres) ∈ p ∧ pair.2 ∈ pres := by
  obtain ⟨value, pre⟩ := pair
  simp only [pairs, List.mem_flatMap, List.mem_map, Prod.exists, Prod.mk.injEq]
  constructor
  · rintro ⟨_, pres, hmem, _, hpre, rfl, rfl⟩
    exact ⟨pres, hmem, hpre⟩
  · rintro ⟨pres, hmem, hpre⟩
    exact ⟨value, pres, hmem, pre, hpre, rfl, rfl⟩

/-- **Postings hold the pairs they are made of**, if positions ascend. -/
theorem holds_ofPairs {l : List (Bytes × Nat)} (h : l.Pairwise fun a b => a.2 < b.2) :
    (ofPairs l).Holds fun value pre => (value, pre) ∈ l := by
  have hvalues : (ofPairs l).Pairwise fun a b => a.1 < b.1 :=
    pairwise_group (pairwise_le_sortByValue l)
  refine ⟨hvalues, fun entry => ne_nil_of_mem_group, fun entry hentry => ?_, fun value pre => ?_⟩
  · obtain ⟨value, pres⟩ := entry
    have hfind := find_of_mem hvalues hentry
    rw [find_ofPairs] at hfind
    rw [← hfind]
    exact List.pairwise_map.2 (h.sublist List.filter_sublist)
  · have hpairs : (value, pre) ∈ (ofPairs l).pairs ↔
        ∃ pres, (value, pres) ∈ ofPairs l ∧ pre ∈ pres := mem_pairs
    rw [← hpairs, pairs_ofPairs, (sortByValue_perm l).mem_iff]

/-! ## One more position -/

/-- Postings with one more position of a value, behind those that are there. -/
def add (value : Bytes) (pre : Nat) : Postings → Postings
  | [] => [(value, [pre])]
  | (key, pres) :: rest =>
    if value < key then (value, [pre]) :: (key, pres) :: rest
    else if value = key then (key, pres ++ [pre]) :: rest
    else (key, pres) :: add value pre rest

/-- The other values stay as they are. -/
theorem mem_add (h : p.Pairwise fun a b => a.1 < b.1) {entry : Bytes × List Nat} :
    entry ∈ p.add value pre ↔
      (entry ∈ p ∧ entry.1 ≠ value) ∨ entry = (value, p.find value ++ [pre]) := by
  induction p with
  | nil => simp [add, find]
  | cons first rest ih =>
    obtain ⟨key, pres⟩ := first
    obtain ⟨hfirst, hrest⟩ := List.pairwise_cons.1 h
    have habsent : ∀ {q : Postings}, (∀ e ∈ q, value < e.1) →
        q.find value = [] ∧ (entry ∈ q → entry.1 ≠ value) := by
      intro q hq
      have hne : ∀ e ∈ q, e.1 ≠ value := fun e he heq =>
        List.lt_irrefl value (heq ▸ hq e he)
      refine ⟨(q.find_eq_nil_or_mem value).resolve_right fun hmem => hne _ hmem rfl, hne entry⟩
    rw [add]
    split
    · rename_i hlt
      have hall : ∀ e ∈ (key, pres) :: rest, value < e.1 :=
        List.forall_mem_cons.2 ⟨hlt, fun e he => List.lt_trans hlt (hfirst e he)⟩
      obtain ⟨hfind, hne⟩ := habsent hall
      rw [hfind, List.nil_append, List.mem_cons, or_comm, and_iff_left_of_imp hne]
    · rename_i hle
      split
      · rename_i heq
        subst heq
        obtain ⟨_, hne⟩ := habsent hfirst
        have hfind : find ((value, pres) :: rest) value = pres := by simp [find]
        rw [hfind, List.mem_cons, List.mem_cons, or_comm]
        constructor
        · rintro (hmem | rfl)
          · exact Or.inl ⟨Or.inr hmem, hne hmem⟩
          · exact Or.inr rfl
        · rintro (⟨rfl | hmem, hother⟩ | rfl)
          · exact absurd rfl hother
          · exact Or.inl hmem
          · exact Or.inr rfl
      · rename_i hne
        have hfind : find ((key, pres) :: rest) value = find rest value := by
          simp [find, Ne.symm hne]
        rw [hfind, List.mem_cons, List.mem_cons, ih hrest]
        constructor
        · rintro (rfl | ⟨hmem, hother⟩ | rfl)
          · exact Or.inl ⟨Or.inl rfl, Ne.symm hne⟩
          · exact Or.inl ⟨Or.inr hmem, hother⟩
          · exact Or.inr rfl
        · rintro (⟨rfl | hmem, hother⟩ | rfl)
          · exact Or.inl rfl
          · exact Or.inr (Or.inl ⟨hmem, hother⟩)
          · exact Or.inr (Or.inr rfl)

/-- Values still ascend. -/
theorem pairwise_add (h : p.Pairwise fun a b => a.1 < b.1) :
    (p.add value pre).Pairwise fun a b => a.1 < b.1 := by
  induction p with
  | nil => exact List.pairwise_singleton _ _
  | cons first rest ih =>
    obtain ⟨key, pres⟩ := first
    obtain ⟨hfirst, hrest⟩ := List.pairwise_cons.1 h
    rw [add]
    split
    · rename_i hlt
      exact List.pairwise_cons.2
        ⟨List.forall_mem_cons.2 ⟨hlt, fun e he => List.lt_trans hlt (hfirst e he)⟩, h⟩
    · rename_i hle
      split
      · exact List.pairwise_cons.2 ⟨hfirst, hrest⟩
      · rename_i hne
        refine List.pairwise_cons.2 ⟨fun entry hentry => ?_, ih hrest⟩
        rcases (mem_add hrest).1 hentry with ⟨hmem, _⟩ | rfl
        · exact hfirst entry hmem
        · exact List.not_le.1 fun hge => hne (List.le_antisymm hge (List.not_lt.1 hle))

/-- **A position is put behind those that are there**, if it is greater than all of them. -/
theorem Holds.add (h : p.Holds held) (value : Bytes) (hlast : ∀ {key q}, held key q → q < pre) :
    (p.add value pre).Holds fun key q => held key q ∨ (key = value ∧ q = pre) where
  values := pairwise_add h.values
  nonempty entry hentry := by
    rcases (mem_add h.values).1 hentry with ⟨hmem, _⟩ | rfl
    · exact h.nonempty entry hmem
    · exact List.append_ne_nil_of_right_ne_nil _ (List.cons_ne_nil _ _)
  ascending entry hentry := by
    rcases (mem_add h.values).1 hentry with ⟨hmem, _⟩ | rfl
    · exact h.ascending entry hmem
    · refine List.pairwise_append.2 ⟨h.pairwise_find value, List.pairwise_singleton _ _, ?_⟩
      intro q hq last hmem
      rw [List.mem_singleton.1 hmem]
      exact hlast (h.mem_find.1 hq)
  iff key q := by
    simp only [mem_add h.values]
    by_cases hkey : key = value
    · subst hkey
      simp [h.mem_find]
    · simp [hkey, h.iff]

section Kept

variable {keep : Bytes → Prop}

/-- Where only some values are kept, a position of such a value is added. -/
theorem Holds.add_kept (h : p.Holds fun key q => held key q ∧ keep key) (hkeep : keep value)
    (hlast : ∀ {key q}, held key q → q < pre) :
    (p.add value pre).Holds fun key q => (held key q ∨ (key = value ∧ q = pre)) ∧ keep key := by
  refine (h.add value fun hheld => hlast hheld.1).congr fun key q => ?_
  have hthis : (key = value ∧ q = pre) ∧ keep key ↔ key = value ∧ q = pre :=
    and_iff_left_of_imp fun hkey => hkey.1 ▸ hkeep
  rw [or_and_right, hthis]

/-- A position of another value need not be added. -/
theorem Holds.of_not_kept (h : p.Holds fun key q => held key q ∧ keep key) (hkeep : ¬ keep value) :
    p.Holds fun key q => (held key q ∨ (key = value ∧ q = pre)) ∧ keep key := by
  refine h.congr fun key q => ?_
  have hother : ¬ ((key = value ∧ q = pre) ∧ keep key) := by
    rintro ⟨⟨rfl, _⟩, hkept⟩
    exact hkeep hkept
  rw [or_and_right, or_iff_left hother]

end Kept

end XmlStore.Postings
