import Mathlib
import XmlStore.Proofs.TableViews

/-!
# Numbers of names

Names are numbered as they come.  The numbers and the names in use stand for one another, and they
go on doing so however many names come later.

* `Names.number?` — the number of a name, which is looked up before a name is added.
* `Names.Distinct` — the names in use are distinct, and none is empty; hence the two ways to look up
  are inverse to each other (`Names.Distinct.number?_eq_some_iff`).
* `Names.firstAppearances` — the names among those given, in order of first appearance.
* `Names.Numbering` — how a reader finds the names after they have been given in some order.
* `Names.Pool` — names with a table of their numbers; the table answers as a search does
  (`Names.Pool.agrees_internAll`).
* `Names.numbering_internAll` — names are numbered so after all calls.
-/

namespace XmlStore.Names

variable {names : Names} {name : Bytes} {n : Nat}

/-- The number of a name, if it is in use. -/
def number? (names : Names) (name : Bytes) : Option Nat :=
  (names.entries.findIdx? (· == name)).map (· + 1)

/-- Interning looks the name up, and adds it under the next number if it is not found. -/
theorem intern_eq (names : Names) (h : name ≠ []) :
    names.intern name =
      match names.number? name with
      | some n => (n, names)
      | none => (names.count + 1, ⟨names.entries.push name⟩) := by
  have hne : name.isEmpty = false := by simpa using h
  rw [intern, if_neg (by simp [hne]), number?]
  cases names.entries.findIdx? (· == name) <;> rfl

theorem number?_eq_none_iff : names.number? name = none ↔ name ∉ names.entries := by
  rw [number?, Option.map_eq_none_iff, Array.findIdx?_eq_none_iff]
  simp only [beq_eq_false_iff_ne]
  exact ⟨fun h hmem => h name hmem rfl, fun h new hnew heq => h (heq ▸ hnew)⟩

/-- Numbers 1 up to the count are in use, and no others. -/
theorem get?_eq_none_iff : names.get? n = none ↔ n = 0 ∨ names.count < n := by
  cases n with
  | zero => simp [get?]
  | succ i =>
    rw [get?, Array.getElem?_eq_none_iff, count]
    omega

theorem exists_get?_iff : (∃ n, names.get? n = some name) ↔ name ∈ names.entries := by
  rw [Array.mem_iff_getElem?]
  constructor
  · rintro ⟨n, hn⟩
    cases n with
    | zero => cases hn
    | succ i => exact ⟨i, hn⟩
  · rintro ⟨i, hi⟩
    exact ⟨i + 1, hi⟩

/-! ## Distinct names -/

/-- Names are in use once, and the empty name is not. -/
structure Distinct (names : Names) : Prop where
  proper : names.Proper
  nodup : names.entries.toList.Nodup

theorem distinct_empty : empty.Distinct :=
  ⟨fun _ h => absurd h (Array.not_mem_empty _), List.nodup_nil⟩

/-- **Looking up by name and by number are inverse to each other.** -/
theorem Distinct.number?_eq_some_iff (h : names.Distinct) :
    names.number? name = some n ↔ names.get? n = some name := by
  constructor
  · intro hn
    obtain ⟨i, hi, rfl⟩ := Option.map_eq_some_iff.1 hn
    obtain ⟨hlt, hname, _⟩ := Array.findIdx?_eq_some_iff_getElem.1 hi
    rw [get?, Array.getElem?_eq_getElem hlt, beq_iff_eq.1 hname]
  · intro hn
    cases n with
    | zero => cases hn
    | succ i =>
      obtain ⟨hlt, hname⟩ := Array.getElem?_eq_some_iff.1 hn
      refine Option.map_eq_some_iff.2 ⟨i, ?_, rfl⟩
      rw [Array.findIdx?_eq_some_iff_getElem]
      refine ⟨hlt, beq_iff_eq.2 hname, fun j hj heq => ?_⟩
      -- the name would be there twice
      have hj' : j < names.entries.toList.length := Nat.lt_trans hj hlt
      have hsame : names.entries.toList[j] = names.entries.toList[i] := by
        rw [Array.getElem_toList, Array.getElem_toList, beq_iff_eq.1 heq, hname]
      exact Nat.ne_of_lt hj ((List.Nodup.getElem_inj_iff h.nodup).1 hsame)

/-- A name in use keeps its number. -/
theorem Distinct.intern_eq (h : names.Distinct) (hn : names.get? n = some name) :
    names.intern name = (n, names) := by
  rw [names.intern_eq (h.proper.ne_nil hn), h.number?_eq_some_iff.2 hn]

/-- The names in use after a call: a new name stands at the end. -/
theorem entries_intern (names : Names) (name : Bytes) :
    (names.intern name).2.entries.toList =
      if name = [] ∨ name ∈ names.entries then names.entries.toList
      else names.entries.toList ++ [name] := by
  by_cases hname : name = []
  · rw [hname, intern_nil, if_pos (Or.inl rfl)]
  · rw [names.intern_eq hname]
    cases hnumber : names.number? name with
    | some n =>
      have hmem : name ∈ names.entries := Classical.not_not.1 fun hnew => by
        rw [number?_eq_none_iff.2 hnew] at hnumber
        cases hnumber
      rw [if_pos (Or.inr hmem)]
    | none =>
      rw [if_neg (not_or.2 ⟨hname, number?_eq_none_iff.1 hnumber⟩), Array.toList_push]

/-- **Interning keeps the names distinct.** -/
theorem Distinct.intern (h : names.Distinct) (name : Bytes) : (names.intern name).2.Distinct := by
  refine ⟨(names.intern_spec name).2.2 h.proper, ?_⟩
  rw [entries_intern]
  split
  · exact h.nodup
  · rename_i hnew
    refine List.nodup_append.2 ⟨h.nodup, List.nodup_singleton name, ?_⟩
    rintro old hold _ hlast rfl
    rw [List.mem_singleton.1 hlast, Array.mem_toList_iff] at hold
    exact hnew (Or.inr hold)

/-! ## Names that are given one after the other -/

/-- The names in use after a call for each of the given names. -/
def internAll (names : Names) (given : List Bytes) : Names :=
  given.foldl (fun known name => (known.intern name).2) names

theorem internAll_concat (names : Names) (given : List Bytes) (name : Bytes) :
    names.internAll (given ++ [name]) = ((names.internAll given).intern name).2 :=
  List.foldl_concat _ _ _ _

theorem Extends.trans {known older : Names} (h : names.Extends known) (h' : known.Extends older) :
    names.Extends older :=
  ⟨Nat.le_trans h'.count_le h.count_le, fun n hn =>
    (h.get?_eq n (Nat.le_trans hn h'.count_le)).trans (h'.get?_eq n hn)⟩

/-- **Numbers in use keep their names**, whatever names are given later. -/
theorem extends_internAll (names : Names) (given : List Bytes) :
    (names.internAll given).Extends names := by
  induction given using List.reverseRecOn with
  | nil => exact .refl names
  | append_singleton given name ih =>
    rw [internAll_concat]
    exact ((names.internAll given).extends_intern name).trans ih

theorem Distinct.internAll (h : names.Distinct) (given : List Bytes) :
    (names.internAll given).Distinct := by
  induction given using List.reverseRecOn with
  | nil => exact h
  | append_singleton given name ih =>
    rw [internAll_concat]
    exact ih.intern name

/-- The names among those given, without repetitions, in order of first appearance.  The empty name
is none. -/
def firstAppearances (given : List Bytes) : List Bytes :=
  (given.filter fun name => !name.isEmpty).eraseDups

theorem mem_firstAppearances {given : List Bytes} :
    name ∈ firstAppearances given ↔ name ∈ given ∧ name ≠ [] := by
  simp [firstAppearances]

theorem firstAppearances_concat (given : List Bytes) (name : Bytes) :
    firstAppearances (given ++ [name]) =
      if name = [] ∨ name ∈ firstAppearances given then firstAppearances given
      else firstAppearances given ++ [name] := by
  by_cases hname : name = []
  · simp [firstAppearances, hname]
  · have hfilter : [name].filter (fun name => !name.isEmpty) = [name] := by simp [hname]
    rw [firstAppearances, List.filter_append, hfilter, List.eraseDups_append]
    by_cases hmem : name ∈ given
    · have hold : name ∈ firstAppearances given := mem_firstAppearances.2 ⟨hmem, hname⟩
      rw [if_pos (Or.inr hold)]
      simp [List.removeAll, hmem, hname, firstAppearances]
    · have hnew : name ∉ firstAppearances given := fun h => hmem (mem_firstAppearances.1 h).1
      rw [if_neg (not_or.2 ⟨hname, hnew⟩)]
      simp [List.removeAll, hmem, firstAppearances, List.eraseDups_cons]

/-- **The names in use are those that were given, in order of first appearance.** -/
theorem entries_internAll (given : List Bytes) :
    (empty.internAll given).entries.toList = firstAppearances given := by
  induction given using List.reverseRecOn with
  | nil => rfl
  | append_singleton given name ih =>
    rw [internAll_concat, entries_intern, firstAppearances_concat, ← ih]
    simp only [Array.mem_toList_iff]

/-- How a reader finds the names that were given in some order. -/
structure Numbering (names : Names) (given : List Bytes) : Prop where
  /-- There are as many numbers as names that are not empty and not repeated. -/
  count : names.count = (firstAppearances given).length
  /-- The names stand behind the numbers from 1 on, in order of first appearance. -/
  get?_succ : ∀ i, names.get? (i + 1) = (firstAppearances given)[i]?
  /-- No other number has a name. -/
  get?_eq_none : ∀ n, names.get? n = none ↔ n = 0 ∨ names.count < n
  /-- The names that were given and the numbers in use correspond one to one, and interning a name
  again gives its number and changes nothing. -/
  get?_eq_some : ∀ n name, names.get? n = some name ↔
    (name ∈ given ∧ name ≠ []) ∧ names.intern name = (n, names)

theorem numbering (given : List Bytes) : (empty.internAll given).Numbering given where
  count := by rw [← entries_internAll, Array.length_toList]; rfl
  get?_succ i := by rw [← entries_internAll, Array.getElem?_toList]; rfl
  get?_eq_none _ := get?_eq_none_iff
  get?_eq_some n name := by
    have hdistinct : (empty.internAll given).Distinct := distinct_empty.internAll given
    rw [← mem_firstAppearances, ← entries_internAll, Array.mem_toList_iff, ← exists_get?_iff]
    constructor
    · intro hn
      exact ⟨⟨n, hn⟩, hdistinct.intern_eq hn⟩
    · rintro ⟨⟨m, hm⟩, hintern⟩
      rw [hdistinct.intern_eq hm] at hintern
      rw [← (Prod.mk.inj hintern).1, hm]

/-! ## A table of numbers beside the names -/

/-- Names with a table of their numbers, which saves the search. -/
structure Pool where
  names : Names
  numbers : Std.HashMap Bytes Nat

namespace Pool

variable {pool : Pool}

/-- No names yet. -/
def empty : Pool := ⟨.empty, ∅⟩

/-- The number of `name`, which is added to both parts if it is new. -/
def intern (pool : Pool) (name : Bytes) : Nat × Pool :=
  if name.isEmpty then (0, pool)
  else match pool.numbers[name]? with
    | some n => (n, pool)
    | none =>
      let n := pool.names.count + 1
      (n, ⟨⟨pool.names.entries.push name⟩, pool.numbers.insert name n⟩)

/-- The names in use after a call for each of the given names. -/
def internAll (pool : Pool) (given : List Bytes) : Pool :=
  given.foldl (fun known name => (known.intern name).2) pool

/-- The table holds the numbers that a search finds, and no others. -/
def Agrees (pool : Pool) : Prop := ∀ name, pool.numbers[name]? = pool.names.number? name

/-- One call adds to both parts, or to none. -/
theorem Agrees.intern (h : pool.Agrees) (name : Bytes) :
    ((pool.intern name).1, (pool.intern name).2.names) = pool.names.intern name ∧
      (pool.intern name).2.Agrees := by
  by_cases hname : name = []
  · subst hname
    exact ⟨rfl, h⟩
  have hne : name.isEmpty = false := by simpa using hname
  rw [pool.names.intern_eq hname, Pool.intern, if_neg (by simp [hne]), h name]
  cases hnumber : pool.names.number? name with
  | some n => exact ⟨rfl, h⟩
  | none =>
    refine ⟨rfl, fun other => ?_⟩
    rw [Std.HashMap.getElem?_insert, h other]
    by_cases hother : name = other
    · subst hother
      rw [number?, Option.map_eq_none_iff] at hnumber
      simp [number?, Array.findIdx?_push, hnumber, count]
    · simp [number?, Array.findIdx?_push, hother]

/-- **A table of numbers answers as a search does** after all calls. -/
theorem agrees_internAll (given : List Bytes) :
    (empty.internAll given).names = Names.empty.internAll given ∧
      (empty.internAll given).Agrees := by
  induction given using List.reverseRecOn with
  | nil =>
    refine ⟨rfl, fun name => ?_⟩
    have hnone : Names.empty.number? name = none := number?_eq_none_iff.2 (Array.not_mem_empty name)
    exact Std.HashMap.getElem?_empty.trans hnone.symm
  | append_singleton given name ih =>
    obtain ⟨hnames, hagrees⟩ := ih
    obtain ⟨hintern, hnext⟩ := hagrees.intern name
    have hcall : empty.internAll (given ++ [name]) = ((empty.internAll given).intern name).2 :=
      List.foldl_concat _ _ _ _
    rw [hcall, internAll_concat, ← hnames]
    exact ⟨congrArg Prod.snd hintern, hnext⟩

end Pool

/-- **Names and numbers stand for one another, for good.**  After any calls, numbers 1 up to the
count and the names given so far correspond one to one, in order of first appearance; a table of the
numbers that is kept beside the names is inverse to them, and gives the same numbers.  The next call
gives a number in use; from then on, whatever names come later, that name gets that number again and
is found under it.  The empty name has number 0 and changes nothing. -/
theorem numbering_internAll (given : List Bytes) :
    let names := empty.internAll given
    let pool := Pool.empty.internAll given
    names.Numbering given ∧
      (pool.names = names ∧ (∀ name, (pool.intern name).1 = (names.intern name).1) ∧
        ∀ name n, pool.numbers[name]? = some n ↔ names.get? n = some name) ∧
      names.intern [] = (0, names) ∧
      ∀ name ≠ [], ∀ later,
        let number := (names.intern name).1
        let known := (names.intern name).2
        number ≤ known.count ∧ known.get? number = some name ∧
          (known.internAll later).get? number = some name ∧
          (known.internAll later).intern name = (number, known.internAll later) := by
  intro names pool
  obtain ⟨hnames, hagrees⟩ : pool.names = names ∧ pool.Agrees := Pool.agrees_internAll given
  have hinverse : ∀ name n, pool.numbers[name]? = some n ↔ names.get? n = some name := by
    intro name n
    rw [hagrees name, hnames]
    exact (distinct_empty.internAll given).number?_eq_some_iff
  have hsame : ∀ name, (pool.intern name).1 = (names.intern name).1 := fun name =>
    hnames ▸ congrArg Prod.fst (hagrees.intern name).1
  refine ⟨numbering given, ⟨hnames, hsame, hinverse⟩, intern_nil names, fun name hname later => ?_⟩
  have hfound : (names.intern name).2.get? (names.intern name).1 = some name :=
    names.get?_intern hname
  have hused : (names.intern name).1 ≤ (names.intern name).2.count := (names.intern_spec name).2.1
  have hlater : ((names.intern name).2.internAll later).get? (names.intern name).1 = some name :=
    ((extends_internAll _ later).get?_eq _ hused).trans hfound
  have hdistinct : ((names.intern name).2.internAll later).Distinct :=
    ((distinct_empty.internAll given).intern name).internAll later
  exact ⟨hused, hfound, hlater, hdistinct.intern_eq hlater⟩

/-- A name is given a second time, and others come before and after. -/
theorem numbering_internAll_repeated :
    let names := empty.internAll [[0x62], [], [0x61], [0x62]]
    let later : List Bytes := [[0x64], [0x61], [0x63]]
    ([0x63] : Bytes) ≠ [] ∧ names.intern [0x63] = (3, ⟨#[[0x62], [0x61], [0x63]]⟩) ∧
      ((names.intern [0x63]).2.internAll later).entries = #[[0x62], [0x61], [0x63], [0x64]] ∧
      ((names.intern [0x63]).2.internAll later).get? 3 = some [0x63] := by
  have hname : ([0x63] : Bytes) ≠ [] := by decide
  have hintern : (empty.internAll [[0x62], [], [0x61], [0x62]]).intern [0x63] =
      (3, ⟨#[[0x62], [0x61], [0x63]]⟩) := by cbv
  obtain ⟨_, _, _, hstable⟩ := numbering_internAll [[0x62], [], [0x61], [0x62]]
  obtain ⟨_, _, hfound, _⟩ := hstable [0x63] hname [[0x64], [0x61], [0x63]]
  intro names later
  rw [hintern] at hfound ⊢
  exact ⟨hname, rfl, by cbv, hfound⟩

end XmlStore.Names
