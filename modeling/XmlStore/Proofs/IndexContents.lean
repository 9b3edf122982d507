import Mathlib.Data.List.Dedup
import Mathlib.Data.List.Induction
import XmlStore.Proofs.PostingContents

/-!
# The contents of built indexes

The postings of an index are a second form of the rows that carry values.  What they hold is said
here by the rows of the table alone; that the index counts and finds values as it should follows
from this.

An index can also be built by one walk over the table that puts each row into its postings when it
is visited.  What the postings hold after some rows is an invariant of this walk, and as postings
that hold the same are the same, the walk builds the same index.

* `Table.Carries`, `Table.carriers` — the rows with a value, of one kind.
* `Values.Holds` — the values within the length limit in one part, the longer ones in the other.
* `Values.Represents` — both parts together hold every row of a kind exactly once.
* `BuiltIndex.Represents` — so it is for the kinds that are indexed, and the others have no values.
* `Collected.visit` — one row of the walk; `Collected.holds_visitAll` — its invariant;
  `BuiltIndex.build_eq` — what the walk builds.
* `BuiltIndex.represents_ofTable` — the index of a table represents it.
-/

namespace XmlStore

/-- Whether the values of a kind are indexed. -/
def Options.indexes (options : Options) : ValueKind → Bool
  | .text => options.textIndex
  | .attribute => options.attrIndex

namespace Table

/-- The row at a position is of a kind and carries a value. -/
def Carries (t : Table) (kind : ValueKind) (value : Bytes) (pre : Nat) : Prop :=
  ∃ row, t.rows[pre]? = some row ∧ row.kind = kind.nodeKind ∧ row.value = value

instance (t : Table) (kind : ValueKind) (value : Bytes) (pre : Nat) :
    Decidable (t.Carries kind value pre) :=
  decidable_of_iff
    ((t.rows[pre]?.any fun row => row.kind == kind.nodeKind && row.value == value) = true) (by
      rw [Option.any_eq_true]
      simp only [Carries, Bool.and_eq_true, beq_iff_eq])

/-- The rows of a kind that carry a value, in document order. -/
def carriers (t : Table) (kind : ValueKind) (value : Bytes) : List Nat :=
  (List.range t.size).filter fun pre => decide (t.Carries kind value pre)

/-- The rows of a kind, in document order. -/
def ofKind (t : Table) (kind : ValueKind) : List Nat :=
  (List.range t.size).filter fun pre => t.rows[pre]?.any fun row => row.kind == kind.nodeKind

/-- The values of the rows of a kind, as often as they are carried. -/
def valuesOf (t : Table) (kind : ValueKind) : List Bytes :=
  (t.rows.toList.filter fun row => row.kind == kind.nodeKind).map Row.value

variable {t : Table} {kind : ValueKind} {value value' : Bytes} {pre : Nat}

theorem Carries.lt_size (h : t.Carries kind value pre) : pre < t.size := by
  obtain ⟨row, hrow, _⟩ := h
  exact (Array.getElem?_eq_some_iff.1 hrow).1

/-- A row has one value. -/
theorem Carries.unique (h : t.Carries kind value pre) (h' : t.Carries kind value' pre) :
    value = value' := by
  obtain ⟨row, hrow, _, rfl⟩ := h
  obtain ⟨row', hrow', _, rfl⟩ := h'
  rw [Option.some.inj (hrow.symm.trans hrow')]

theorem mem_carriers : pre ∈ t.carriers kind value ↔ t.Carries kind value pre := by
  rw [carriers, List.mem_filter, List.mem_range, decide_eq_true_eq]
  exact and_iff_right_of_imp Carries.lt_size

theorem pairwise_carriers (t : Table) (kind : ValueKind) (value : Bytes) :
    (t.carriers kind value).Pairwise (· < ·) :=
  List.pairwise_lt_range.sublist List.filter_sublist

theorem mem_ofKind : pre ∈ t.ofKind kind ↔ ∃ value, t.Carries kind value pre := by
  rw [ofKind, List.mem_filter, List.mem_range, Option.any_eq_true]
  constructor
  · rintro ⟨_, row, hrow, hkind⟩
    exact ⟨row.value, row, hrow, beq_iff_eq.1 hkind, rfl⟩
  · rintro ⟨value, h⟩
    have hlt := h.lt_size
    obtain ⟨row, hrow, hkind, _⟩ := h
    exact ⟨hlt, row, hrow, beq_iff_eq.2 hkind⟩

theorem nodup_ofKind (t : Table) (kind : ValueKind) : (t.ofKind kind).Nodup :=
  List.nodup_range.sublist List.filter_sublist

theorem mem_valuesOf : value ∈ t.valuesOf kind ↔ ∃ pre, t.Carries kind value pre := by
  rw [valuesOf, List.mem_map]
  constructor
  · rintro ⟨row, hrow, rfl⟩
    obtain ⟨hmem, hkind⟩ := List.mem_filter.1 hrow
    obtain ⟨pre, hpre⟩ := List.mem_iff_getElem?.1 hmem
    exact ⟨pre, row, Array.getElem?_toList ▸ hpre, beq_iff_eq.1 hkind, rfl⟩
  · rintro ⟨pre, row, hrow, hkind, hvalue⟩
    have hmem : row ∈ t.rows.toList := Array.mem_toList_iff.2 (Array.mem_of_getElem? hrow)
    exact ⟨row, List.mem_filter.2 ⟨hmem, beq_iff_eq.2 hkind⟩, hvalue⟩

end Table

/-! ## What an index holds -/

/-- Both parts of the values of a kind hold the positions for which `held` is true: one part under
values within the length limit, the other under longer ones. -/
structure Values.Holds (v : Values) (maxLength : Nat) (held : Bytes → Nat → Prop) : Prop where
  short : v.short.Holds fun value pre => held value pre ∧ value.length ≤ maxLength
  long : v.long.Holds fun value pre => held value pre ∧ maxLength < value.length

/-- The indexed values of a kind represent the rows of a table. -/
structure Values.Represents (v : Values) (t : Table) (kind : ValueKind) (maxLength : Nat) :
    Prop where
  /-- Both parts together hold every row of the kind exactly once, and no other row. -/
  once : (v.short.positions ++ v.long.positions).Perm (t.ofKind kind)
  /-- Each row is there under the value that it carries. -/
  holds : v.Holds maxLength (t.Carries kind)

namespace Values

variable {v v' : Values} {maxLength : Nat} {held : Bytes → Nat → Prop}

theorem Holds.eq (h : v.Holds maxLength held) (h' : v'.Holds maxLength held) : v = v' := by
  obtain ⟨short, long⟩ := v
  obtain ⟨short', long'⟩ := v'
  rw [show short = short' from h.short.eq h'.short, show long = long' from h.long.eq h'.long]

theorem Holds.congr (h : v.Holds maxLength held) {held' : Bytes → Nat → Prop}
    (hiff : ∀ value pre, held value pre ↔ held' value pre) : v.Holds maxLength held' where
  short := h.short.congr fun value pre => and_congr_left' (hiff value pre)
  long := h.long.congr fun value pre => and_congr_left' (hiff value pre)

theorem holds_ofTable (t : Table) (kind : ValueKind) (maxLength : Nat) :
    (ofTable t kind maxLength).Holds maxLength (t.Carries kind) := by
  have hpart : ∀ keep : Bytes → Bool,
      (Postings.ofPairs ((t.valuePairs kind).filter fun pair => keep pair.1)).Holds
        fun value pre => t.Carries kind value pre ∧ keep value = true := by
    intro keep
    refine (Postings.holds_ofPairs ((t.pairwise_valuePairs kind).sublist
      List.filter_sublist)).congr fun value pre => ?_
    rw [List.mem_filter, Table.mem_valuePairs]
    rfl
  rw [ofTable, List.partition_eq_filter_filter]
  refine ⟨(hpart fun value => decide (value.length ≤ maxLength)).congr ?_,
    (hpart fun value => !decide (value.length ≤ maxLength)).congr ?_⟩
  · simp
  · simp

/-- **Values that hold the rows of a kind represent them**: a row has one value, hence it is in one
of the parts, and there once. -/
theorem Holds.represents {t : Table} {kind : ValueKind}
    (h : v.Holds maxLength (t.Carries kind)) : v.Represents t kind maxLength := by
  refine ⟨?_, h⟩
  have hnodup : (v.short.positions ++ v.long.positions).Nodup := by
    refine List.nodup_append.2 ⟨h.short.nodup_positions fun ha hb => ha.1.unique hb.1,
      h.long.nodup_positions fun ha hb => ha.1.unique hb.1, ?_⟩
    rintro pre hpre _ hpre' rfl
    obtain ⟨value, hcarries, hle⟩ := h.short.mem_positions.1 hpre
    obtain ⟨value', hcarries', hlt⟩ := h.long.mem_positions.1 hpre'
    rw [hcarries.unique hcarries'] at hle
    exact Nat.not_le.2 hlt hle
  refine (List.perm_ext_iff_of_nodup hnodup (t.nodup_ofKind kind)).2 fun pre => ?_
  rw [List.mem_append, h.short.mem_positions, h.long.mem_positions, Table.mem_ofKind, ← exists_or]
  refine exists_congr fun value => ?_
  rw [← and_or_left, and_iff_left (Nat.lt_or_ge maxLength value.length).symm]

/-- **There are as many short values as the rows carry different ones.** -/
theorem Represents.length_short {t : Table} {kind : ValueKind}
    (h : v.Represents t kind maxLength) :
    v.short.length =
      ((t.valuesOf kind).filter fun value => decide (value.length ≤ maxLength)).dedup.length := by
  have hshort := h.holds.short
  have hnodup : (v.short.map Prod.fst).Nodup :=
    List.pairwise_map.2 <| hshort.values.imp fun {a b} hlt (heq : a.1 = b.1) =>
      List.lt_irrefl b.1 (heq ▸ hlt)
  have hperm : (v.short.map Prod.fst).Perm
      ((t.valuesOf kind).filter fun value => decide (value.length ≤ maxLength)).dedup := by
    refine (List.perm_ext_iff_of_nodup hnodup (List.nodup_dedup _)).2 fun value => ?_
    rw [List.mem_dedup, List.mem_filter, decide_eq_true_eq, Table.mem_valuesOf, List.mem_map]
    constructor
    · rintro ⟨entry, hentry, rfl⟩
      obtain ⟨pre, hpre⟩ := List.exists_mem_of_ne_nil _ (hshort.nonempty entry hentry)
      obtain ⟨hcarries, hle⟩ := (hshort.iff entry.1 pre).1 ⟨entry.2, hentry, hpre⟩
      exact ⟨⟨pre, hcarries⟩, hle⟩
    · rintro ⟨⟨pre, hcarries⟩, hle⟩
      obtain ⟨pres, hmem, _⟩ := (hshort.iff value pre).2 ⟨hcarries, hle⟩
      exact ⟨(value, pres), hmem, rfl⟩
  rw [← hperm.length_eq, List.length_map]

/-- **A value is found with the rows that carry it**, unless it is too long. -/
theorem Represents.find_short {t : Table} {kind : ValueKind}
    (h : v.Represents t kind maxLength) (value : Bytes) :
    v.short.find value = if value.length ≤ maxLength then t.carriers kind value else [] := by
  split
  · rename_i hle
    refine (h.holds.short.pairwise_find value).eq_of_mem_iff (t.pairwise_carriers kind value)
      fun pre => ?_
    rw [h.holds.short.mem_find, and_iff_left hle, Table.mem_carriers]
  · rename_i hlong
    refine List.eq_nil_iff_forall_not_mem.2 fun pre hpre => ?_
    exact hlong (h.holds.short.mem_find.1 hpre).2

/-- Values with one more position; longer ones are kept apart. -/
def add (maxLength : Nat) (v : Values) (value : Bytes) (pre : Nat) : Values :=
  if maxLength < value.length then { v with long := v.long.add value pre }
  else { v with short := v.short.add value pre }

/-- **One more position** is in one part, and the other part stays as it is. -/
theorem Holds.add (h : v.Holds maxLength held) (value : Bytes) {pre : Nat}
    (hlast : ∀ {key q}, held key q → q < pre) :
    (v.add maxLength value pre).Holds maxLength fun key q =>
      held key q ∨ (key = value ∧ q = pre) := by
  rw [Values.add]
  split
  · rename_i hlong
    exact ⟨h.short.of_not_kept (Nat.not_le.2 hlong), h.long.add_kept hlong hlast⟩
  · rename_i hshort
    exact ⟨h.short.add_kept (Nat.not_lt.1 hshort) hlast, h.long.of_not_kept hshort⟩

end Values

/-! ## A walk over the table -/

/-- The values of both kinds, as far as the rows of a table have been visited. -/
structure Collected where
  texts : Values := ⟨[], []⟩
  attributes : Values := ⟨[], []⟩

namespace Collected

variable {options : Options} {kind : ValueKind}

/-- The values of a kind. -/
def values (c : Collected) : ValueKind → Values
  | .text => c.texts
  | .attribute => c.attributes

/-- Visits a row.  Its value is collected if values of this kind are indexed. -/
def visit (options : Options) (c : Collected) (entry : Row × Nat) : Collected :=
  let (row, pre) := entry
  let maxLength := options.maxLength.toNat
  match row.kind with
  | .text =>
    if options.textIndex then { c with texts := c.texts.add maxLength row.value pre } else c
  | .attribute =>
    if options.attrIndex then { c with attributes := c.attributes.add maxLength row.value pre }
    else c
  | _ => c

/-- Visits some rows one after the other. -/
def visitAll (options : Options) (rows : List (Row × Nat)) : Collected :=
  rows.foldl (visit options) {}

theorem values_visit (h : options.indexes kind = true) (c : Collected) (row : Row) (pre : Nat) :
    (c.visit options (row, pre)).values kind =
      if row.kind = kind.nodeKind then
        (c.values kind).add options.maxLength.toNat row.value pre
      else c.values kind := by
  rw [visit]
  rcases kind with _ | _
  · have h : options.textIndex = true := h
    cases hrow : row.kind <;> simp [values, h, ValueKind.nodeKind, apply_ite Collected.texts]
  · have h : options.attrIndex = true := h
    cases hrow : row.kind <;> simp [values, h, ValueKind.nodeKind, apply_ite Collected.attributes]

/-- **What is collected after some rows**: the rows of the kind among them, each under its value.
The induction appends a row, whose position is greater than all before it. -/
theorem holds_visitAll (h : options.indexes kind = true) {rows : List (Row × Nat)}
    (hrows : rows.Pairwise fun a b => a.2 < b.2) :
    ((visitAll options rows).values kind).Holds options.maxLength.toNat fun value pre =>
      ∃ row, (row, pre) ∈ rows ∧ row.kind = kind.nodeKind ∧ row.value = value := by
  induction rows using List.reverseRecOn with
  | nil =>
    have hvalues : (visitAll options []).values kind = ⟨[], []⟩ := by cases kind <;> rfl
    rw [hvalues]
    exact ⟨Postings.holds_nil (by simp), Postings.holds_nil (by simp)⟩
  | append_singleton rows entry ih =>
    obtain ⟨row, pre⟩ := entry
    obtain ⟨hbefore, _, hlast⟩ := List.pairwise_append.1 hrows
    have hwalk : visitAll options (rows ++ [(row, pre)]) =
        (visitAll options rows).visit options (row, pre) := List.foldl_concat _ _ _ _
    rw [hwalk, values_visit h]
    split
    · rename_i hkind
      have hadd := (ih hbefore).add row.value fun ⟨_, hearlier, _⟩ =>
        hlast _ hearlier _ List.mem_cons_self
      refine hadd.congr fun value q => ?_
      simp only [List.mem_append, List.mem_singleton, Prod.mk.injEq]
      constructor
      · rintro (⟨earlier, hearlier, hsame⟩ | ⟨rfl, rfl⟩)
        · exact ⟨earlier, Or.inl hearlier, hsame⟩
        · exact ⟨row, Or.inr ⟨rfl, rfl⟩, hkind, rfl⟩
      · rintro ⟨other, hother | ⟨rfl, rfl⟩, hsame⟩
        · exact Or.inl ⟨other, hother, hsame⟩
        · exact Or.inr ⟨hsame.2.symm, rfl⟩
    · rename_i hkind
      refine (ih hbefore).congr fun value q => ?_
      simp only [List.mem_append, List.mem_singleton, Prod.mk.injEq]
      constructor
      · rintro ⟨earlier, hearlier, hsame⟩
        exact ⟨earlier, Or.inl hearlier, hsame⟩
      · rintro ⟨other, hother | ⟨rfl, rfl⟩, hsame⟩
        · exact ⟨other, hother, hsame⟩
        · exact absurd hsame.1 hkind

end Collected

namespace BuiltIndex

variable {index : BuiltIndex} {t : Table} {options : Options} {kind : ValueKind}

/-- The index of a table, built by one walk over its rows. -/
def build (t : Table) (options : Options) : BuiltIndex :=
  let collected := Collected.visitAll options t.rows.toList.zipIdx
  { texts := if options.textIndex then some collected.texts else none
    attributes := if options.attrIndex then some collected.attributes else none
    maxLength := options.maxLength.toNat }

/-- **A walk over the table builds its index.** -/
theorem build_eq (t : Table) (options : Options) : build t options = ofTable t options := by
  have hvalues : ∀ kind, options.indexes kind = true →
      (Collected.visitAll options t.rows.toList.zipIdx).values kind =
        Values.ofTable t kind options.maxLength.toNat := by
    intro kind h
    refine Values.Holds.eq ?_ (Values.holds_ofTable t kind _)
    refine (Collected.holds_visitAll h (pairwise_zipIdx _)).congr fun value pre => ?_
    simp only [List.mk_mem_zipIdx_iff_getElem?, Array.getElem?_toList]
    rfl
  have htexts := hvalues .text
  have hattributes := hvalues .attribute
  simp only [Options.indexes, Collected.values] at htexts hattributes
  simp only [build, ofTable]
  congr 1
  · split
    · rw [htexts ‹_›]
    · rfl
  · split
    · rw [hattributes ‹_›]
    · rfl

/-- An index represents a table under some options. -/
structure Represents (index : BuiltIndex) (t : Table) (options : Options) : Prop where
  maxLength : index.maxLength = options.maxLength.toNat
  /-- The rows of the kinds that are indexed are there. -/
  enabled : ∀ kind, options.indexes kind = true →
    ∃ values, index.values? kind = some values ∧
      values.Represents t kind options.maxLength.toNat
  /-- Those of the other kinds are not. -/
  disabled : ∀ kind, options.indexes kind = false → index.values? kind = none

theorem represents (t : Table) (options : Options) : (ofTable t options).Represents t options := by
  have hvalues : ∀ kind, (ofTable t options).values? kind =
      if options.indexes kind then some (Values.ofTable t kind options.maxLength.toNat)
      else none := fun kind => by cases kind <;> rfl
  refine ⟨rfl, fun kind h => ⟨_, ?_, (Values.holds_ofTable t kind _).represents⟩, fun kind h => ?_⟩
  · rw [hvalues, if_pos h]
  · rw [hvalues, if_neg (by simp [h])]

/-- **Distinct values are counted**, as far as exact lookups can find them. -/
theorem Represents.keyCount_eq (h : index.Represents t options) (kind : ValueKind) :
    index.keyCount kind =
      if options.indexes kind then
        ((t.valuesOf kind).filter fun value =>
          decide (value.length ≤ options.maxLength.toNat)).dedup.length
      else 0 := by
  cases hkind : options.indexes kind with
  | true =>
    obtain ⟨values, hvalues, hrepresents⟩ := h.enabled kind hkind
    rw [keyCount, hvalues, if_pos rfl]
    exact hrepresents.length_short
  | false => rw [keyCount, h.disabled kind hkind, if_neg (by simp)]

/-- **Exact lookups find the rows that carry a value**, unless the value is too long. -/
theorem Represents.exact_eq (h : index.Represents t options) (kind : ValueKind) (value : Bytes) :
    index.toValueIndex.exact kind value =
      if options.indexes kind ∧ value.length ≤ options.maxLength.toNat then
        (t.carriers kind value).map fun pre => { pre }
      else [] := by
  cases hkind : options.indexes kind with
  | true =>
    obtain ⟨values, hvalues, hrepresents⟩ := h.enabled kind hkind
    simp only [toValueIndex, hvalues, true_and, hrepresents.find_short]
    split
    · rfl
    · rfl
  | false => simp [toValueIndex, h.disabled kind hkind]

/-- **The index of a table represents it**, and one walk over the rows builds it.  For each kind
that is indexed, the short and the long values together hold every row of the kind exactly once,
under the value that the row carries, and nothing else; no value is without positions, and positions
ascend.  A kind that is not indexed has no values.  Hence the keys are the distinct values within
the length limit, and an exact lookup finds the rows that carry its value in document order, or
nothing if the value is longer. -/
theorem represents_ofTable (t : Table) (options : Options) :
    let index := ofTable t options
    build t options = index ∧ index.Represents t options ∧
      (∀ kind, index.keyCount kind =
        if options.indexes kind then
          ((t.valuesOf kind).filter fun value =>
            decide (value.length ≤ options.maxLength.toNat)).dedup.length
        else 0) ∧
      ∀ kind value, index.toValueIndex.exact kind value =
        if options.indexes kind ∧ value.length ≤ options.maxLength.toNat then
          (t.carriers kind value).map fun pre => { pre }
        else [] :=
  ⟨build_eq t options, represents t options, (represents t options).keyCount_eq,
    (represents t options).exact_eq⟩

end BuiltIndex

end XmlStore
