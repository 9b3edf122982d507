import XmlStore.Host.Decode

/-!
# Queries and fragments as terms

The host writes queries and fragments as terms of a documented form.

* `Query.toTerm`, `Fragment.toTerm` — the documented forms; `Query.Writable` says which queries have
  one.
* `Term.eq_list_of_toList`, `Term.toList_eq_broken_iff` — a list is read exactly if it has a proper
  end and its items were written; it breaks off at its end, or in the first item that cannot be
  read.
* `Term.toPre_eq_ok_iff`, `Term.attribute_eq_ok_iff` — the same of the items that are no terms of
  queries or fragments themselves.
-/

namespace XmlStore

/-! ## Writing -/

namespace Term

/-- A bound of a range: the value, or the absent value. -/
def ofBound : Option Bytes → Term
  | none => nil
  | some value => binary value

end Term

open Term (atom binary tuple)

/-- A lookup: the kind of its nodes, and a value or an interval of values. -/
def Lookup.toTerm : Lookup → Term
  | exact .text value => tuple [atom "text", binary value]
  | exact .attribute value => tuple [atom "attribute", binary value]
  | range i =>
    tuple [atom (match i.kind with | .text => "text_range" | .attribute => "attribute_range"),
      .ofBound i.min, .ofBound i.max, .ofBool i.minIncluded, .ofBool i.maxIncluded]

mutual

/-- The term of a query. -/
def Query.toTerm : Query → Term
  | .empty => atom "empty"
  | .lookup l => l.toTerm
  | .nodes pres => tuple [atom "nodes", .list (pres.map .ofNat)]
  | .set op operands => tuple [atom op.name, .list (Query.toTerms operands)]

/-- The terms of several queries. -/
def Query.toTerms : List Query → List Term
  | [] => []
  | q :: rest => q.toTerm :: Query.toTerms rest

end

/-- Queries that have a term: positions are integers of 32 bits. -/
inductive Query.Writable : Query → Prop where
  | empty : Writable empty
  | lookup (l : Lookup) : Writable (lookup l)
  | nodes {pres : List Nat} : (∀ pre ∈ pres, pre < UInt32.size) → Writable (nodes pres)
  | set (op : SetOp) {operands : List Query} :
      (∀ q ∈ operands, Writable q) → Writable (set op operands)

/-- The term of an attribute. -/
def Fragment.attributeTerm (a : Bytes × Bytes) : Term := tuple [binary a.1, binary a.2]

mutual

/-- The term of a fragment. -/
def Fragment.toTerm : Fragment → Term
  | .element name attributes children =>
    tuple [binary name, .list (attributes.map Fragment.attributeTerm),
      .list (Fragment.toTerms children)]
  | .text value => binary value
  | .comment value => tuple [atom "comment", binary value]
  | .instruction target data => tuple [atom "pi", binary target, binary data]

/-- The terms of several fragments. -/
def Fragment.toTerms : List Fragment → List Term
  | [] => []
  | f :: rest => f.toTerm :: Fragment.toTerms rest

end

theorem Query.toTerms_eq (qs : List Query) : toTerms qs = qs.map toTerm := by
  induction qs with
  | nil => rfl
  | cons q rest ih => rw [toTerms, ih, List.map_cons]

theorem Fragment.toTerms_eq (fs : List Fragment) : toTerms fs = fs.map toTerm := by
  induction fs with
  | nil => rfl
  | cons f rest ih => rw [toTerms, ih, List.map_cons]

/-! ## Lists -/

namespace Term

/-- A list with these items, whether or not it has a proper end. -/
def HasItems (items : List Term) (t : Term) : Prop :=
  t = list items ∨ ∃ tail, t = improper items tail

theorem sizeOf_lt_of_hasItems {items : List Term} {t item : Term} (h : HasItems items t)
    (hitem : item ∈ items) : sizeOf item < sizeOf t := by
  have hlt := List.sizeOf_lt_of_mem hitem
  obtain rfl | ⟨tail, rfl⟩ := h
  · rw [list.sizeOf_spec]
    omega
  · rw [improper.sizeOf_spec]
    omega

section Lists

variable {α : Type} {read : Term → Except Host.Refusal α} {write : α → Term} {valid : α → Prop}

/-- Items that were written are read back. -/
theorem mapM_map_write {as : List α} (h : ∀ a ∈ as, read (write a) = .ok a) :
    (as.map write).mapM read = .ok as := by
  induction as with
  | nil => rfl
  | cons a rest ih =>
    obtain ⟨hfirst, hrest⟩ := List.forall_mem_cons.1 h
    rw [List.map_cons, List.mapM_cons, hfirst, ih hrest]
    rfl

/-- Items that are read were written. -/
theorem eq_map_write {items : List Term} {as : List α} (hread : items.mapM read = .ok as)
    (h : ∀ a ∈ as, ∀ t, read t = .ok a → t = write a ∧ valid a) :
    items = as.map write ∧ ∀ a ∈ as, valid a := by
  induction items generalizing as with
  | nil =>
    obtain rfl := Except.ok.inj hread
    exact ⟨rfl, fun a ha => absurd ha List.not_mem_nil⟩
  | cons t rest ih =>
    rw [List.mapM_cons] at hread
    cases hfirst : read t with
    | error e => rw [hfirst] at hread; cases hread
    | ok a =>
      cases hrest : rest.mapM read with
      | error e => rw [hfirst, hrest] at hread; cases hread
      | ok others =>
        rw [hfirst, hrest] at hread
        obtain rfl := Except.ok.inj hread
        obtain ⟨ha, hothers⟩ := List.forall_mem_cons.1 h
        obtain ⟨rfl, hvalid⟩ := ha t hfirst
        obtain ⟨rfl, hvalids⟩ := ih hrest hothers
        exact ⟨rfl, List.forall_mem_cons.2 ⟨hvalid, hvalids⟩⟩

/-- The first item that cannot be read decides, behind others that were written. -/
theorem mapM_eq_error_iff (h : ∀ t a, read t = .ok a ↔ t = write a ∧ valid a) {items : List Term}
    {e : Host.Refusal} :
    items.mapM read = .error e ↔ ∃ (as : List α) (t : Term) (rest : List Term),
      (∀ a ∈ as, valid a) ∧ read t = .error e ∧ items = as.map write ++ t :: rest := by
  constructor
  · intro hread
    induction items with
    | nil => cases hread
    | cons t rest ih =>
      rw [List.mapM_cons] at hread
      cases hfirst : read t with
      | error e' =>
        rw [hfirst] at hread
        obtain rfl := Except.error.inj hread
        exact ⟨[], t, rest, fun a ha => absurd ha List.not_mem_nil, hfirst, rfl⟩
      | ok a =>
        cases hrest : rest.mapM read with
        | ok others => rw [hfirst, hrest] at hread; cases hread
        | error e' =>
          rw [hfirst, hrest] at hread
          obtain rfl := Except.error.inj hread
          obtain ⟨as, bad, behind, hvalid, hbad, rfl⟩ := ih hrest
          obtain ⟨rfl, ha⟩ := (h t a).1 hfirst
          exact ⟨a :: as, bad, behind, List.forall_mem_cons.2 ⟨ha, hvalid⟩, hbad, rfl⟩
  · rintro ⟨as, t, rest, hvalid, hbad, rfl⟩
    have hread := mapM_map_write fun a ha => (h (write a) a).2 ⟨rfl, hvalid a ha⟩
    rw [List.mapM_append, hread, List.mapM_cons, hbad]
    rfl

/-- **A list is read exactly if it is proper and its items were written.** -/
theorem eq_list_of_toList {t : Term} {as : List α} (hread : t.toList read = .ok as)
    (h : ∀ a ∈ as, ∀ t, read t = .ok a → t = write a ∧ valid a) :
    t = list (as.map write) ∧ ∀ a ∈ as, valid a := by
  cases t with
  | list items =>
    obtain ⟨rfl, hvalid⟩ := eq_map_write hread h
    exact ⟨rfl, hvalid⟩
  | improper items tail =>
    rw [toList] at hread
    cases hitems : items.mapM read with
    | error e => rw [hitems] at hread; cases hread
    | ok => rw [hitems] at hread; cases hread
  | _ => cases hread

/-- How a list can break off: at its end, if all its items can be read, or in the first one that
cannot. -/
def ListBreaks (read : Term → Except Host.Refusal α) (write : α → Term) (valid : α → Prop)
    (t : Term) : Prop :=
  ∃ as : List α, (∀ a ∈ as, valid a) ∧ ((∃ tail, t = improper (as.map write) tail) ∨
    ∃ bad rest, read bad = .error .brokenList ∧ HasItems (as.map write ++ bad :: rest) t)

/-- **A list breaks off** at its end, or in an item. -/
theorem toList_eq_broken_iff (h : ∀ t a, read t = .ok a ↔ t = write a ∧ valid a) {t : Term} :
    t.toList read = .error .brokenList ↔ ListBreaks read write valid t := by
  constructor
  · intro hread
    cases t with
    | list items =>
      obtain ⟨as, bad, rest, hvalid, hbad, rfl⟩ := (mapM_eq_error_iff h).1 hread
      exact ⟨as, hvalid, Or.inr ⟨bad, rest, hbad, Or.inl rfl⟩⟩
    | improper items tail =>
      rw [toList] at hread
      cases hitems : items.mapM read with
      | ok as =>
        obtain ⟨rfl, hvalid⟩ := eq_map_write hitems fun a _ t => (h t a).1
        exact ⟨as, hvalid, Or.inl ⟨tail, rfl⟩⟩
      | error e =>
        rw [hitems] at hread
        obtain rfl := Except.error.inj hread
        obtain ⟨as, bad, rest, hvalid, hbad, rfl⟩ := (mapM_eq_error_iff h).1 hitems
        exact ⟨as, hvalid, Or.inr ⟨bad, rest, hbad, Or.inr ⟨tail, rfl⟩⟩⟩
    | _ => cases hread
  · rintro ⟨as, hvalid, ⟨tail, rfl⟩ | ⟨bad, rest, hbad, hitems⟩⟩
    · rw [toList, mapM_map_write fun a ha => (h (write a) a).2 ⟨rfl, hvalid a ha⟩]
      rfl
    · have hread := (mapM_eq_error_iff h).2 ⟨as, bad, rest, hvalid, hbad, rfl⟩
      obtain rfl | ⟨tail, rfl⟩ := hitems
      · exact hread
      · rw [toList, hread]
        rfl

end Lists

/-! ## Positions, values and attributes -/

theorem toPre_eq_ok_iff (t : Term) (pre : Nat) :
    t.toPre = .ok pre ↔ t = ofNat pre ∧ pre < UInt32.size := by
  constructor
  · intro h
    unfold toPre at h
    split at h
    · rename_i n
      split at h
      · rename_i hrange
        obtain rfl := Except.ok.inj h
        exact ⟨congrArg integer (Int.toNat_of_nonneg hrange.1).symm, hrange.2⟩
      · cases h
    · cases h
  · rintro ⟨rfl, hlt⟩
    exact if_pos ⟨Int.natCast_nonneg pre, hlt⟩

theorem toPre_ne_broken (t : Term) : t.toPre ≠ .error .brokenList := by
  unfold toPre
  split
  · split <;> rintro ⟨⟩
  · rintro ⟨⟩

theorem toBytes_eq_ok_iff (t : Term) (value : Bytes) :
    t.toBytes = .ok value ↔ t = binary value := by
  constructor
  · intro h
    unfold toBytes at h
    split at h
    · rw [Except.ok.inj h]
    · cases h
  · rintro rfl
    rfl

theorem toBytes_eq_error {t : Term} {e : Host.Refusal} (h : t.toBytes = .error e) :
    e = .badArgument := by
  unfold toBytes at h
  split at h
  · cases h
  · exact (Except.error.inj h).symm

theorem attribute_eq_ok_iff (t : Term) (a : Bytes × Bytes) :
    toPair toBytes toBytes t = .ok a ↔ t = Fragment.attributeTerm a ∧ True := by
  rw [and_true]
  constructor
  · intro h
    unfold toPair at h
    split at h
    · rename_i name value
      cases hname : name.toBytes with
      | error e => rw [hname] at h; cases h
      | ok nameBytes =>
        cases hvalue : value.toBytes with
        | error e => rw [hname, hvalue] at h; cases h
        | ok valueBytes =>
          rw [hname, hvalue] at h
          obtain rfl := Except.ok.inj h
          rw [(toBytes_eq_ok_iff ..).1 hname, (toBytes_eq_ok_iff ..).1 hvalue]
          rfl
    · cases h
  · rintro rfl
    rfl

theorem attribute_ne_broken (t : Term) : toPair toBytes toBytes t ≠ .error .brokenList := by
  unfold toPair
  split
  · rename_i name value
    cases hname : name.toBytes with
    | error e =>
      obtain rfl := toBytes_eq_error hname
      rintro ⟨⟩
    | ok nameBytes =>
      cases hvalue : value.toBytes with
      | error e =>
        obtain rfl := toBytes_eq_error hvalue
        rintro ⟨⟩
      | ok valueBytes => rintro ⟨⟩
  · rintro ⟨⟩

end Term

end XmlStore
