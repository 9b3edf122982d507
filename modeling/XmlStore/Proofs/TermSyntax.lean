import XmlStore.Proofs.WrittenTerms

/-!
# The syntax of queries and fragments

Reading a term is the inverse of writing it, and every term that was not written is refused.

* `Term.QueryForm`, `Term.FragmentForm` — what a single step of reading makes of a term.
* `Term.BreaksQuery`, `Term.BreaksFragment` — terms in which the first defect that is met is a list
  without a proper end.  Members of tuples and items of lists are met from left to right, except
  that the attributes of an element are met before its name.
* `Term.ReadsExactly` — reading gives what was written and nothing else, a term that breaks off is
  refused as such, and any other term as a bad argument; `Term.reads_exactly` says so of queries and
  of fragments.
-/

namespace XmlStore

namespace Term

/-! ## One step of reading -/

/-- What reading a query makes of a term, its lists being read. -/
inductive QueryForm : Term → Except Host.Refusal Query → Prop where
  | empty : QueryForm (atom "empty") (.ok .empty)
  | lookup (l : Lookup) : QueryForm l.toTerm (.ok (.lookup l))
  | nodes {listed : Term} {pres : List Nat} : listed.toList toPre = .ok pres →
      QueryForm (tuple [atom "nodes", listed]) (.ok (.nodes pres))
  | set (op : SetOp) {operands : Term} {qs : List Query} : operands.toList toQuery = .ok qs →
      QueryForm (tuple [atom op.name, operands]) (.ok (.set op qs))
  | nodesBreak {listed : Term} : listed.toList toPre = .error .brokenList →
      QueryForm (tuple [atom "nodes", listed]) (.error .brokenList)
  | setBreaks (op : SetOp) {operands : Term} : operands.toList toQuery = .error .brokenList →
      QueryForm (tuple [atom op.name, operands]) (.error .brokenList)
  | other (t : Term) : QueryForm t (.error .badArgument)

theorem toQueries_eq (t : Term) : t.toQueries = t.toList toQuery := by
  have hitems : ∀ items : List Term, toQueryItems items = items.mapM toQuery := by
    intro items
    induction items with
    | nil => rfl
    | cons t rest ih => rw [toQueryItems, ih, List.mapM_cons]; rfl
  cases t with
  | list items => exact hitems items
  | improper items tail => rw [toQueries, toList, hitems]
  | _ => rfl

theorem operator?_eq_some {tag : String} {op : SetOp} (h : operator? tag = some op) :
    tag = op.name := by
  unfold operator? at h
  split at h <;> cases h <;> rfl

theorem toBound_cases (t : Term) :
    (∃ bound, t = ofBound bound ∧ t.toBound = .ok bound) ∨ t.toBound = .error .badArgument := by
  unfold toBound
  split
  · exact Or.inl ⟨none, rfl, rfl⟩
  · cases hvalue : t.toBytes with
    | error e =>
      obtain rfl := toBytes_eq_error hvalue
      exact Or.inr rfl
    | ok value => exact Or.inl ⟨some value, (toBytes_eq_ok_iff ..).1 hvalue, rfl⟩

theorem toBool_cases (t : Term) :
    (∃ b, t = ofBool b ∧ t.toBool = .ok b) ∨ t.toBool = .error .badArgument := by
  unfold toBool
  split
  · exact Or.inl ⟨true, rfl, rfl⟩
  · exact Or.inl ⟨false, rfl, rfl⟩
  · exact Or.inr rfl

/-- An interval is read from its ends and from what is said of them, or refused. -/
theorem toInterval_cases (kind : ValueKind) (min max minIncluded maxIncluded : Term) :
    (∃ i : Interval, i.kind = kind ∧ min = ofBound i.min ∧ max = ofBound i.max ∧
        minIncluded = ofBool i.minIncluded ∧ maxIncluded = ofBool i.maxIncluded ∧
        toInterval kind min max minIncluded maxIncluded = .ok i) ∨
      toInterval kind min max minIncluded maxIncluded = .error .badArgument := by
  unfold toInterval
  obtain ⟨low, hmin, hlow⟩ | hlow := toBound_cases min <;> rw [hlow]
  · obtain ⟨high, hmax, hhigh⟩ | hhigh := toBound_cases max <;> rw [hhigh]
    · obtain ⟨a, ha, hfirst⟩ | hfirst := toBool_cases minIncluded <;> rw [hfirst]
      · obtain ⟨b, hb, hsecond⟩ | hsecond := toBool_cases maxIncluded <;> rw [hsecond]
        · exact Or.inl ⟨⟨kind, low, a, high, b⟩, rfl, hmin, hmax, ha, hb, rfl⟩
        · exact Or.inr rfl
      · exact Or.inr rfl
    · exact Or.inr rfl
  · exact Or.inr rfl

/-- **A query is read from one of these forms**, and every other term is refused. -/
theorem queryForm (t : Term) : QueryForm t t.toQuery := by
  unfold toQuery
  split
  · exact .empty
  · rename_i value
    cases hvalue : value.toBytes with
    | error e =>
      obtain rfl := toBytes_eq_error hvalue
      exact .other _
    | ok bytes =>
      rw [(toBytes_eq_ok_iff ..).1 hvalue]
      exact .lookup (.exact .text bytes)
  · rename_i value
    cases hvalue : value.toBytes with
    | error e =>
      obtain rfl := toBytes_eq_error hvalue
      exact .other _
    | ok bytes =>
      rw [(toBytes_eq_ok_iff ..).1 hvalue]
      exact .lookup (.exact .attribute bytes)
  · rename_i min max minIncluded maxIncluded
    obtain ⟨i, hkind, rfl, rfl, rfl, rfl, hread⟩ | hread :=
      toInterval_cases .text min max minIncluded maxIncluded <;> rw [hread]
    · have hform := QueryForm.lookup (.range i)
      rwa [Lookup.toTerm, hkind] at hform
    · exact .other _
  · rename_i min max minIncluded maxIncluded
    obtain ⟨i, hkind, rfl, rfl, rfl, rfl, hread⟩ | hread :=
      toInterval_cases .attribute min max minIncluded maxIncluded <;> rw [hread]
    · have hform := QueryForm.lookup (.range i)
      rwa [Lookup.toTerm, hkind] at hform
    · exact .other _
  · rename_i listed
    cases hread : listed.toList toPre with
    | ok pres => exact .nodes hread
    | error e =>
      cases e with
      | badArgument => exact .other _
      | brokenList => exact .nodesBreak hread
  · rename_i tag operands _ _ _
    split
    · exact .other _
    · rename_i op hop
      obtain rfl := operator?_eq_some hop
      rw [toQueries_eq]
      cases hread : operands.toList toQuery with
      | ok qs => exact .set op hread
      | error e =>
        cases e with
        | badArgument => exact .other _
        | brokenList => exact .setBreaks op hread
  · exact .other t

/-! ## Reading queries -/

theorem toQuery_lookup (l : Lookup) : l.toTerm.toQuery = .ok (.lookup l) := by
  cases l with
  | exact kind value => cases kind <;> rfl
  | range i =>
    obtain ⟨kind, min, minIncluded, max, maxIncluded⟩ := i
    cases kind <;> cases min <;> cases max <;> cases minIncluded <;> cases maxIncluded <;> rfl

theorem toQuery_nodes (listed : Term) :
    (tuple [atom "nodes", listed]).toQuery = (listed.toList toPre).map .nodes := by
  rw [toQuery]
  cases listed.toList toPre <;> rfl

theorem toQuery_set (op : SetOp) (operands : Term) :
    (tuple [atom op.name, operands]).toQuery = (operands.toList toQuery).map (.set op) := by
  have hop : operator? op.name = some op := by cases op <;> rfl
  rw [← toQueries_eq, toQuery]
  · rw [hop]
    cases operands.toQueries <;> rfl
  all_goals cases op <;> decide

/-- **A query that was written is read back.** -/
theorem toQuery_toTerm {q : Query} (h : q.Writable) : q.toTerm.toQuery = .ok q := by
  induction h with
  | empty => rfl
  | lookup l => exact toQuery_lookup l
  | @nodes pres hpres =>
    have hlisted : (list (pres.map ofNat)).toList toPre = .ok pres :=
      mapM_map_write fun pre hpre => (toPre_eq_ok_iff ..).2 ⟨rfl, hpres pre hpre⟩
    rw [Query.toTerm, toQuery_nodes, hlisted]
    rfl
  | set op _ ih =>
    have hoperands := mapM_map_write ih
    rw [Query.toTerm, toQuery_set, Query.toTerms_eq, toList, hoperands]
    rfl

/-- **A query that is read was written.** -/
theorem eq_toTerm_of_toQuery {t : Term} {q : Query} (h : t.toQuery = .ok q) :
    t = q.toTerm ∧ q.Writable := by
  induction q generalizing t with
  | empty =>
    have hform := h ▸ t.queryForm
    cases hform
    exact ⟨rfl, .empty⟩
  | lookup l =>
    have hform := h ▸ t.queryForm
    cases hform
    exact ⟨rfl, .lookup l⟩
  | nodes pres =>
    have hform := h ▸ t.queryForm
    cases hform with
    | nodes hlisted =>
      obtain ⟨rfl, hvalid⟩ := eq_list_of_toList hlisted fun pre _ t => (toPre_eq_ok_iff t pre).1
      exact ⟨rfl, .nodes hvalid⟩
  | set op qs ih =>
    have hform := h ▸ t.queryForm
    cases hform with
    | set _ hoperands =>
      obtain ⟨rfl, hvalid⟩ := eq_list_of_toList hoperands fun q hq t ht => ih q hq ht
      rw [Query.toTerm, Query.toTerms_eq]
      exact ⟨rfl, .set op hvalid⟩

theorem toQuery_eq_ok_iff (t : Term) (q : Query) :
    t.toQuery = .ok q ↔ t = q.toTerm ∧ q.Writable := by
  constructor
  · exact eq_toTerm_of_toQuery
  · rintro ⟨rfl, h⟩
    exact toQuery_toTerm h

/-- Terms that a query is read from up to the end of a list, and there is no proper end. -/
inductive BreaksQuery : Term → Prop where
  | nodes {pres : List Nat} (tail : Term) : (∀ pre ∈ pres, pre < UInt32.size) →
      BreaksQuery (tuple [atom "nodes", improper (pres.map ofNat) tail])
  | operands (op : SetOp) {qs : List Query} (tail : Term) : (∀ q ∈ qs, q.Writable) →
      BreaksQuery (tuple [atom op.name, improper (qs.map Query.toTerm) tail])
  /-- A list of operands breaks off inside of one of them. -/
  | operand (op : SetOp) {qs : List Query} {t operands : Term} (rest : List Term) :
      (∀ q ∈ qs, q.Writable) → BreaksQuery t →
      HasItems (qs.map Query.toTerm ++ t :: rest) operands →
      BreaksQuery (tuple [atom op.name, operands])

theorem toQuery_of_breaks {t : Term} (h : t.BreaksQuery) : t.toQuery = .error .brokenList := by
  induction h with
  | nodes tail hpres =>
    rw [toQuery_nodes, (toList_eq_broken_iff toPre_eq_ok_iff).2 ⟨_, hpres, Or.inl ⟨tail, rfl⟩⟩]
    rfl
  | operands op tail hqs =>
    rw [toQuery_set, (toList_eq_broken_iff toQuery_eq_ok_iff).2 ⟨_, hqs, Or.inl ⟨tail, rfl⟩⟩]
    rfl
  | operand op rest hqs _ hitems ih =>
    rw [toQuery_set,
      (toList_eq_broken_iff toQuery_eq_ok_iff).2 ⟨_, hqs, Or.inr ⟨_, rest, ih, hitems⟩⟩]
    rfl

/-- A query breaks off where one of its lists does.  The induction is on the size of the term. -/
theorem breaks_of_toQuery {t : Term} (h : t.toQuery = .error .brokenList) : t.BreaksQuery := by
  induction hsize : sizeOf t using Nat.strongRecOn generalizing t with
  | ind size ih =>
    subst hsize
    have hform := h ▸ t.queryForm
    cases hform with
    | nodesBreak hlisted =>
      obtain ⟨pres, hpres, ⟨tail, rfl⟩ | ⟨bad, _, hbad, _⟩⟩ :=
        (toList_eq_broken_iff toPre_eq_ok_iff).1 hlisted
      · exact .nodes tail hpres
      · exact absurd hbad (toPre_ne_broken bad)
    | @setBreaks op operands hoperands =>
      obtain ⟨qs, hqs, ⟨tail, rfl⟩ | ⟨bad, rest, hbad, hitems⟩⟩ :=
        (toList_eq_broken_iff toQuery_eq_ok_iff).1 hoperands
      · exact .operands op tail hqs
      · have hlt : sizeOf bad < sizeOf operands := sizeOf_lt_of_hasItems hitems (by simp)
        refine .operand op rest hqs (ih (sizeOf bad) ?_ hbad rfl) hitems
        simp only [tuple.sizeOf_spec, List.cons.sizeOf_spec]
        omega

/-! ## Reading fragments -/

/-- What reading a fragment makes of a term, its lists being read. -/
inductive FragmentForm : Term → Except Host.Refusal Fragment → Prop where
  | text (value : Bytes) : FragmentForm (binary value) (.ok (.text value))
  | comment (value : Bytes) :
      FragmentForm (tuple [atom "comment", binary value]) (.ok (.comment value))
  | instruction (target data : Bytes) :
      FragmentForm (tuple [atom "pi", binary target, binary data])
        (.ok (.instruction target data))
  | element (name : Bytes) {attributes children : Term} {as : List (Bytes × Bytes)}
      {fs : List Fragment} : attributes.toList (toPair toBytes toBytes) = .ok as →
      children.toList toFragment = .ok fs →
      FragmentForm (tuple [binary name, attributes, children]) (.ok (.element name as fs))
  | attributesBreak {name attributes : Term} (children : Term) : name ≠ atom "pi" →
      attributes.toList (toPair toBytes toBytes) = .error .brokenList →
      FragmentForm (tuple [name, attributes, children]) (.error .brokenList)
  | childrenBreak (name : Bytes) {attributes children : Term} {as : List (Bytes × Bytes)} :
      attributes.toList (toPair toBytes toBytes) = .ok as →
      children.toList toFragment = .error .brokenList →
      FragmentForm (tuple [binary name, attributes, children]) (.error .brokenList)
  | other (t : Term) : FragmentForm t (.error .badArgument)

theorem toFragments_eq (t : Term) : t.toFragments = t.toList toFragment := by
  have hitems : ∀ items : List Term, toFragmentItems items = items.mapM toFragment := by
    intro items
    induction items with
    | nil => rfl
    | cons t rest ih => rw [toFragmentItems, ih, List.mapM_cons]; rfl
  cases t with
  | list items => exact hitems items
  | improper items tail => rw [toFragments, toList, hitems]
  | _ => rfl

/-- **A fragment is read from one of these forms**, and every other term is refused. -/
theorem fragmentForm (t : Term) : FragmentForm t t.toFragment := by
  unfold toFragment
  split
  · exact .text _
  · rename_i value
    cases hvalue : value.toBytes with
    | error e =>
      obtain rfl := toBytes_eq_error hvalue
      exact .other _
    | ok bytes =>
      rw [(toBytes_eq_ok_iff ..).1 hvalue]
      exact .comment bytes
  · rename_i target data
    cases htarget : target.toBytes with
    | error e =>
      obtain rfl := toBytes_eq_error htarget
      exact .other _
    | ok targetBytes =>
      cases hdata : data.toBytes with
      | error e =>
        obtain rfl := toBytes_eq_error hdata
        exact .other _
      | ok dataBytes =>
        rw [(toBytes_eq_ok_iff ..).1 htarget, (toBytes_eq_ok_iff ..).1 hdata]
        exact .instruction targetBytes dataBytes
  · rename_i name attributes children hname
    rw [toFragments_eq]
    cases hattributes : attributes.toList (toPair toBytes toBytes) with
    | error e =>
      cases e with
      | badArgument => exact .other _
      | brokenList => exact .attributesBreak children hname hattributes
    | ok as =>
      cases hbytes : name.toBytes with
      | error e =>
        obtain rfl := toBytes_eq_error hbytes
        exact .other _
      | ok bytes =>
        rw [(toBytes_eq_ok_iff ..).1 hbytes]
        cases hchildren : children.toList toFragment with
        | ok fs => exact .element bytes hattributes hchildren
        | error e =>
          cases e with
          | badArgument => exact .other _
          | brokenList => exact .childrenBreak bytes hattributes hchildren
  · exact .other t

theorem toFragment_element (name : Bytes) (attributes children : Term) :
    (tuple [binary name, attributes, children]).toFragment = (do
      let as ← attributes.toList (toPair toBytes toBytes)
      .ok (.element name as (← children.toList toFragment))) := by
  rw [toFragment, toFragments_eq]
  · rfl
  · rintro ⟨⟩

/-- **A fragment that was written is read back.** -/
theorem toFragment_toTerm (f : Fragment) : f.toTerm.toFragment = .ok f := by
  induction f with
  | element name attributes children ih =>
    have hattributes : (list (attributes.map Fragment.attributeTerm)).toList
        (toPair toBytes toBytes) = .ok attributes :=
      mapM_map_write fun a _ => (attribute_eq_ok_iff ..).2 ⟨rfl, trivial⟩
    have hchildren : (list (children.map Fragment.toTerm)).toList toFragment = .ok children :=
      mapM_map_write ih
    rw [Fragment.toTerm, Fragment.toTerms_eq, toFragment_element, hattributes, hchildren]
    rfl
  | text value => rfl
  | comment value => rfl
  | instruction target data => rfl

/-- **A fragment that is read was written.** -/
theorem eq_toTerm_of_toFragment {t : Term} {f : Fragment} (h : t.toFragment = .ok f) :
    t = f.toTerm := by
  induction f generalizing t with
  | element name attributes children ih =>
    have hform := h ▸ t.fragmentForm
    cases hform with
    | element _ hattributes hchildren =>
      obtain ⟨rfl, _⟩ := eq_list_of_toList hattributes fun a _ t => (attribute_eq_ok_iff t a).1
      obtain ⟨rfl, _⟩ := eq_list_of_toList hchildren fun f hf t ht =>
        show t = f.toTerm ∧ True from ⟨ih f hf ht, trivial⟩
      rw [Fragment.toTerm, Fragment.toTerms_eq]
  | text value =>
    have hform := h ▸ t.fragmentForm
    cases hform
    rfl
  | comment value =>
    have hform := h ▸ t.fragmentForm
    cases hform
    rfl
  | instruction target data =>
    have hform := h ▸ t.fragmentForm
    cases hform
    rfl

theorem toFragment_eq_ok_iff (t : Term) (f : Fragment) :
    t.toFragment = .ok f ↔ t = f.toTerm ∧ True := by
  rw [and_true]
  constructor
  · exact eq_toTerm_of_toFragment
  · rintro rfl
    exact toFragment_toTerm f

/-- Terms that a fragment is read from up to the end of a list, and there is no proper end. -/
inductive BreaksFragment : Term → Prop where
  /-- The attributes break off before the name is read, so it need not be one; only the tag of an
  instruction would be seen before. -/
  | attributes {name : Term} (attributes : List (Bytes × Bytes)) (tail children : Term) :
      name ≠ atom "pi" → BreaksFragment
        (tuple [name, improper (attributes.map Fragment.attributeTerm) tail, children])
  | children (name : Bytes) (attributes : List (Bytes × Bytes)) (fs : List Fragment)
      (tail : Term) : BreaksFragment (tuple [binary name,
        list (attributes.map Fragment.attributeTerm), improper (fs.map Fragment.toTerm) tail])
  /-- A list of children breaks off inside of one of them. -/
  | child (name : Bytes) (attributes : List (Bytes × Bytes)) (fs : List Fragment)
      {t children : Term} (rest : List Term) : BreaksFragment t →
      HasItems (fs.map Fragment.toTerm ++ t :: rest) children →
      BreaksFragment (tuple [binary name, list (attributes.map Fragment.attributeTerm), children])

theorem toFragment_of_breaks {t : Term} (h : t.BreaksFragment) :
    t.toFragment = .error .brokenList := by
  have hread : ∀ attributes : List (Bytes × Bytes),
      (list (attributes.map Fragment.attributeTerm)).toList (toPair toBytes toBytes) =
        .ok attributes := fun attributes =>
    mapM_map_write fun a _ => (attribute_eq_ok_iff ..).2 ⟨rfl, trivial⟩
  induction h with
  | attributes attributes tail children hname =>
    rw [toFragment, (toList_eq_broken_iff attribute_eq_ok_iff).2
      ⟨attributes, fun _ _ => trivial, Or.inl ⟨tail, rfl⟩⟩]
    · rfl
    · exact hname
  | children name attributes fs tail =>
    rw [toFragment_element, hread, (toList_eq_broken_iff toFragment_eq_ok_iff).2
      ⟨fs, fun _ _ => trivial, Or.inl ⟨tail, rfl⟩⟩]
    rfl
  | child name attributes fs rest _ hitems ih =>
    rw [toFragment_element, hread, (toList_eq_broken_iff toFragment_eq_ok_iff).2
      ⟨fs, fun _ _ => trivial, Or.inr ⟨_, rest, ih, hitems⟩⟩]
    rfl

/-- A fragment breaks off where one of its lists does.  The induction is on the size of the
term. -/
theorem breaks_of_toFragment {t : Term} (h : t.toFragment = .error .brokenList) :
    t.BreaksFragment := by
  induction hsize : sizeOf t using Nat.strongRecOn generalizing t with
  | ind size ih =>
    subst hsize
    have hform := h ▸ t.fragmentForm
    cases hform with
    | attributesBreak children hname hattributes =>
      obtain ⟨as, _, ⟨tail, rfl⟩ | ⟨bad, _, hbad, _⟩⟩ :=
        (toList_eq_broken_iff attribute_eq_ok_iff).1 hattributes
      · exact .attributes as tail children hname
      · exact absurd hbad (attribute_ne_broken bad)
    | @childrenBreak name attributes children as hattributes hchildren =>
      obtain ⟨rfl, _⟩ := eq_list_of_toList hattributes fun a _ t => (attribute_eq_ok_iff t a).1
      obtain ⟨fs, _, ⟨tail, rfl⟩ | ⟨bad, rest, hbad, hitems⟩⟩ :=
        (toList_eq_broken_iff toFragment_eq_ok_iff).1 hchildren
      · exact .children name as fs tail
      · have hlt : sizeOf bad < sizeOf children := sizeOf_lt_of_hasItems hitems (by simp)
        refine .child name as fs rest (ih (sizeOf bad) ?_ hbad rfl) hitems
        simp only [tuple.sizeOf_spec, List.cons.sizeOf_spec]
        omega

/-! ## Both ways -/

/-- Reading gives what was written and nothing else; a term that breaks off is refused as such, and
any other term as a bad argument. -/
structure ReadsExactly {α : Type} (read : Term → Except Host.Refusal α) (write : α → Term)
    (writable : α → Prop) (breaks : Term → Prop) : Prop where
  /-- What was written is read back. -/
  read_write : ∀ a, writable a → read (write a) = .ok a
  /-- What is read was written. -/
  write_of_read : ∀ t a, read t = .ok a → t = write a ∧ writable a
  /-- Terms that break off are refused for that. -/
  broken : ∀ t, read t = .error .brokenList ↔ breaks t
  /-- Every other term that was not written is a bad argument. -/
  bad : ∀ t, read t = .error .badArgument ↔ (∀ a, writable a → t ≠ write a) ∧ ¬ breaks t

theorem readsExactly_of {α : Type} {read : Term → Except Host.Refusal α} {write : α → Term}
    {writable : α → Prop} {breaks : Term → Prop}
    (hok : ∀ t a, read t = .ok a ↔ t = write a ∧ writable a)
    (hbroken : ∀ t, read t = .error .brokenList ↔ breaks t) :
    ReadsExactly read write writable breaks where
  read_write a ha := (hok (write a) a).2 ⟨rfl, ha⟩
  write_of_read t a := (hok t a).1
  broken := hbroken
  bad t := by
    constructor
    · intro h
      refine ⟨?_, fun hbreaks => ?_⟩
      · rintro a ha rfl
        cases h.symm.trans ((hok (write a) a).2 ⟨rfl, ha⟩)
      · cases h.symm.trans ((hbroken t).2 hbreaks)
    · rintro ⟨hnone, hnot⟩
      cases hread : read t with
      | ok a =>
        obtain ⟨ht, ha⟩ := (hok t a).1 hread
        exact absurd ht (hnone a ha)
      | error e =>
        cases e with
        | badArgument => rfl
        | brokenList => exact absurd ((hbroken t).1 hread) hnot

/-- **Reading is the inverse of writing**, for queries and for fragments of any depth. -/
theorem reads_exactly :
    ReadsExactly toQuery Query.toTerm Query.Writable BreaksQuery ∧
      ReadsExactly toFragment Fragment.toTerm (fun _ => True) BreaksFragment :=
  ⟨readsExactly_of toQuery_eq_ok_iff fun _ => ⟨breaks_of_toQuery, toQuery_of_breaks⟩,
    readsExactly_of toFragment_eq_ok_iff fun _ => ⟨breaks_of_toFragment, toFragment_of_breaks⟩⟩

/-- A term that no query is written as need not be a bad argument: a list that has no proper end is
read up to there. -/
theorem toQuery_improper :
    ¬ ∀ t : Term, (∀ q : Query, q.Writable → t ≠ q.toTerm) → t.toQuery = .error .badArgument := by
  intro h
  let t := tuple [atom "union", improper [atom "empty"] (integer 1)]
  have hbroken : t.toQuery = .error .brokenList := rfl
  have hnone : ∀ q : Query, q.Writable → t ≠ q.toTerm := by
    intro q hq hterm
    rw [hterm, toQuery_toTerm hq] at hbroken
    cases hbroken
  cases hbroken.symm.trans (h t hnone)

end Term

end XmlStore
