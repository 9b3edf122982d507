import Mathlib.Data.List.Basic
import Mathlib.Data.List.Induction
import XmlStore.Proofs.TableStructure

/-!
# What is seen of tables that are put together

* `Names.Extends` — numbers in use keep their names while names are added.
* `Table.Named` — the rows of a table have names of the table; drafts, appending and adding to
  databases keep it so, hence `Table.Made.named`.
* `Table.views_append` — appending a table adds its rows as they are, with their parents moved.
* `Table.views_extended` — the same for a document that is stored under a path.
-/

namespace XmlStore

namespace Names

/-- More names: the numbers in use keep their names. -/
structure Extends (names known : Names) : Prop where
  count_le : known.count ≤ names.count
  get?_eq : ∀ n ≤ known.count, names.get? n = known.get? n

theorem Extends.refl (names : Names) : names.Extends names :=
  ⟨Nat.le_refl _, fun _ _ => rfl⟩

/-- No name is empty. -/
def Proper (names : Names) : Prop := ∀ name ∈ names.entries, name ≠ []

theorem Proper.ne_nil {names : Names} (h : names.Proper) {n : Nat} {name : Bytes}
    (hname : names.get? n = some name) : name ≠ [] := by
  match n, hname with
  | i + 1, hname => exact h name (Array.mem_of_getElem? hname)

/-- What interning a name does to the names and which number it gives. -/
theorem intern_spec (names : Names) (name : Bytes) :
    (names.intern name).2.Extends names ∧
      (names.intern name).1 ≤ (names.intern name).2.count ∧
      (names.Proper → (names.intern name).2.Proper) := by
  unfold intern
  split
  · exact ⟨.refl names, Nat.zero_le _, id⟩
  · rename_i hname
    split
    · rename_i i hfound
      exact ⟨.refl names, (Array.findIdx?_eq_some_iff_getElem.1 hfound).1, id⟩
    · refine ⟨⟨?_, ?_⟩, ?_, ?_⟩
      · simp [count]
      · intro n hn
        cases n with
        | zero => rfl
        | succ i => exact Array.getElem?_push_lt hn |>.trans (Array.getElem?_eq_getElem hn).symm
      · simp [count]
      · intro hproper new hnew
        rcases Array.mem_push.1 hnew with hnew | rfl
        · exact hproper new hnew
        · simpa using hname

theorem extends_intern (names : Names) (name : Bytes) : (names.intern name).2.Extends names :=
  (names.intern_spec name).1

end Names

/-! ## Rows with names of their table -/

namespace Table

/-- The rows of a table have names of the table. -/
structure Named (t : Table) : Prop where
  proper : t.names.Proper
  le_count : ∀ row ∈ t.rows, row.name ≤ t.names.count

namespace Named

theorem empty : Table.empty.Named :=
  ⟨fun _ h => (by cases h; contradiction), fun _ h => (by cases h; contradiction)⟩

/-- A row is added, and perhaps a name. -/
theorem push {t : Table} (h : t.Named) {row : Row} {names : Names}
    (hextends : names.Extends t.names) (hproper : names.Proper) (hrow : row.name ≤ names.count) :
    Named { rows := t.rows.push row, names := names } := by
  refine ⟨hproper, fun r hr => ?_⟩
  rcases Array.mem_push.1 hr with hr | rfl
  · exact Nat.le_trans (h.le_count r hr) hextends.count_le
  · exact hrow

/-- A row is changed, but not its name. -/
theorem modify {t : Table} (h : t.Named) (p : Nat) {f : Row → Row}
    (hf : ∀ row, (f row).name = row.name) :
    Named { t with rows := t.rows.modify p f } := by
  refine ⟨h.proper, fun r hr => ?_⟩
  obtain ⟨i, hi, rfl⟩ := Array.mem_iff_getElem.1 hr
  rw [Array.getElem_modify]
  split
  · rw [hf]
    exact h.le_count _ (Array.getElem_mem _)
  · exact h.le_count _ (Array.getElem_mem _)

theorem copyRow {t : Table} (h : t.Named) (names : Names) (row : Row) :
    (Table.copyRow names t row).Named := by
  unfold Table.copyRow
  split
  · exact h.push (.refl _) h.proper (Nat.zero_le _)
  · rename_i name _
    obtain ⟨hextends, hle, hproper⟩ := t.names.intern_spec name
    exact h.push hextends (hproper h.proper) hle

theorem append {t : Table} (h : t.Named) (other : Table) : (t.append other).Named := by
  unfold Table.append
  rw [← Array.foldl_toList]
  induction other.rows.toList generalizing t with
  | nil => exact h
  | cons row rest ih => exact ih (h.copyRow other.names row)

/-- A row is added with a name. -/
theorem pushRow {t : Table} (h : t.Named) (kind : NodeKind) (distance : Nat)
    (name value : Bytes) : (t.push kind distance name value).Named := by
  obtain ⟨hextends, hle, hproper⟩ := t.names.intern_spec name
  exact h.push hextends (hproper h.proper) hle

theorem perform {d : Draft} (h : d.table.Named) (c : Draft.Call) : (d.perform c).table.Named := by
  have hchild : ∀ kind name value, (d.addChild kind name value).table.Named :=
    fun kind name value => h.pushRow kind (d.size - d.innermost) name value
  match c with
  | .openElement name => exact hchild .element name []
  | .attribute name value => exact (h.pushRow ..).modify _ fun _ => rfl
  | .text value =>
    rw [Draft.perform, Draft.addText]
    split
    · exact h
    · exact hchild .text [] value
  | .comment value => exact hchild .comment [] value
  | .instruction target data => exact hchild .instruction target data
  | .closeElement =>
    rw [Draft.perform, Draft.closeElement]
    split
    · exact h
    · exact h.modify _ fun _ => rfl

theorem attempt {d : Draft} (h : d.table.Named) (c : Draft.Call) : (d.attempt c).1.table.Named := by
  unfold Draft.attempt
  split
  · exact h
  · exact perform h c

theorem attempts {d : Draft} (h : d.table.Named) (calls : List Draft.Call) :
    (d.attempts calls).table.Named := by
  induction calls generalizing d with
  | nil => exact h
  | cons c rest ih => exact ih (attempt h c)

theorem start (name : Bytes) (options : Options) : (Draft.start name options).table.Named := by
  have hempty := Named.empty
  exact hempty.push (.refl _) hempty.proper (Nat.zero_le _)

theorem finish {d : Draft} (h : d.table.Named) {t : Table} (ht : d.finish = .ok t) : t.Named := by
  unfold Draft.finish at ht
  split at ht
  · obtain rfl := Except.ok.inj ht
    exact h.modify _ fun _ => rfl
  · cases ht

theorem extended {t : Table} (h : t.Named) (path : Bytes) (fragment : Table) :
    (Database.extended t path fragment).Named :=
  (h.append fragment).modify _ fun _ => rfl

end Named

end Table

mutual

theorem Table.Made.named {t : Table} (h : t.Made) : t.Named :=
  match h with
  | .finished hfinish => ((Table.Named.start _ _).attempts _).finish hfinish
  | .appended ht _ => ht.named.append _
  | .stored hd => hd.named

theorem Database.Made.named {d : Database} (h : d.Made) : d.current.table.Named :=
  match h with
  | .created hcreate => by
    unfold Database.create at hcreate
    split at hcreate
    · obtain ⟨rfl, _⟩ := Prod.mk.inj (Except.ok.inj hcreate)
      exact Table.Named.empty
    · cases hcreate
  | @Database.Made.added d id path fragment hd _ => by
    rcases d.table_add id path fragment with hsame | ⟨stored, hext⟩
    · exact hsame ▸ hd.named
    · exact hext ▸ hd.named.extended stored fragment
  | .locked _ hd => hd.named

end

/-! ## Views -/

/-- What can be observed of a row at a position. -/
def Row.view (names : Names) (p : Nat) (row : Row) : RowView :=
  { kind := row.kind
    name := names.get? row.name
    value := row.value
    parent := if row.distance = 0 then none else some (p - row.distance)
    size := row.size
    attributes := row.attributes }

/-- A row behind other rows, to which its parent moves with it. -/
def RowView.shift (offset : Nat) (row : RowView) : RowView :=
  { row with parent := row.parent.map (offset + ·) }

theorem Row.view_add (names : Names) (offset : Nat) {p : Nat} {row : Row} (h : row.distance ≤ p) :
    row.view names (offset + p) = (row.view names p).shift offset := by
  unfold Row.view RowView.shift
  split
  · rfl
  · rw [Option.map_some, Nat.add_sub_assoc h]

namespace Table

theorem views_eq (t : Table) : t.views = t.rows.toList.mapIdx (Row.view t.names) := by
  have hrange : ∀ l : List Row, (List.range l.length).filterMap
      (fun p => l[p]?.map (Row.view t.names p)) = l.mapIdx (Row.view t.names) := by
    intro l
    induction l using List.reverseRecOn with
    | nil => rfl
    | append_singleton l row ih =>
      have hold : ∀ p ∈ List.range l.length, (l ++ [row])[p]?.map (Row.view t.names p) =
          l[p]?.map (Row.view t.names p) := by
        intro p hp
        rw [List.getElem?_append_left (List.mem_range.1 hp)]
      rw [List.length_append, List.length_singleton, List.range_succ, List.filterMap_append,
        List.filterMap_congr hold, ih, List.mapIdx_concat]
      simp
  have hview : t.view? = fun p => t.rows.toList[p]?.map (Row.view t.names p) := by
    funext p
    rw [Array.getElem?_toList]
    rfl
  rw [views, hview]
  exact hrange t.rows.toList

theorem getElem?_views (t : Table) (p : Nat) : t.views[p]? = t.view? p := by
  rw [views_eq, List.getElem?_mapIdx, Array.getElem?_toList]
  rfl

theorem length_views (t : Table) : t.views.length = t.size := by
  rw [views_eq, List.length_mapIdx]
  rfl

/-- Rows look the same while names are added to those of their table. -/
theorem Named.mapIdx_view {t : Table} (h : t.Named) {names : Names}
    (hextends : names.Extends t.names) :
    t.rows.toList.mapIdx (Row.view names) = t.views := by
  rw [views_eq, List.mapIdx_eq_mapIdx_iff]
  intro p hp
  have hname := hextends.get?_eq _ (h.le_count _ (Array.getElem_mem hp))
  rw [Row.view, Row.view, Array.getElem_toList, hname]

theorem views_copyRow {t : Table} {names : Names} (ht : t.Named) (hnames : names.Proper)
    (row : Row) : (copyRow names t row).views = t.views ++ [row.view names t.size] := by
  have hcopied : ∀ (number : Nat) (known : Names), known.Extends t.names →
      known.get? number = names.get? row.name →
      Table.views { rows := t.rows.push { row with name := number }, names := known } =
        t.views ++ [row.view names t.size] := by
    intro number known hextends hname
    rw [views_eq, Array.toList_push, List.mapIdx_concat, ht.mapIdx_view hextends]
    simp only [Row.view, hname]
    rfl
  unfold copyRow
  split
  · rename_i hnone
    exact hcopied 0 t.names (.refl _) hnone.symm
  · rename_i name hname
    exact hcopied _ _ (t.names.extends_intern name)
      ((t.names.get?_intern (hnames.ne_nil hname)).trans hname.symm)

/-- **A table behind another one** shows its rows as they are, with their parents moved. -/
theorem views_append {t other : Table} (ht : t.Named) (hother : other.Named)
    (hsound : other.Sound) :
    (t.append other).views = t.views ++ other.views.map (RowView.shift t.size) := by
  have hcopied : ∀ (rows : List Row) (t : Table), t.Named →
      (rows.foldl (copyRow other.names) t).views =
        t.views ++ rows.mapIdx fun i row => row.view other.names (t.size + i) := by
    intro rows
    induction rows with
    | nil => simp
    | cons row rest ih =>
      intro t ht
      have hsize : (copyRow other.names t row).size = t.size + 1 := by
        rw [← length_views, views_copyRow ht hother.proper, List.length_append, length_views]
        rfl
      have hmove : ∀ i, t.size + 1 + i = t.size + (i + 1) := fun i => by omega
      rw [List.foldl_cons, ih _ (ht.copyRow other.names row), views_copyRow ht hother.proper,
        hsize, List.append_assoc, List.mapIdx_cons]
      simp only [hmove]
      rfl
  unfold append
  rw [← Array.foldl_toList, hcopied _ _ ht]
  congr 1
  apply List.ext_getElem?
  intro p
  rw [List.getElem?_map, getElem?_views, List.getElem?_mapIdx, Array.getElem?_toList]
  cases hrow : other.rows[p]? with
  | none => rw [view?, hrow]; rfl
  | some row =>
    have hplace : other.places[p]? = some row.place := by
      rw [places, List.getElem?_map, Array.getElem?_toList, hrow, Option.map_some]
    rw [view?, hrow]
    exact congrArg some (Row.view_add other.names t.size (hsound.distance_le hplace))

/-- A row is changed, and what is seen of it. -/
theorem views_modify (t : Table) (p : Nat) {f : Row → Row} {g : RowView → RowView}
    (h : ∀ row, (f row).view t.names p = g (row.view t.names p)) :
    Table.views { t with rows := t.rows.modify p f } = t.views.modify p g := by
  apply List.ext_getElem?
  intro q
  rw [List.getElem?_modify, getElem?_views, getElem?_views, view?, view?, Array.getElem?_modify]
  by_cases hq : p = q
  · subst hq
    simp only [if_true]
    cases t.rows[p]? with
    | none => rfl
    | some row => exact congrArg some (h row)
  · simp only [if_neg hq]
    cases t.rows[q]? <;> rfl

theorem views_setValue (t : Table) (p : Nat) (value : Bytes) :
    (t.setValue p value).views = t.views.modify p fun row => { row with value := value } :=
  t.views_modify p fun _ => rfl

/-- The rows of a document as they are stored behind `offset` others: their parents move along, and
the root is under another path. -/
def shelved (t : Table) (offset : Nat) (path : Bytes) : List RowView :=
  (t.views.map (RowView.shift offset)).modifyHead fun root => { root with value := path }

/-- **A document that is stored under a path** is seen behind the rows that were there before. -/
theorem views_extended {t fragment : Table} (ht : t.Named) (hfragment : fragment.Named)
    (hsound : fragment.Sound) (path : Bytes) :
    (Database.extended t path fragment).views = t.views ++ fragment.shelved t.size path := by
  rw [Database.extended, views_setValue, views_append ht hfragment hsound, ← length_views t]
  exact List.modifyTailIdx_add _ 0 t.views _

end Table

end XmlStore
