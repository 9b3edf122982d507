import XmlStore.Table.Fragment

/-!
# Documents as lists of rows

What a document shows is said here without a draft: by its fragments, from which its rows are
written down in document order.

* `Fragment.prunedAll` — fragments without the texts that leave no row.
* `Fragment.documentRows` — the rows of a document, with the parents, sizes and numbers of
  attributes that follow from the tree.
* `Fragment.readDocument` — the way back: the attributes of a row are as many as it says, and its
  children are the rows in its subtree that have it for a parent.
* `Fragment.readDocument_documentRows` — reading gives the fragments that were written down.
-/

namespace XmlStore

namespace Fragment

/-! ## Texts that leave no row -/

/-- Space, tab, line feed, form feed and carriage return. -/
def blanks : List UInt8 := [0x20, 0x09, 0x0A, 0x0C, 0x0D]

/-- A text that leaves no row: it is empty or, if blank texts are dropped, has only blanks. -/
def Vanishes (chop : Bool) : Fragment → Prop
  | text value => value = [] ∨ chop = true ∧ ∀ b ∈ value, b ∈ blanks
  | _ => False

instance (chop : Bool) (f : Fragment) : Decidable (f.Vanishes chop) :=
  match f with
  | text value => inferInstanceAs (Decidable (value = [] ∨ chop = true ∧ ∀ b ∈ value, b ∈ blanks))
  | element .. => isFalse id
  | comment _ => isFalse id
  | instruction .. => isFalse id

mutual

/-- A fragment without the texts below it that leave no row. -/
def pruned (chop : Bool) : Fragment → Fragment
  | element name attributes children => element name attributes (prunedAll chop children)
  | f => f

/-- Fragments without the texts that leave no row. -/
def prunedAll (chop : Bool) : List Fragment → List Fragment
  | [] => []
  | f :: rest =>
    if f.Vanishes chop then prunedAll chop rest else f.pruned chop :: prunedAll chop rest

end

/-! ## Writing rows -/

/-- A name as it is shown: the empty name is absent. -/
def shownName (name : Bytes) : Option Bytes := if name = [] then none else some name

theorem getD_shownName (name : Bytes) : (shownName name).getD [] = name := by
  unfold shownName
  split
  · rename_i hname
    exact hname.symm
  · rfl

mutual

/-- Number of rows of a fragment. -/
def rowCount : Fragment → Nat
  | element _ attributes children => 1 + attributes.length + rowCountAll children
  | _ => 1

/-- Number of rows of several fragments. -/
def rowCountAll : List Fragment → Nat
  | [] => 0
  | f :: rest => f.rowCount + rowCountAll rest

end

/-- The row of an attribute. -/
def attributeRow (parent : Nat) (a : Bytes × Bytes) : RowView :=
  ⟨.attribute, shownName a.1, a.2, some parent, 1, 0⟩

/-- The first row of a fragment, if its subtree has this size and begins with so many attributes. -/
def headRow (parent size attributes : Nat) : Fragment → RowView
  | element name _ _ => ⟨.element, shownName name, [], some parent, size, attributes⟩
  | text value => ⟨.text, none, value, some parent, size, attributes⟩
  | comment value => ⟨.comment, none, value, some parent, size, attributes⟩
  | instruction target data =>
    ⟨.instruction, shownName target, data, some parent, size, attributes⟩

mutual

/-- The rows of a fragment that stands at a position, below the row of its parent. -/
def rows (parent pre : Nat) : Fragment → List RowView
  | element name attributes children =>
    headRow parent (1 + attributes.length + rowCountAll children) attributes.length
        (element name attributes children) ::
      (attributes.map (attributeRow pre) ++
        rowsAll pre (pre + 1 + attributes.length) children)
  | f => [headRow parent 1 0 f]

/-- The rows of several fragments, one after the other. -/
def rowsAll (parent pre : Nat) : List Fragment → List RowView
  | [] => []
  | f :: rest => f.rows parent pre ++ rowsAll parent (pre + f.rowCount) rest

end

/-- The rows of a document. -/
def documentRows (name : Bytes) (fragments : List Fragment) : List RowView :=
  ⟨.document, none, name, none, 1 + rowCountAll fragments, 0⟩ :: rowsAll 0 1 fragments

theorem length_rowsAll_of_rows {fs : List Fragment}
    (h : ∀ f ∈ fs, ∀ parent pre, (f.rows parent pre).length = f.rowCount) (parent pre : Nat) :
    (rowsAll parent pre fs).length = rowCountAll fs := by
  induction fs generalizing pre with
  | nil => rfl
  | cons f rest ih =>
    obtain ⟨hfirst, hrest⟩ := List.forall_mem_cons.1 h
    rw [rowsAll, List.length_append, hfirst, ih hrest, rowCountAll]

@[simp] theorem length_rows (f : Fragment) (parent pre : Nat) :
    (f.rows parent pre).length = f.rowCount := by
  induction f generalizing parent pre with
  | element name attributes children ih =>
    rw [rows, rowCount, List.length_cons, List.length_append, List.length_map,
      length_rowsAll_of_rows ih]
    omega
  | text => rfl
  | comment => rfl
  | instruction => rfl

@[simp] theorem length_rowsAll (fs : List Fragment) (parent pre : Nat) :
    (rowsAll parent pre fs).length = rowCountAll fs :=
  length_rowsAll_of_rows (fun f _ => f.length_rows) parent pre

/-! ## Reading rows -/

/-- The attribute at a position, if there is one of the element at `parent`. -/
def attributeAt? (all : List RowView) (parent p : Nat) : Option (Bytes × Bytes) :=
  match all[p]? with
  | none => none
  | some row =>
    if row.kind = .attribute ∧ row.parent = some parent then some (row.name.getD [], row.value)
    else none

/-- The fragment that a row shows, with what was read behind it. -/
def ofRow? (row : RowView) (attributes : List (Bytes × Bytes)) (children : List Fragment) :
    Option Fragment :=
  match row.kind with
  | .element => some (.element (row.name.getD []) attributes children)
  | .text => some (.text row.value)
  | .comment => some (.comment row.value)
  | .instruction => some (.instruction (row.name.getD []) row.value)
  | .document => none
  | .attribute => none

/-- Reads the fragments from position `p` up to `stop`, which have the row at `parent` for their
parent. -/
def readBetween (all : List RowView) (parent p stop : Nat) : Option (List Fragment) :=
  if _ : p < stop then
    match all[p]? with
    | none => none
    | some row =>
      if _ : row.parent = some parent ∧ 0 < row.size ∧ p + row.size ≤ stop then do
        let attributes ← (List.range' (p + 1) row.attributes).mapM (attributeAt? all p)
        let children ← readBetween all p (p + 1 + row.attributes) (p + row.size)
        let f ← ofRow? row attributes children
        return f :: (← readBetween all parent (p + row.size) stop)
      else none
  else some []
  termination_by stop - p
  decreasing_by all_goals omega

/-- Reads a document: its name and its fragments. -/
def readDocument (all : List RowView) : Option (Bytes × List Fragment) :=
  match all[0]? with
  | none => none
  | some root =>
    if root.kind = .document ∧ root.parent = none ∧ root.size = all.length then
      (readBetween all 0 1 root.size).map fun fragments => (root.value, fragments)
    else none

/-! ## Reading back what was written -/

variable {all : List RowView} {parent pre stop : Nat}

/-- Some rows stand at a position: the first of them, and the others behind it. -/
theorem cons_prefix_drop {row : RowView} {rest : List RowView} {p : Nat}
    (h : row :: rest <+: all.drop p) : all[p]? = some row ∧ rest <+: all.drop (p + 1) := by
  obtain ⟨behind, hdrop⟩ := h
  constructor
  · rw [← List.head?_drop, ← hdrop]
    rfl
  · rw [← List.tail_drop, ← hdrop]
    exact ⟨behind, rfl⟩

theorem append_prefix_drop {a b : List RowView} {p : Nat} (h : a ++ b <+: all.drop p) :
    a <+: all.drop p ∧ b <+: all.drop (p + a.length) := by
  obtain ⟨behind, hdrop⟩ := h
  rw [List.append_assoc] at hdrop
  refine ⟨⟨_, hdrop⟩, behind, ?_⟩
  rw [← List.drop_drop, ← hdrop, List.drop_left]

/-- The attributes of an element are read back. -/
theorem mapM_attributeAt? {attributes : List (Bytes × Bytes)} {p : Nat}
    (h : attributes.map (attributeRow parent) <+: all.drop p) :
    (List.range' p attributes.length).mapM (attributeAt? all parent) = some attributes := by
  induction attributes generalizing p with
  | nil => rfl
  | cons a rest ih =>
    obtain ⟨hrow, hrest⟩ := cons_prefix_drop h
    have hfirst : attributeAt? all parent p = some a := by
      simp [attributeAt?, hrow, attributeRow, getD_shownName]
    rw [List.length_cons, List.range'_succ, List.mapM_cons, hfirst, ih hrest]
    rfl

/-- One fragment is read, and then the ones behind it. -/
theorem readBetween_cons {row : RowView} {attributes : List (Bytes × Bytes)}
    {children rest : List Fragment} {f : Fragment} (hrow : all[pre]? = some row)
    (hparent : row.parent = some parent) (hpos : 0 < row.size) (hend : pre + row.size ≤ stop)
    (hattributes :
      (List.range' (pre + 1) row.attributes).mapM (attributeAt? all pre) = some attributes)
    (hchildren : readBetween all pre (pre + 1 + row.attributes) (pre + row.size) = some children)
    (hf : ofRow? row attributes children = some f)
    (hrest : readBetween all parent (pre + row.size) stop = some rest) :
    readBetween all parent pre stop = some (f :: rest) := by
  rw [readBetween, dif_pos (by omega), hrow]
  simp only
  rw [dif_pos ⟨hparent, hpos, hend⟩, hattributes, hchildren, Option.bind_eq_bind,
    Option.bind_some, Option.bind_eq_bind, Option.bind_some, hf, hrest]
  rfl

theorem readBetween_nil : readBetween all parent stop stop = some [] := by
  rw [readBetween, dif_neg (Nat.lt_irrefl stop)]

/-- A fragment with nothing behind its first row. -/
theorem readBetween_leaf {f : Fragment} {rest : List Fragment} (hcount : f.rowCount = 1)
    (hof : ofRow? (headRow parent 1 0 f) [] [] = some f)
    (hrow : [headRow parent 1 0 f] <+: all.drop pre) (hend : pre + f.rowCount ≤ stop)
    (hrest : readBetween all parent (pre + f.rowCount) stop = some rest) :
    readBetween all parent pre stop = some (f :: rest) := by
  have hsize : (headRow parent 1 0 f).size = 1 := by cases f <;> rfl
  have hnone : (headRow parent 1 0 f).attributes = 0 := by cases f <;> rfl
  have hparent : (headRow parent 1 0 f).parent = some parent := by cases f <;> rfl
  rw [hcount] at hend hrest
  refine readBetween_cons (cons_prefix_drop hrow).1 hparent (by omega) (by omega) ?_ ?_ hof ?_
  · rw [hnone]
    rfl
  · rw [hnone, hsize]
    exact readBetween_nil
  · rw [hsize]
    exact hrest

theorem readBetween_rowsAll_of_rows {fs : List Fragment}
    (h : ∀ f ∈ fs, ∀ {parent pre stop : Nat} {rest : List Fragment},
      f.rows parent pre <+: all.drop pre → pre + f.rowCount ≤ stop →
      readBetween all parent (pre + f.rowCount) stop = some rest →
      readBetween all parent pre stop = some (f :: rest))
    (hrows : rowsAll parent pre fs <+: all.drop pre) :
    readBetween all parent pre (pre + rowCountAll fs) = some fs := by
  induction fs generalizing pre with
  | nil => exact readBetween_nil
  | cons f rest ih =>
    obtain ⟨hfirst, hrest⟩ := List.forall_mem_cons.1 h
    obtain ⟨hf, hothers⟩ := append_prefix_drop hrows
    rw [length_rows] at hothers
    rw [rowCountAll]
    refine hfirst hf (by omega) ?_
    rw [← Nat.add_assoc]
    exact ih hrest hothers

/-- **A fragment is read back from its rows**, and then what stands behind it.  The induction is on
the fragment. -/
theorem readBetween_rows (f : Fragment) {parent pre stop : Nat} {rest : List Fragment}
    (hrows : f.rows parent pre <+: all.drop pre) (hend : pre + f.rowCount ≤ stop)
    (hrest : readBetween all parent (pre + f.rowCount) stop = some rest) :
    readBetween all parent pre stop = some (f :: rest) := by
  induction f generalizing parent pre stop rest with
  | element name attributes children ih =>
    obtain ⟨hhead, hbehind⟩ := cons_prefix_drop hrows
    obtain ⟨hattributes, hchildren⟩ := append_prefix_drop hbehind
    rw [List.length_map] at hchildren
    have hread := readBetween_rowsAll_of_rows ih hchildren
    have hstop : pre + 1 + attributes.length + rowCountAll children =
        pre + (1 + attributes.length + rowCountAll children) := by omega
    rw [hstop] at hread
    rw [rowCount] at hend hrest
    refine readBetween_cons hhead rfl ?_ hend (mapM_attributeAt? hattributes) hread ?_ hrest
    · show 0 < 1 + attributes.length + rowCountAll children
      omega
    · show some (element ((shownName name).getD []) attributes children) = _
      rw [getD_shownName]
  | text value => exact readBetween_leaf rfl rfl hrows hend hrest
  | comment value => exact readBetween_leaf rfl rfl hrows hend hrest
  | instruction target data =>
    refine readBetween_leaf rfl ?_ hrows hend hrest
    show some (instruction ((shownName target).getD []) data) = _
    rw [getD_shownName]

/-- **A document is read back from its rows.** -/
theorem readDocument_documentRows (name : Bytes) (fragments : List Fragment) :
    readDocument (documentRows name fragments) = some (name, fragments) := by
  have hrows : rowsAll 0 1 fragments <+: (documentRows name fragments).drop 1 :=
    List.prefix_refl _
  have hread := readBetween_rowsAll_of_rows (fun f _ => f.readBetween_rows) hrows
  have hlength : (documentRows name fragments).length = 1 + rowCountAll fragments := by
    rw [documentRows, List.length_cons, length_rowsAll, Nat.add_comm]
  show (if _ ∧ _ ∧ 1 + rowCountAll fragments = _ then
      (readBetween _ 0 1 (1 + rowCountAll fragments)).map fun fragments => (name, fragments)
    else none) = _
  rw [if_pos ⟨rfl, rfl, hlength.symm⟩, hread]
  rfl

end Fragment

end XmlStore
