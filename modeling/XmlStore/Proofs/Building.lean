import XmlStore.Proofs.Flattening
import XmlStore.Proofs.TableViews

/-!
# Fragments are built as they are written down

* `Draft.Gains` — a draft that has got rows at its end, and is otherwise as it was.
* `Draft.Holds` — an element that is still open, with the rows that it has got so far.
* `Fragment.builds` — building a fragment is never refused, and adds the rows of the fragment
  without the texts that leave no row, whatever has been built before and whatever is still open.
* `Fragment.document_lossless` — hence the rows of a document are those of its fragments, which can
  be read back from them, and no addition fails because its fragment cannot be built.
-/

namespace XmlStore

open Fragment (shownName attributeRow rowsAll rowCountAll prunedAll headRow documentRows)

theorem Names.get?_intern_eq (names : Names) (name : Bytes) :
    (names.intern name).2.get? (names.intern name).1 = shownName name := by
  unfold shownName
  split
  · rename_i hname
    rw [hname]
    rfl
  · rename_i hname
    exact names.get?_intern hname

/-! ## What a call shows -/

namespace Table

theorem views_push {t : Table} (h : t.Named) (kind : NodeKind) (distance : Nat)
    (name value : Bytes) :
    (t.push kind distance name value).views =
      t.views ++ [⟨kind, shownName name, value,
        if distance = 0 then none else some (t.size - distance), 1, 0⟩] := by
  have hextends : (t.push kind distance name value).names.Extends t.names :=
    t.names.extends_intern name
  rw [views_eq, rows_push, Array.toList_push, List.mapIdx_concat, h.mapIdx_view hextends,
    ← t.names.get?_intern_eq name]
  rfl

theorem views_sealRow (t : Table) (p : Nat) :
    (Draft.sealRow t p).views = t.views.modify p fun row => { row with size := t.size - p } :=
  t.views_modify p fun _ => rfl

/-- The row that stands behind some others is changed. -/
theorem modify_length_append {α : Type} (front : List α) (a : α) (rest : List α) (f : α → α) :
    (front ++ a :: rest).modify front.length f = front ++ f a :: rest :=
  List.modifyTailIdx_add _ 0 front (a :: rest)

end Table

namespace Draft

/-- A draft to which rows can be added. -/
structure Ready (d : Draft) : Prop where
  named : d.table.Named
  innermost_lt : d.innermost < d.size

/-- A draft that has got rows at its end, and is otherwise as it was. -/
structure Gains (d d' : Draft) (rows : List RowView) : Prop where
  views : d'.table.views = d.table.views ++ rows
  named : d'.table.Named
  openElements : d'.openElements = d.openElements
  chop : d'.chop = d.chop

namespace Gains

variable {d d' d'' : Draft} {rows rows' : List RowView}

theorem nil (h : d.Ready) : Gains d d [] :=
  ⟨(List.append_nil _).symm, h.named, rfl, rfl⟩

theorem trans (h : Gains d d' rows) (h' : Gains d' d'' rows') : Gains d d'' (rows ++ rows') where
  views := by rw [h'.views, h.views, List.append_assoc]
  named := h'.named
  openElements := h'.openElements.trans h.openElements
  chop := h'.chop.trans h.chop

theorem size (h : Gains d d' rows) : d'.size = d.size + rows.length := by
  rw [Draft.size, Draft.size, ← Table.length_views, h.views, List.length_append,
    Table.length_views]

theorem innermost (h : Gains d d' rows) : d'.innermost = d.innermost := by
  rw [Draft.innermost, Draft.innermost, h.openElements]

theorem ready (h : Gains d d' rows) (hd : d.Ready) : d'.Ready where
  named := h.named
  innermost_lt := by
    have hlt := hd.innermost_lt
    rw [h.innermost, h.size]
    omega

end Gains

variable {d : Draft}

theorem ready_start (name : Bytes) (options : Options) : (start name options).Ready :=
  ⟨.start name options, Nat.one_pos⟩

/-- A row that is added in the innermost open one shows it as its parent. -/
theorem views_pushChild (h : d.Ready) (kind : NodeKind) (name value : Bytes) :
    (d.table.push kind (d.size - d.innermost) name value).views =
      d.table.views ++ [⟨kind, shownName name, value, some d.innermost, 1, 0⟩] := by
  have hlt := h.innermost_lt
  have hparent : d.size - (d.size - d.innermost) = d.innermost := by omega
  rw [Table.views_push h.named, if_neg (by omega)]
  show _ ++ [(⟨kind, _, value, some (d.size - (d.size - d.innermost)), 1, 0⟩ : RowView)] = _
  rw [hparent]

theorem gains_addChild (h : d.Ready) (kind : NodeKind) (name value : Bytes) :
    Gains d (d.addChild kind name value)
      [⟨kind, shownName name, value, some d.innermost, 1, 0⟩] where
  views := views_pushChild h kind name value
  named := h.named.pushRow kind (d.size - d.innermost) name value
  openElements := rfl
  chop := rfl

/-- An attribute is a row behind the others, and is counted where its element stands. -/
theorem views_addAttribute (h : d.Ready) (a : Bytes × Bytes) :
    (d.addAttribute a.1 a.2).table.views =
      (d.table.views ++ [attributeRow d.innermost a]).modify d.innermost
        fun row => { row with attributes := row.attributes + 1 } := by
  have hpush : (d.table.push .attribute (d.size - d.innermost) a.1 a.2).views =
      d.table.views ++ [attributeRow d.innermost a] := views_pushChild h .attribute a.1 a.2
  rw [← hpush]
  exact Table.views_modify _ d.innermost fun _ => rfl

/-- An element that is open in a draft: its row stands where `outer` ended, and `behind` it the rows
that it has got so far. -/
structure Holds (outer d : Draft) (row : RowView) (behind : List RowView) : Prop where
  views : d.table.views = outer.table.views ++ row :: behind
  named : d.table.Named
  openElements : d.openElements = outer.size :: outer.openElements
  chop : d.chop = outer.chop

theorem holds_openElement {outer : Draft} (h : outer.Ready) (name : Bytes) :
    Holds outer (outer.openElement name)
      ⟨.element, shownName name, [], some outer.innermost, 1, 0⟩ [] := by
  have hgains := gains_addChild h .element name []
  refine ⟨hgains.views, hgains.named, ?_, rfl⟩
  show ((outer.addChild .element name []).size - 1) :: outer.openElements = _
  rw [hgains.size, List.length_singleton, Nat.add_sub_cancel]

namespace Holds

variable {outer d d' : Draft} {row : RowView} {behind rows : List RowView}

theorem innermost (h : Holds outer d row behind) : d.innermost = outer.size := by
  rw [Draft.innermost, h.openElements]
  rfl

theorem size (h : Holds outer d row behind) : d.size = outer.size + 1 + behind.length := by
  rw [Draft.size, Draft.size, ← Table.length_views, h.views, List.length_append,
    Table.length_views, List.length_cons]
  omega

theorem ready (h : Holds outer d row behind) : d.Ready where
  named := h.named
  innermost_lt := by
    rw [h.innermost, h.size]
    omega

theorem gains (h : Holds outer d row behind) (hgains : Gains d d' rows) :
    Holds outer d' row (behind ++ rows) where
  views := by rw [hgains.views, h.views, List.append_assoc, List.cons_append]
  named := hgains.named
  openElements := hgains.openElements.trans h.openElements
  chop := hgains.chop.trans h.chop

theorem addAttribute (h : Holds outer d row behind) (a : Bytes × Bytes) :
    Holds outer (d.addAttribute a.1 a.2) { row with attributes := row.attributes + 1 }
      (behind ++ [attributeRow outer.size a]) where
  views := by
    rw [views_addAttribute h.ready a, h.views, h.innermost, List.append_assoc, List.cons_append,
      Draft.size, ← outer.table.length_views]
    exact Table.modify_length_append ..
  named := (h.named.pushRow ..).modify _ fun _ => rfl
  openElements := h.openElements
  chop := h.chop

/-- **An element that is closed** has all the rows behind it in its subtree. -/
theorem closeElement (h : Holds outer d row behind) :
    Gains outer d.closeElement ({ row with size := 1 + behind.length } :: behind) := by
  have htable : d.closeElement.table = sealRow d.table outer.size := by
    rw [Draft.closeElement, h.openElements]
  have hsize : d.table.size - outer.size = 1 + behind.length := by
    have := h.size
    rw [Draft.size] at this
    omega
  refine ⟨?_, ?_, ?_, ?_⟩
  · rw [htable, Table.views_sealRow, h.views, hsize, Draft.size, ← outer.table.length_views]
    exact Table.modify_length_append ..
  · rw [htable]
    exact h.named.modify _ fun _ => rfl
  · rw [Draft.closeElement, h.openElements]
  · rw [Draft.closeElement, h.openElements]
    exact h.chop

end Holds

end Draft

/-! ## Building -/

namespace Fragment

open Draft (Gains Holds Ready)

/-- **The attributes of an element are built** directly behind it. -/
theorem holds_buildAttributes {outer d : Draft} {row : RowView} {behind : List RowView}
    (h : Holds outer d row behind) (hopen : d.attributesOpen = true)
    (attributes : List (Bytes × Bytes)) :
    ∃ d', buildAttributes d attributes = .ok d' ∧
      Holds outer d' { row with attributes := row.attributes + attributes.length }
        (behind ++ attributes.map (attributeRow outer.size)) := by
  induction attributes generalizing d row behind with
  | nil => exact ⟨d, rfl, (List.append_nil behind).symm ▸ h⟩
  | cons a rest ih =>
    have hcall : d.call (.attribute a.1 a.2) = .ok (d.addAttribute a.1 a.2) := by
      rw [Draft.call, Draft.refusal?, if_pos hopen]
      rfl
    obtain ⟨d', hbuild, hholds⟩ := ih (h.addAttribute a) hopen
    refine ⟨d', by rw [buildAttributes, hcall]; exact hbuild, ?_⟩
    have hcount : row.attributes + 1 + rest.length = row.attributes + (rest.length + 1) := by omega
    rw [List.append_assoc, List.singleton_append] at hholds
    exact hcount ▸ hholds

/-- The texts that leave no row are those that a draft skips. -/
theorem vanishes_text_iff (chop : Bool) (value : Bytes) :
    (text value).Vanishes chop ↔ Draft.skips chop value = true := by
  have hblank : ∀ b : UInt8, b ∈ blanks ↔ Text.isBlankByte b = true := fun b => by
    simp [blanks, Text.isBlankByte, or_assoc]
  show (value = [] ∨ chop = true ∧ ∀ b ∈ value, b ∈ blanks) ↔ _
  simp only [Draft.skips, Bool.or_eq_true, Bool.and_eq_true, List.isEmpty_iff, List.all_eq_true,
    hblank]

/-- Building a fragment succeeds on every draft that rows can be added to, and adds the rows of the
fragment, if it leaves any. -/
def Builds (f : Fragment) : Prop :=
  ∀ d : Draft, d.Ready → ∃ d', build d f = .ok d' ∧
    Gains d d' (if f.Vanishes d.chop then [] else (f.pruned d.chop).rows d.innermost d.size)

theorem gains_buildAll_of_builds {d : Draft} (hd : d.Ready) {fs : List Fragment}
    (h : ∀ f ∈ fs, f.Builds) :
    ∃ d', buildAll d fs = .ok d' ∧
      Gains d d' (rowsAll d.innermost d.size (prunedAll d.chop fs)) := by
  induction fs generalizing d with
  | nil => exact ⟨d, rfl, .nil hd⟩
  | cons f rest ih =>
    obtain ⟨hfirst, hrest⟩ := List.forall_mem_cons.1 h
    obtain ⟨d₁, hbuild, hgains⟩ := hfirst d hd
    obtain ⟨d', hbuildAll, hothers⟩ := ih (hgains.ready hd) hrest
    refine ⟨d', by rw [buildAll, hbuild]; exact hbuildAll, ?_⟩
    rw [hgains.innermost, hgains.size, hgains.chop] at hothers
    have hall := hgains.trans hothers
    rw [prunedAll]
    split at hall
    · rename_i hvanishes
      rwa [if_pos hvanishes]
    · rename_i hstays
      rwa [if_neg hstays, rowsAll, ← length_rows (pruned d.chop f) d.innermost d.size]

/-- **Every fragment is built.**  The induction is on the fragment. -/
theorem builds (f : Fragment) : f.Builds := by
  induction f with
  | element name attributes children ih =>
    intro d hd
    -- the attributes and then the children are built while the element is the innermost one
    have hopened := Draft.holds_openElement hd name
    obtain ⟨d₁, hattributes, hholds₁⟩ := holds_buildAttributes hopened rfl attributes
    obtain ⟨d₂, hchildren, hgains⟩ := gains_buildAll_of_builds hholds₁.ready ih
    have hholds₂ := hholds₁.gains hgains
    refine ⟨d₂.closeElement, ?_, ?_⟩
    · have hclose : d₂.call .closeElement = .ok d₂.closeElement := by
        rw [Draft.call, Draft.refusal?, hholds₂.openElements]
        rfl
      rw [build]
      show (buildAttributes (d.openElement name) attributes >>= _) = _
      rw [hattributes]
      show (buildAll d₁ children >>= _) = _
      rw [hchildren]
      exact hclose
    · have hclosed := hholds₂.closeElement
      rw [if_neg (show ¬ Vanishes d.chop (element name attributes children) from id), pruned, rows,
        headRow]
      rw [hholds₁.innermost, hholds₁.size, hholds₁.chop, List.nil_append, List.length_append,
        List.length_map, length_rowsAll, ← Nat.add_assoc, Nat.zero_add] at hclosed
      exact hclosed
  | text value =>
    intro d hd
    refine ⟨d.addText value, rfl, ?_⟩
    rw [Draft.addText]
    by_cases hskips : Draft.skips d.chop value = true
    · rw [if_pos hskips, if_pos ((vanishes_text_iff d.chop value).2 hskips)]
      exact .nil hd
    · rw [if_neg hskips, if_neg fun h => hskips ((vanishes_text_iff d.chop value).1 h)]
      exact Draft.gains_addChild hd .text [] value
  | comment value => exact fun d hd => ⟨_, rfl, Draft.gains_addChild hd .comment [] value⟩
  | instruction target data =>
    exact fun d hd => ⟨_, rfl, Draft.gains_addChild hd .instruction target data⟩

/-- A document is built, and has the rows of the fragments that leave any. -/
theorem views_document (name : Bytes) (options : Options) (fragments : List Fragment) :
    ∃ t, document name options fragments = .ok t ∧
      t.views = documentRows name (prunedAll options.chop fragments) := by
  have hstart : (Draft.start name options).table.views =
      [⟨.document, none, name, none, 1, 0⟩] := rfl
  have hbuilds : ∀ f ∈ fragments, f.Builds := fun f _ => f.builds
  obtain ⟨d, hbuild, hgains⟩ :=
    gains_buildAll_of_builds (Draft.ready_start name options) hbuilds
  have hviews := hgains.views
  have hsize := hgains.size
  rw [length_rowsAll] at hsize
  have hfinish : d.finish = .ok (Draft.sealRow d.table 0) := by
    rw [Draft.finish, hgains.openElements]
    rfl
  refine ⟨Draft.sealRow d.table 0, ?_, ?_⟩
  · rw [document, hbuild]
    exact hfinish
  · have hcount : d.table.size - 0 = 1 + rowCountAll (prunedAll options.chop fragments) := hsize
    rw [Table.views_sealRow, hviews, hstart, hcount]
    rfl

end Fragment

namespace Database

theorem resolve_ne_build (path : Bytes) (t : Table) (cause : Draft.Refusal) :
    resolve path t ≠ .error (.build cause) := by
  unfold resolve
  split
  · rintro ⟨⟩
  · simp only
    -- which of the names it is does not matter
    generalize (if List.isEmpty _ then documentName t else _) = file
    split
    · rintro ⟨⟩
    · rintro ⟨⟩

/-- **No fragment is refused** by a database because it cannot be built. -/
theorem addFragment_ne_build (d : Database) (id : Nat) (path : Bytes) (f : Fragment)
    (cause : Draft.Refusal) : (d.addFragment id path f).result ≠ .error (.build cause) := by
  obtain ⟨t, hdocument, _⟩ := Fragment.views_document path d.options [f]
  rw [addFragment, hdocument]
  show (d.add id path t).result ≠ _
  unfold add
  split
  · rename_i refusal hresolve
    rintro ⟨⟩
    exact resolve_ne_build path t cause hresolve
  · split
    · split
      · rintro ⟨⟩
      · rintro ⟨⟩
    · rintro ⟨⟩

end Database

/-- **Nothing is lost in building and nothing is made up.**  A document is built of any fragments,
its rows are those of the fragments without the texts that leave no row, and the fragments can be
read back from them; so no addition to a database fails in building. -/
theorem Fragment.document_lossless (name : Bytes) (options : Options) (fragments : List Fragment) :
    (∃ t, document name options fragments = .ok t ∧
      t.views = documentRows name (prunedAll options.chop fragments) ∧
      readDocument t.views = some (name, prunedAll options.chop fragments)) ∧
    ∀ (d : Database) (id : Nat) (path : Bytes) (f : Fragment) (cause : Draft.Refusal),
      (d.addFragment id path f).result ≠ .error (.build cause) := by
  obtain ⟨t, hdocument, hviews⟩ := views_document name options fragments
  refine ⟨⟨t, hdocument, hviews, ?_⟩, fun d => d.addFragment_ne_build⟩
  rw [hviews]
  exact readDocument_documentRows name _

end XmlStore
