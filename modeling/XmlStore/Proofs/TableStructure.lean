import XmlStore.Database.Addition
import XmlStore.Proofs.DraftShape

/-!
# The structure of tables

* `Table.Made`, `Database.Made` — the tables that come of drafts, of appending and of adding to
  databases, and the databases that such tables are added to.
* `Table.Structured` — what a reader of a table may rely on: the documents tile it, parents come
  before their children and enclose them, the subtree of a row is what parents lead to it from, and
  attributes stand directly behind their element.
* `Table.Made.structured` — every table that can be made is structured.
-/

namespace XmlStore

namespace Table

/-! ## Places of tables that are put together -/

theorem places_copyRow (names : Names) (t : Table) (row : Row) :
    (copyRow names t row).places = t.places ++ [row.place] := by
  unfold copyRow
  split <;> simp [places, Row.place]

theorem places_append (t other : Table) : (t.append other).places = t.places ++ other.places := by
  unfold append
  rw [← Array.foldl_toList]
  have hcopied : ∀ (rows : List Row) (t : Table),
      (rows.foldl (copyRow other.names) t).places = t.places ++ rows.map Row.place := by
    intro rows
    induction rows with
    | nil => simp
    | cons row rest ih =>
      intro t
      rw [List.foldl_cons, ih, places_copyRow, List.append_assoc, List.map_cons]
      rfl
  exact hcopied other.rows.toList t

theorem places_setValue (t : Table) (pre : Nat) (value : Bytes) :
    (t.setValue pre value).places = t.places := by
  apply List.ext_getElem?
  intro p
  simp only [setValue, places, List.getElem?_map, Array.getElem?_toList, Array.getElem?_modify]
  by_cases hp : pre = p
  · rw [if_pos hp, Option.map_map]
    rfl
  · rw [if_neg hp]

theorem length_places (t : Table) : t.places.length = t.size := by
  simp [places, size]

end Table

/-! ## The tables that can be made -/

mutual

/-- The tables that come of finished drafts, whatever calls were refused on the way, of appending
one to another or to itself, and of adding to databases. -/
inductive Table.Made : Table → Prop where
  | finished {name : Bytes} {options : Options} {calls : List Draft.Call} {t : Table} :
      ((Draft.start name options).attempts calls).finish = .ok t → Table.Made t
  | appended {t other : Table} : Table.Made t → Table.Made other → Table.Made (t.append other)
  | stored {d : Database} : Database.Made d → Table.Made d.current.table

/-- The databases that such tables are added to, whether or not an addition is refused, while their
lock is taken and given back. -/
inductive Database.Made : Database → Prop where
  | created {id : Nat} {name : String} {options : Options} {d : Database} {events : List Event} :
      Database.create id name options = .ok (d, events) → Database.Made d
  | added {d : Database} (id : Nat) (path : Bytes) {fragment : Table} :
      Database.Made d → Table.Made fragment → Database.Made (d.add id path fragment).database
  | locked {d : Database} (held : Bool) : Database.Made d → Database.Made { d with locked := held }

end

/-- A table whose rows lie in one another, with the attributes behind their elements. -/
abbrev Table.Sound (t : Table) : Prop := Nested t.places ∧ Attributed t.places

theorem Table.Sound.append {t other : Table} (h : t.Sound) (h' : other.Sound) :
    (t.append other).Sound := by
  rw [Sound, places_append]
  exact ⟨h.1.append h'.1, h.2.append h'.2⟩

theorem Table.Sound.extended {t fragment : Table} (h : t.Sound) (h' : fragment.Sound)
    (path : Bytes) : (Database.extended t path fragment).Sound := by
  rw [Database.extended, Sound, places_setValue]
  exact h.append h'

/-- An addition leaves the table as it is, or extends it by the fragment. -/
theorem Database.table_add (d : Database) (id : Nat) (path : Bytes) (fragment : Table) :
    (d.add id path fragment).database.current.table = d.current.table ∨
      ∃ stored, (d.add id path fragment).database.current.table =
        extended d.current.table stored fragment := by
  unfold add
  split
  · exact Or.inl rfl
  · rename_i target _
    split
    · unfold tryLock
      cases d.locked with
      | true => exact Or.inl rfl
      | false => exact Or.inr ⟨target.path, rfl⟩
    · exact Or.inl rfl

mutual

theorem Table.Made.sound {t : Table} (h : t.Made) : t.Sound :=
  match h with
  | .finished hfinish => ((Draft.sound_start _ _).attempts _).finish hfinish
  | .appended ht hother => ht.sound.append hother.sound
  | .stored hd => hd.sound

theorem Database.Made.sound {d : Database} (h : d.Made) : d.current.table.Sound :=
  match h with
  | .created hcreate => by
    unfold Database.create at hcreate
    split at hcreate
    · obtain ⟨rfl, _⟩ := Prod.mk.inj (Except.ok.inj hcreate)
      exact ⟨Nested.nil, Attributed.nil⟩
    · cases hcreate
  | @Database.Made.added d id path fragment hd hfragment => by
    rcases d.table_add id path fragment with hsame | ⟨stored, hext⟩
    · exact hsame ▸ hd.sound
    · exact hext ▸ hd.sound.extended hfragment.sound stored
  | .locked _ hd => hd.sound

end

/-! ## What a reader sees -/

namespace Table

/-- Number of rows in the subtree of the row at `pre`, 0 past the end. -/
def subtreeSize (t : Table) (pre : Nat) : Nat := ((t.view? pre).map RowView.size).getD 0

/-- Whether the row at `pre` is a document. -/
def isDocument (t : Table) (pre : Nat) : Bool :=
  (t.view? pre).any fun row => row.kind == .document

/-- One row is the parent of another one. -/
def ParentOf (t : Table) (p q : Nat) : Prop :=
  ∃ row, t.view? p = some row ∧ row.parent = some q

/-- What a reader of a table may rely on. -/
structure Structured (t : Table) : Prop where
  /-- The documents are listed in order. -/
  documents : t.documents = (List.range t.size).filter t.isDocument
  /-- Documents have no parent. -/
  roots : ∀ {p : Nat} {row : RowView}, t.view? p = some row → row.kind = .document →
    row.parent = none
  /-- The subtrees of the documents, one after the other, make up the table. -/
  tiled : t.documents.flatMap (fun p => List.range' p (t.subtreeSize p)) = List.range t.size
  /-- Every other row has a parent, which comes earlier and encloses it. -/
  parents : ∀ {p : Nat} {row : RowView}, t.view? p = some row → row.kind ≠ .document →
    ∃ q above, row.parent = some q ∧ q < p ∧ t.view? q = some above ∧
      (above.kind = .document ∨ above.kind = .element) ∧ p + row.size ≤ q + above.size
  /-- A subtree holds its row and the rows from which parents lead to it, and no others. -/
  subtrees : ∀ {p q : Nat} {row : RowView}, p < t.size → t.view? q = some row →
    (q ≤ p ∧ p < q + row.size ↔ Relation.ReflTransGen t.ParentOf p q)
  /-- The attributes of an element stand directly behind it. -/
  attributes : ∀ {e : Nat} {element : RowView}, t.view? e = some element →
    element.kind = .element → ∀ p,
      (∃ row, t.view? p = some row ∧ row.kind = .attribute ∧ row.parent = some e) ↔
        e < p ∧ p ≤ e + element.attributes
  /-- Every attribute belongs to an element. -/
  owners : ∀ {p : Nat} {row : RowView}, t.view? p = some row → row.kind = .attribute →
    ∃ e element, row.parent = some e ∧ t.view? e = some element ∧ element.kind = .element
  /-- Rows that are neither documents nor elements have nothing below them. -/
  leaves : ∀ {p : Nat} {row : RowView}, t.view? p = some row → row.kind ≠ .document →
    row.kind ≠ .element → row.size = 1 ∧ row.attributes = 0

/-- What can be observed of a place, at its position. -/
structure Shows (p : Nat) (row : RowView) (a : Place) : Prop where
  kind : row.kind = a.kind
  size : row.size = a.size
  attributes : row.attributes = a.attributes
  parent : row.parent = if a.distance = 0 then none else some (p - a.distance)

theorem exists_place {t : Table} {p : Nat} {row : RowView} (h : t.view? p = some row) :
    ∃ a, t.places[p]? = some a ∧ Shows p row a := by
  rw [view?, Option.map_eq_some_iff] at h
  obtain ⟨r, hr, rfl⟩ := h
  refine ⟨r.place, ?_, rfl, rfl, rfl, rfl⟩
  rw [places, List.getElem?_map, Array.getElem?_toList, hr, Option.map_some]

theorem exists_view {t : Table} {p : Nat} {a : Place} (h : t.places[p]? = some a) :
    ∃ row, t.view? p = some row ∧ Shows p row a := by
  rw [places, List.getElem?_map, Array.getElem?_toList, Option.map_eq_some_iff] at h
  obtain ⟨r, hr, rfl⟩ := h
  exact ⟨_, by rw [view?, hr, Option.map_some], rfl, rfl, rfl, rfl⟩

theorem Shows.parent_eq_some {p q : Nat} {row : RowView} {a : Place} (h : Shows p row a)
    (hle : a.distance ≤ p) : row.parent = some q ↔ a.distance ≠ 0 ∧ p = q + a.distance := by
  rw [h.parent]
  split
  · rename_i hzero
    simp [hzero]
  · rename_i hzero
    rw [Option.some.injEq]
    constructor
    · intro hq
      exact ⟨hzero, by omega⟩
    · rintro ⟨_, hq⟩
      omega

namespace Sound

variable {t : Table} (h : t.Sound)

include h

theorem distance_le {p : Nat} {a : Place} (ha : t.places[p]? = some a) : a.distance ≤ p := by
  by_cases hkind : a.kind = .document
  · rw [(h.1.root ha).2 hkind]
    exact Nat.zero_le p
  · obtain ⟨q, _, hpq, _⟩ := h.1.within ha hkind
    omega

theorem parentOf_iff (p q : Nat) : t.ParentOf p q ↔ Nested.HasParent t.places p q := by
  constructor
  · rintro ⟨row, hrow, hparent⟩
    obtain ⟨a, ha, hshows⟩ := exists_place hrow
    exact ⟨a, ha, (hshows.parent_eq_some (h.distance_le ha)).1 hparent⟩
  · rintro ⟨a, ha, hparent⟩
    obtain ⟨row, hrow, hshows⟩ := exists_view ha
    exact ⟨row, hrow, (hshows.parent_eq_some (h.distance_le ha)).2 hparent⟩

end Sound

theorem isDocument_eq {t : Table} {p : Nat} {a : Place} (ha : t.places[p]? = some a) :
    t.isDocument p = (a.kind == .document) := by
  obtain ⟨row, hrow, hshows⟩ := exists_view ha
  rw [isDocument, hrow, Option.any_some, hshows.kind]

theorem subtreeSize_eq {t : Table} {p : Nat} {a : Place} (ha : t.places[p]? = some a) :
    t.subtreeSize p = a.size := by
  obtain ⟨row, hrow, hshows⟩ := exists_view ha
  rw [subtreeSize, hrow, Option.map_some, Option.getD_some, hshows.size]

namespace Sound

variable {t : Table} (h : t.Sound)

include h

/-- Of the rows of a document only the first one is a document. -/
theorem filter_isDocument {q : Nat} {b : Place} (hb : t.places[q]? = some b)
    (hkind : b.kind = .document) : (List.range' q b.size).filter t.isDocument = [q] := by
  obtain ⟨hpos, hend⟩ := h.1.fits hb
  obtain ⟨size, hsize⟩ : ∃ size, b.size = size + 1 := ⟨b.size - 1, by omega⟩
  have hfirst : t.isDocument q = true := by simp [isDocument_eq hb, hkind]
  have hrest : (List.range' (q + 1) size).filter t.isDocument = [] := by
    rw [List.filter_eq_nil_iff]
    intro p hp
    obtain ⟨hlow, hhigh⟩ := List.mem_range'_1.1 hp
    have ha : t.places[p]? = some t.places[p] := List.getElem?_eq_getElem (by omega)
    simp [isDocument_eq ha, (h.1.innermost hb ha (by omega) (by omega)).1]
  rw [hsize, List.range'_succ, List.filter_cons_of_pos hfirst, hrest]

/-- **The walk from document to document** lists the documents, whose subtrees make up the rest of
the table. -/
theorem documentsFrom_eq {pre : Nat} (hle : pre ≤ t.size)
    (hstart : ∀ a, t.places[pre]? = some a → a.kind = .document) :
    t.documentsFrom pre = (List.range' pre (t.size - pre)).filter t.isDocument ∧
      (t.documentsFrom pre).flatMap (fun p => List.range' p (t.subtreeSize p)) =
        List.range' pre (t.size - pre) := by
  fun_induction t.documentsFrom pre with
  | case1 pre hlt ih =>
    have hb : t.places[pre]? = some t.rows[pre].place := by
      rw [places, List.getElem?_map, Array.getElem?_toList, Array.getElem?_eq_getElem hlt,
        Option.map_some]
    have hkind := hstart _ hb
    obtain ⟨hpos, hend⟩ := h.1.fits hb
    rw [length_places] at hend
    have hmax : max t.rows[pre].size 1 = t.rows[pre].place.size := Nat.max_eq_left hpos
    have hsplit : List.range' pre (t.size - pre) = List.range' pre t.rows[pre].place.size ++
        List.range' (pre + t.rows[pre].place.size)
          (t.size - (pre + t.rows[pre].place.size)) := by
      rw [List.range'_append_1]
      congr 1
      omega
    rw [hmax] at ih ⊢
    obtain ⟨hlist, htiles⟩ := ih hend fun a ha => h.1.document_after hb hkind ha
    rw [hsplit, List.filter_append, h.filter_isDocument hb hkind, ← hlist, List.flatMap_cons,
      htiles, subtreeSize_eq hb]
    exact ⟨rfl, rfl⟩
  | case2 pre hge =>
    have hnone : t.size - pre = 0 := Nat.sub_eq_zero_of_le (Nat.le_of_not_lt hge)
    rw [hnone]
    exact ⟨rfl, rfl⟩

/-- **Rows that lie in one another make a structured table.** -/
theorem toStructured : t.Structured := by
  have hstart : ∀ a, t.places[0]? = some a → a.kind = .document := by
    intro a ha
    obtain ⟨q, b, hq, hb, hkind, _⟩ := h.1.exists_document ha
    obtain rfl : q = 0 := Nat.le_zero.1 hq
    obtain rfl : b = a := Option.some.inj (hb.symm.trans ha)
    exact hkind
  obtain ⟨hlist, htiles⟩ := h.documentsFrom_eq (Nat.zero_le _) hstart
  refine
    { documents := ?documents, roots := ?roots, tiled := ?tiled, parents := ?parents,
      subtrees := ?subtrees, attributes := ?attributes, owners := ?owners, leaves := ?leaves }
  case documents =>
    rw [List.range_eq_range']
    exact hlist
  case roots =>
    intro p row hrow hkind
    obtain ⟨a, ha, hshows⟩ := exists_place hrow
    rw [hshows.parent, if_pos ((h.1.root ha).2 (hshows.kind ▸ hkind))]
  case tiled =>
    rw [List.range_eq_range']
    exact htiles
  case parents =>
    intro p row hrow hkind
    obtain ⟨a, ha, hshows⟩ := exists_place hrow
    rw [hshows.kind] at hkind
    have hdistance := h.1.distance_ne_zero ha hkind
    obtain ⟨q, b, hpq, hb, hbkind, hle⟩ := h.1.within ha hkind
    obtain ⟨above, habove, hbshows⟩ := exists_view hb
    refine ⟨q, above, (hshows.parent_eq_some (h.distance_le ha)).2 ⟨hdistance, hpq⟩, by omega,
      habove, hbshows.kind ▸ hbkind, ?_⟩
    rw [hshows.size, hbshows.size]
    exact hle
  case subtrees =>
    intro p q row hp hrow
    obtain ⟨b, hb, hshows⟩ := exists_place hrow
    have hparents : t.ParentOf = Nested.HasParent t.places := by
      funext p q
      exact propext (h.parentOf_iff p q)
    rw [hparents, hshows.size]
    exact h.1.mem_span_iff (length_places t ▸ hp) hb
  case attributes =>
    intro e element helement hkind p
    obtain ⟨b, hb, hbshows⟩ := exists_place helement
    rw [hbshows.attributes, ← h.2.mem_owned_iff hb]
    constructor
    · rintro ⟨row, hrow, hattribute, hparent⟩
      obtain ⟨a, ha, hshows⟩ := exists_place hrow
      exact ⟨a, ha, hshows.kind ▸ hattribute,
        ((hshows.parent_eq_some (h.distance_le ha)).1 hparent).2⟩
    · rintro ⟨a, ha, hattribute, hpe⟩
      obtain ⟨row, hrow, hshows⟩ := exists_view ha
      have hdistance := h.1.distance_ne_zero ha (by simp [hattribute])
      exact ⟨row, hrow, hshows.kind.trans hattribute,
        (hshows.parent_eq_some (h.distance_le ha)).2 ⟨hdistance, hpe⟩⟩
  case owners =>
    intro p row hrow hkind
    obtain ⟨a, ha, hshows⟩ := exists_place hrow
    obtain ⟨e, b, hpe, hb, hbkind, hpos, _⟩ := h.2.owner ha (hshows.kind ▸ hkind)
    obtain ⟨element, helement, hbshows⟩ := exists_view hb
    exact ⟨e, element, (hshows.parent_eq_some (h.distance_le ha)).2 ⟨by omega, hpe⟩, helement,
      hbshows.kind.trans hbkind⟩
  case leaves =>
    intro p row hrow hdocument helement
    obtain ⟨a, ha, hshows⟩ := exists_place hrow
    rw [hshows.kind] at hdocument helement
    rw [hshows.size, hshows.attributes]
    exact ⟨h.2.leaf ha hdocument helement, h.2.childless ha helement⟩

end Sound

/-- **Every table that can be made is structured.** -/
theorem Made.structured {t : Table} (h : t.Made) : t.Structured :=
  h.sound.toStructured

/-- An attribute is admitted behind a blank text that left no row, but not behind one that did, and
the document is appended to itself. -/
theorem Made.structured_doubled :
    ∃ t : Table, ((Draft.start [0x61] {}).attempts
        [.closeElement, .openElement [0x72], .text [0x20], .attribute ([0x6B]) [0x76],
          .text [0x74], .attribute ([0x6B]) [], .closeElement]).finish = .ok t ∧
      (t.append t).views.map RowView.kind =
        [.document, .element, .attribute, .text, .document, .element, .attribute, .text] ∧
      (t.append t).Structured := by
  have hfinish : ((Draft.start [0x61] {}).attempts
      [.closeElement, .openElement [0x72], .text [0x20], .attribute ([0x6B]) [0x76],
        .text [0x74], .attribute ([0x6B]) [], .closeElement]).finish =
      .ok ⟨#[⟨.document, 0, 4, 0, 0, [0x61]⟩, ⟨.element, 1, 3, 1, 1, []⟩,
        ⟨.attribute, 1, 1, 0, 2, [0x76]⟩, ⟨.text, 2, 1, 0, 0, [0x74]⟩], ⟨#[[0x72], [0x6B]]⟩⟩ := by
    cbv
  exact ⟨_, hfinish, by decide, Made.structured (.appended (.finished hfinish) (.finished hfinish))⟩

end Table

end XmlStore
