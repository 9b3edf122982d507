import Mathlib.Data.List.Range
import XmlStore.Proofs.TableViews

/-!
# Tables behind one another

Appending a table numbers its names anew, row by row, while the rows before it keep their numbers.
Nothing of that is seen: a reader finds the rows of both tables, one after the other.

* `Table.Concatenates` — one table is made up of two others, as far as a reader can tell.
* `Table.Alike` — a reader cannot tell two tables apart.
* `Table.Made.concatenates_append` — appending concatenates.
* `Table.Made.append_assoc`, `Table.Made.append_empty`, `Table.Made.empty_append` — its laws.
-/

namespace XmlStore

/-- Rows that move twice move by the sum. -/
theorem RowView.shift_shift (a b : Nat) (row : RowView) :
    (row.shift b).shift a = row.shift (a + b) := by
  have hparent : ∀ q, a + (b + q) = a + b + q := fun q => (Nat.add_assoc a b q).symm
  simp only [RowView.shift, Option.map_map, Function.comp_def, hparent]

theorem RowView.shift_zero (row : RowView) : row.shift 0 = row := by
  have hparent : row.parent.map (0 + ·) = row.parent := by
    simp only [Nat.zero_add, Option.map_id_fun', id_eq]
  rw [RowView.shift, hparent]

namespace Table

/-- A table that shows the rows of `t` and, behind them, those of `other`, whose parents have moved
along. -/
structure Concatenates (t other whole : Table) : Prop where
  size : whole.size = t.size + other.size
  first : ∀ p < t.size, whole.view? p = t.view? p
  second : ∀ i, whole.view? (t.size + i) = (other.view? i).map (RowView.shift t.size)
  documents : whole.documents = t.documents ++ other.documents.map (t.size + ·)

/-- Two tables of which the same is observed. -/
structure Alike (t u : Table) : Prop where
  views : t.views = u.views
  documents : t.documents = u.documents

/-! ## Documents by what is seen of rows -/

/-- The documents of a table show in its rows. -/
theorem Made.documents_congr {t u : Table} (ht : t.Made) (hu : u.Made) (h : t.views = u.views) :
    t.documents = u.documents := by
  have hsize : t.size = u.size := by rw [← length_views, h, length_views]
  have hdocument : t.isDocument = u.isDocument := by
    funext p
    rw [isDocument, isDocument, ← getElem?_views, h, getElem?_views]
  rw [ht.structured.documents, hu.structured.documents, hsize, hdocument]

theorem Made.alike {t u : Table} (ht : t.Made) (hu : u.Made) (h : t.views = u.views) :
    t.Alike u := ⟨h, ht.documents_congr hu h⟩

/-! ## Appending -/

section

variable {t other : Table} (ht : t.Made) (hother : other.Made)

include ht hother

theorem Made.views_append :
    (t.append other).views = t.views ++ other.views.map (RowView.shift t.size) :=
  Table.views_append ht.named hother.named hother.sound

theorem Made.size_append : (t.append other).size = t.size + other.size := by
  rw [← length_views, ht.views_append hother, List.length_append, List.length_map, length_views,
    length_views]

theorem Made.view?_append_of_lt {p : Nat} (hp : p < t.size) :
    (t.append other).view? p = t.view? p := by
  rw [← getElem?_views, ht.views_append hother,
    List.getElem?_append_left (by rwa [length_views]), getElem?_views]

theorem Made.view?_append_add (i : Nat) :
    (t.append other).view? (t.size + i) = (other.view? i).map (RowView.shift t.size) := by
  rw [← getElem?_views, ht.views_append hother, ← length_views t,
    List.getElem?_append_right (Nat.le_add_right ..), Nat.add_sub_cancel_left, List.getElem?_map,
    getElem?_views]

/-- The documents of both tables, of which the later ones have moved. -/
theorem Made.documents_append :
    (t.append other).documents = t.documents ++ other.documents.map (t.size + ·) := by
  have hold : ∀ p ∈ List.range t.size, (t.append other).isDocument p = t.isDocument p := by
    intro p hp
    rw [isDocument, isDocument, ht.view?_append_of_lt hother (List.mem_range.1 hp)]
  have hnew : (t.append other).isDocument ∘ (t.size + ·) = other.isDocument := by
    funext i
    show (t.append other).isDocument (t.size + i) = _
    rw [isDocument, isDocument, ht.view?_append_add hother, Option.any_map]
    rfl
  rw [(Made.appended ht hother).structured.documents, ht.structured.documents,
    hother.structured.documents, ht.size_append hother, List.range_add, List.filter_append,
    List.filter_congr hold, List.filter_map, hnew]

/-- **A table that is appended stands behind the rows that were there.** -/
theorem Made.concatenates_append : Concatenates t other (t.append other) :=
  ⟨ht.size_append hother, fun _ => ht.view?_append_of_lt hother, ht.view?_append_add hother,
    ht.documents_append hother⟩

end

/-! ## The laws of appending -/

theorem made_empty : Table.empty.Made :=
  .stored (.created (show Database.create 0 "db" {} = .ok (_, _) from rfl))

theorem Made.append_assoc {t other more : Table} (ht : t.Made) (hother : other.Made)
    (hmore : more.Made) :
    ((t.append other).append more).Alike (t.append (other.append more)) := by
  have hboth := Made.appended ht hother
  have hlater := Made.appended hother hmore
  refine (Made.appended hboth hmore).alike (.appended ht hlater) ?_
  have hshift : RowView.shift t.size ∘ RowView.shift other.size =
      RowView.shift (t.size + other.size) := funext (RowView.shift_shift t.size other.size)
  rw [hboth.views_append hmore, ht.views_append hlater, ht.views_append hother,
    hother.views_append hmore, List.map_append, List.map_map, hshift, List.append_assoc,
    ht.size_append hother]

theorem Made.append_empty {t : Table} (ht : t.Made) : (t.append .empty).Alike t :=
  (Made.appended ht made_empty).alike ht (by
    rw [ht.views_append made_empty]
    exact List.append_nil _)

theorem Made.empty_append {t : Table} (ht : t.Made) : (Table.empty.append t).Alike t :=
  (Made.appended made_empty ht).alike ht (by
    have hshift : RowView.shift Table.empty.size = id := funext RowView.shift_zero
    rw [made_empty.views_append ht, hshift, List.map_id]
    exact List.nil_append _)

/-- **Appending concatenates what is observed of two tables**, whatever documents they hold and
however their names are numbered.  On what is observed it is associative, and the empty table makes
no difference on either side. -/
theorem Made.append_observed {t other : Table} (ht : t.Made) (hother : other.Made) :
    Concatenates t other (t.append other) ∧
      (∀ {more : Table}, more.Made →
        ((t.append other).append more).Alike (t.append (other.append more))) ∧
      (t.append .empty).Alike t ∧ (Table.empty.append t).Alike t :=
  ⟨ht.concatenates_append hother, fun hmore => ht.append_assoc hother hmore, ht.append_empty,
    ht.empty_append⟩

/-- The names of the second document have other numbers in the first one, and get new ones. -/
theorem Made.append_observed_renumbered :
    let t : Table := ⟨#[⟨.document, 0, 3, 0, 0, [0x61]⟩, ⟨.element, 1, 2, 1, 1, []⟩,
      ⟨.attribute, 1, 1, 0, 2, []⟩], ⟨#[[0x72], [0x6B]]⟩⟩
    let other : Table := ⟨#[⟨.document, 0, 3, 0, 0, [0x62]⟩, ⟨.element, 1, 2, 0, 1, []⟩,
      ⟨.element, 1, 1, 0, 2, []⟩], ⟨#[[0x6B], [0x6E]]⟩⟩
    t.Made ∧ other.Made ∧
      (t.append other).rows.toList.map Row.name = [0, 1, 2, 0, 2, 3] ∧
      (t.append other).documents = [0, 3] ∧ Concatenates t other (t.append other) ∧
      ((t.append other).append t).Alike (t.append (other.append t)) := by
  intro t other
  have hfirst : ((Draft.start [0x61] {}).attempts
      [.openElement [0x72], .attribute ([0x6B]) [], .closeElement]).finish = .ok t := by
    cbv
  have hsecond : ((Draft.start [0x62] {}).attempts
      [.openElement [0x6B], .openElement [0x6E], .closeElement, .closeElement]).finish =
      .ok other := by
    cbv
  have ht : t.Made := .finished hfirst
  have hother : other.Made := .finished hsecond
  obtain ⟨hconcatenates, hassoc, _⟩ := ht.append_observed hother
  exact ⟨ht, hother, by cbv, by cbv, hconcatenates, hassoc ht⟩

end Table

end XmlStore
