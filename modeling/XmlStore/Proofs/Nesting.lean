import Mathlib.Logic.Relation
import XmlStore.Table.Basic

/-!
# Rows that lie in one another

What the rows of a table say about its tree is told by their kinds, distances, sizes and numbers of
attributes; names and values do not matter for it.

* `Table.places` — the rows of a table without names and values; appending a table appends them.
* `Nested` — every row lies in the row of its parent, and between a row and its parent there is no
  other row that it lies in.  `Nested.append` puts two tables together, and `Nested.grow` adds a row
  in the innermost of those that are still open.
* `Nested.mem_span_iff` — hence a row lies in another one exactly if parents lead to it.
* `Nested.exists_document`, `Nested.document_after` — the documents follow one another without a
  gap.
* `Attributed` — the attributes of an element are the rows that follow it.
-/

namespace XmlStore

/-- A row without its name and value. -/
structure Place where
  kind : NodeKind
  distance : Nat
  size : Nat
  attributes : Nat
  deriving DecidableEq, Repr

/-- The place of a row. -/
def Row.place (row : Row) : Place := ⟨row.kind, row.distance, row.size, row.attributes⟩

/-- The places of the rows of a table. -/
def Table.places (t : Table) : List Place := t.rows.toList.map Row.place

/-! ## Nesting -/

/-- Rows that lie in one another: a row fits into the table, only documents have no parent, every
other row lies in the row of its parent, and in no row between the two. -/
structure Nested (l : List Place) : Prop where
  fits : ∀ {p : Nat} {a : Place}, l[p]? = some a → 0 < a.size ∧ p + a.size ≤ l.length
  root : ∀ {p : Nat} {a : Place}, l[p]? = some a → (a.distance = 0 ↔ a.kind = .document)
  within : ∀ {p : Nat} {a : Place}, l[p]? = some a → a.kind ≠ .document →
    ∃ (q : Nat) (b : Place), p = q + a.distance ∧ l[q]? = some b ∧
      (b.kind = .document ∨ b.kind = .element) ∧ p + a.size ≤ q + b.size
  innermost : ∀ {q p : Nat} {b a : Place}, l[q]? = some b → l[p]? = some a → q < p →
    p < q + b.size → a.kind ≠ .document ∧ q + a.distance ≤ p

theorem lt_length_of_getElem? {α : Type} {l : List α} {p : Nat} {a : α} (h : l[p]? = some a) :
    p < l.length :=
  (List.getElem?_eq_some_iff.1 h).1

/-- The rows that are still open, `last` being the last one of them: they reach to the end of the
table, and their parents are open, too. -/
structure OpenRows (l : List Place) (isOpen : Nat → Prop) (last : Nat) : Prop where
  ends : ∀ {p : Nat} {a : Place}, isOpen p → l[p]? = some a → p + a.size = l.length
  parents : ∀ {p q : Nat} {a : Place}, isOpen p → l[p]? = some a → a.kind ≠ .document →
    p = q + a.distance → isOpen q
  kinds : ∀ {p : Nat} {a : Place}, isOpen p → l[p]? = some a →
    a.kind = .document ∨ a.kind = .element
  le_last : ∀ {p : Nat}, isOpen p → p ≤ last
  last_lt : last < l.length
  last : isOpen last

/-- What becomes of the place of a row when one more row is added at the end: it grows if it is
open, and may gain an attribute. -/
structure Kept (isOpen : Nat → Prop) (gains : Option Nat) (p : Nat) (a a' : Place) : Prop where
  kind : a'.kind = a.kind
  distance : a'.distance = a.distance
  size : isOpen p ∧ a'.size = a.size + 1 ∨ ¬ isOpen p ∧ a'.size = a.size
  attributes : a'.attributes = if gains = some p then a.attributes + 1 else a.attributes

/-- A row is added at the end. -/
structure Grows (isOpen : Nat → Prop) (gains : Option Nat) (new : Place) (l l' : List Place) :
    Prop where
  length : l'.length = l.length + 1
  kept : ∀ {p : Nat} {a a' : Place}, l[p]? = some a → l'[p]? = some a' →
    Kept isOpen gains p a a'
  getElem?_new : l'[l.length]? = some new
  size_new : new.size = 1

namespace Grows

variable {isOpen : Nat → Prop} {gains : Option Nat} {new : Place} {l l' : List Place}

/-- Every old row is still there. -/
theorem keeps (h : Grows isOpen gains new l l') {p : Nat} {a : Place} (ha : l[p]? = some a) :
    ∃ a', l'[p]? = some a' ∧ Kept isOpen gains p a a' := by
  have hp := lt_length_of_getElem? ha
  have hlength := h.length
  have ha' : l'[p]? = some l'[p] := List.getElem?_eq_getElem (by omega)
  exact ⟨l'[p], ha', h.kept ha ha'⟩

/-- Every row is an old one or the new one. -/
theorem cases (h : Grows isOpen gains new l l') {p : Nat} {a' : Place} (ha' : l'[p]? = some a') :
    (∃ a, l[p]? = some a ∧ Kept isOpen gains p a a') ∨ p = l.length ∧ a' = new := by
  have hp := lt_length_of_getElem? ha'
  have hlength := h.length
  by_cases hlt : p < l.length
  · have ha : l[p]? = some l[p] := List.getElem?_eq_getElem hlt
    exact Or.inl ⟨l[p], ha, h.kept ha ha'⟩
  · obtain rfl : p = l.length := by omega
    exact Or.inr ⟨rfl, Option.some.inj (ha'.symm.trans h.getElem?_new)⟩

end Grows

/-- The only row of a table that holds a document without content. -/
theorem eq_of_single {p : Nat} {a b : Place} (h : [b][p]? = some a) : p = 0 ∧ a = b := by
  cases p with
  | zero => exact ⟨rfl, (Option.some.inj h).symm⟩
  | succ p => simp at h

namespace Nested

theorem nil : Nested [] :=
  ⟨fun h => by simp at h, fun h => by simp at h, fun h => by simp at h, fun h => by simp at h⟩

/-- A document without content. -/
theorem document : Nested [⟨.document, 0, 1, 0⟩] where
  fits h := by
    obtain ⟨rfl, rfl⟩ := eq_of_single h
    exact ⟨Nat.one_pos, Nat.le_refl 1⟩
  root h := by
    obtain ⟨rfl, rfl⟩ := eq_of_single h
    exact ⟨fun _ => rfl, fun _ => rfl⟩
  within h hkind := by
    obtain ⟨rfl, rfl⟩ := eq_of_single h
    exact absurd rfl hkind
  innermost _ ha hlt := by
    obtain ⟨rfl, rfl⟩ := eq_of_single ha
    omega

/-- A row that is not a document has a parent. -/
theorem distance_ne_zero {l : List Place} (h : Nested l) {p : Nat} {a : Place}
    (ha : l[p]? = some a) (hkind : a.kind ≠ .document) : a.distance ≠ 0 :=
  fun hzero => hkind ((h.root ha).1 hzero)

/-- Where a row of two lists of places stands. -/
theorem getElem?_append_cases {l m : List Place} {p : Nat} {a : Place}
    (h : (l ++ m)[p]? = some a) :
    l[p]? = some a ∨ ∃ i, p = l.length + i ∧ m[i]? = some a := by
  by_cases hp : p < l.length
  · rw [List.getElem?_append_left hp] at h
    exact Or.inl h
  · rw [List.getElem?_append_right (by omega)] at h
    exact Or.inr ⟨p - l.length, by omega, h⟩

theorem getElem?_append_of_left {l m : List Place} {p : Nat} {a : Place} (h : l[p]? = some a) :
    (l ++ m)[p]? = some a := by
  rw [List.getElem?_append_left (lt_length_of_getElem? h), h]

theorem getElem?_append_of_right {l m : List Place} {i : Nat} {a : Place} (h : m[i]? = some a) :
    (l ++ m)[l.length + i]? = some a := by
  rw [List.getElem?_append_right (by omega), Nat.add_sub_cancel_left, h]

/-- **Two tables one after the other.** -/
theorem append {l m : List Place} (hl : Nested l) (hm : Nested m) : Nested (l ++ m) := by
  refine { fits := ?fits, root := ?root, within := ?within, innermost := ?innermost }
  case fits =>
    intro p a h
    rw [List.length_append]
    rcases getElem?_append_cases h with h | ⟨i, rfl, hm'⟩
    · have := hl.fits h
      omega
    · have := hm.fits hm'
      omega
  case root =>
    intro p a h
    rcases getElem?_append_cases h with h | ⟨i, rfl, hm'⟩
    · exact hl.root h
    · exact hm.root hm'
  case within =>
    intro p a h hkind
    rcases getElem?_append_cases h with h | ⟨i, rfl, hm'⟩
    · obtain ⟨q, b, hp, hb, hrest⟩ := hl.within h hkind
      exact ⟨q, b, hp, getElem?_append_of_left hb, hrest⟩
    · obtain ⟨q, b, hp, hb, hbkind, hle⟩ := hm.within hm' hkind
      exact ⟨l.length + q, b, by omega, getElem?_append_of_right hb, hbkind, by omega⟩
  case innermost =>
    intro q p b a hb ha hlt hin
    rcases getElem?_append_cases hb with hb | ⟨j, rfl, hb'⟩
    · rcases getElem?_append_cases ha with ha | ⟨i, rfl, ha'⟩
      · exact hl.innermost hb ha hlt hin
      · -- a row of the first table does not reach into the second one
        have := (hl.fits hb).2
        omega
    · rcases getElem?_append_cases ha with ha | ⟨i, rfl, ha'⟩
      · have := lt_length_of_getElem? ha
        omega
      · obtain ⟨hkind, hle⟩ := hm.innermost hb' ha' (by omega) (by omega)
        exact ⟨hkind, by omega⟩

/-- **A row is added in the innermost open row.** -/
theorem grow {l l' : List Place} (h : Nested l) {isOpen : Nat → Prop} {last : Nat}
    {gains : Option Nat} {new : Place} (ho : OpenRows l isOpen last)
    (hg : Grows isOpen gains new l l') (hkind : new.kind ≠ .document)
    (hdistance : l.length = last + new.distance) : Nested l' := by
  have hlast := ho.last
  have hlastLt := ho.last_lt
  have habove : l[last]? = some l[last] := List.getElem?_eq_getElem hlastLt
  have hsizeNew := hg.size_new
  have hlength := hg.length
  refine { fits := ?fits, root := ?root, within := ?within, innermost := ?innermost }
  case fits =>
    intro p a' ha'
    rcases hg.cases ha' with ⟨a, ha, hsame⟩ | ⟨rfl, rfl⟩
    · have := h.fits ha
      have := hsame.size
      omega
    · omega
  case root =>
    intro p a' ha'
    rcases hg.cases ha' with ⟨a, ha, hsame⟩ | ⟨rfl, rfl⟩
    · rw [hsame.kind, hsame.distance]
      exact h.root ha
    · constructor
      · intro hzero
        omega
      · intro hdocument
        exact absurd hdocument hkind
  case within =>
    intro p a' ha' hdocument
    rcases hg.cases ha' with ⟨a, ha, hsame⟩ | ⟨rfl, rfl⟩
    · rw [hsame.kind] at hdocument
      obtain ⟨q, b, hpq, hb, hbkind, hle⟩ := h.within ha hdocument
      obtain ⟨b', hb', hbsame⟩ := hg.keeps hb
      refine ⟨q, b', hsame.distance ▸ hpq, hb', hbsame.kind ▸ hbkind, ?_⟩
      have hbsize := hbsame.size
      rcases hsame.size with ⟨hopen, hsize⟩ | ⟨_, hsize⟩
      · -- the parent of an open row is open and grows with it
        have hq : isOpen q := ho.parents hopen ha hdocument hpq
        have := hbsize.resolve_right fun hnot => hnot.1 hq
        omega
      · omega
    · obtain ⟨b', hb', hbsame⟩ := hg.keeps habove
      refine ⟨last, b', hdistance, hb', hbsame.kind ▸ ho.kinds hlast habove, ?_⟩
      have := ho.ends hlast habove
      have := hbsame.size.resolve_right fun hnot => hnot.1 hlast
      omega
  case innermost =>
    intro q p b' a' hb' ha' hlt hin
    rcases hg.cases hb' with ⟨b, hb, hbsame⟩ | ⟨rfl, rfl⟩
    · rcases hg.cases ha' with ⟨a, ha, hsame⟩ | ⟨rfl, rfl⟩
      · have hp := lt_length_of_getElem? ha
        have hin' : p < q + b.size := by
          rcases hbsame.size with ⟨hopen, _⟩ | ⟨_, hsize⟩
          · have := ho.ends hopen hb
            omega
          · omega
        obtain ⟨hdocument, hle⟩ := h.innermost hb ha hlt hin'
        exact ⟨hsame.kind ▸ hdocument, hsame.distance ▸ hle⟩
      · -- only open rows reach past the old end
        have := (h.fits hb).2
        have hopen : isOpen q := by
          rcases hbsame.size with ⟨hopen, _⟩ | ⟨_, hsize⟩
          · exact hopen
          · omega
        have := ho.le_last hopen
        exact ⟨hkind, by omega⟩
    · have := lt_length_of_getElem? ha'
      omega

variable {l : List Place}

/-- The row with this number has that one for its parent. -/
def HasParent (l : List Place) (p q : Nat) : Prop :=
  ∃ a, l[p]? = some a ∧ a.distance ≠ 0 ∧ p = q + a.distance

/-- **A row lies in another one exactly if parents lead from it to that one.** -/
theorem mem_span_iff (h : Nested l) {p q : Nat} {b : Place} (hp : p < l.length)
    (hb : l[q]? = some b) :
    q ≤ p ∧ p < q + b.size ↔ Relation.ReflTransGen (HasParent l) p q := by
  constructor
  · -- the parents of a row come earlier, and do not pass a row that it lies in
    induction p using Nat.strongRecOn with
    | ind p ih =>
      rintro ⟨hle, hin⟩
      by_cases heq : q = p
      · exact heq ▸ Relation.ReflTransGen.refl
      · have ha : l[p]? = some l[p] := List.getElem?_eq_getElem hp
        obtain ⟨hkind, hnear⟩ := h.innermost hb ha (by omega) hin
        have hdistance := h.distance_ne_zero ha hkind
        have hstep : HasParent l p (p - l[p].distance) := ⟨l[p], ha, hdistance, by omega⟩
        exact Relation.ReflTransGen.head hstep
          (ih (p - l[p].distance) (by omega) (by omega) ⟨by omega, by omega⟩)
  · intro hchain
    -- along parents the end of a row can only move up
    have hends : ∀ a, l[p]? = some a → q ≤ p ∧ p + a.size ≤ q + b.size := by
      induction hchain using Relation.ReflTransGen.head_induction_on with
      | refl =>
        intro a ha
        obtain rfl : a = b := Option.some.inj (ha.symm.trans hb)
        exact ⟨Nat.le_refl q, Nat.le_refl _⟩
      | @head p r hstep _ ih =>
        intro a ha
        obtain ⟨a', ha', hdistance, hpr⟩ := hstep
        obtain rfl : a' = a := Option.some.inj (ha'.symm.trans ha)
        have hkind : a'.kind ≠ .document := fun hkind => hdistance ((h.root ha).2 hkind)
        obtain ⟨r', c, hpr', hc, _, hle⟩ := h.within ha hkind
        obtain rfl : r' = r := by omega
        have := ih (lt_length_of_getElem? hc) c hc
        omega
    have ha : l[p]? = some l[p] := List.getElem?_eq_getElem hp
    have := hends l[p] ha
    have := h.fits ha
    omega

/-- Every row lies in a document. -/
theorem exists_document (h : Nested l) {p : Nat} {a : Place} (ha : l[p]? = some a) :
    ∃ q b, q ≤ p ∧ l[q]? = some b ∧ b.kind = .document ∧ p + a.size ≤ q + b.size := by
  induction p using Nat.strongRecOn generalizing a with
  | ind p ih =>
    by_cases hkind : a.kind = .document
    · exact ⟨p, a, Nat.le_refl p, ha, hkind, Nat.le_refl _⟩
    · obtain ⟨r, c, hpr, hc, _, hle⟩ := h.within ha hkind
      have hdistance := h.distance_ne_zero ha hkind
      obtain ⟨q, b, hqr, hb, hbkind, hend⟩ := ih r (by omega) hc
      exact ⟨q, b, by omega, hb, hbkind, by omega⟩

/-- The row behind a document is a document. -/
theorem document_after (h : Nested l) {q : Nat} {b a : Place} (hb : l[q]? = some b)
    (hbkind : b.kind = .document) (ha : l[q + b.size]? = some a) : a.kind = .document := by
  obtain ⟨r, c, hle, hc, hckind, hend⟩ := h.exists_document ha
  have hasize := (h.fits ha).1
  have hbsize := (h.fits hb).1
  -- the document of that row is neither before `q` nor in the document at `q`
  rcases Nat.lt_trichotomy r q with hlt | rfl | hgt
  · exact absurd hbkind (h.innermost hc hb hlt (by omega)).1
  · obtain rfl : c = b := Option.some.inj (hc.symm.trans hb)
    omega
  · by_cases heq : r = q + b.size
    · subst heq
      obtain rfl : c = a := Option.some.inj (hc.symm.trans ha)
      exact hckind
    · exact absurd hckind (h.innermost hb hc hgt (by omega)).1

end Nested

/-! ## Attributes -/

/-- The attributes of an element are the rows that follow it, as many as it says; rows that are
neither documents nor elements have nothing below them. -/
structure Attributed (l : List Place) : Prop where
  owner : ∀ {p : Nat} {a : Place}, l[p]? = some a → a.kind = .attribute →
    ∃ (e : Nat) (b : Place), p = e + a.distance ∧ l[e]? = some b ∧ b.kind = .element ∧
      0 < a.distance ∧ a.distance ≤ b.attributes
  owned : ∀ {e k : Nat} {b : Place}, l[e]? = some b → 0 < k → k ≤ b.attributes →
    ∃ a : Place, l[e + k]? = some a ∧ a.kind = .attribute ∧ a.distance = k
  childless : ∀ {p : Nat} {a : Place}, l[p]? = some a → a.kind ≠ .element → a.attributes = 0
  leaf : ∀ {p : Nat} {a : Place}, l[p]? = some a → a.kind ≠ .document → a.kind ≠ .element →
    a.size = 1

namespace Attributed

theorem nil : Attributed [] :=
  ⟨fun h => by simp at h, fun h => by simp at h, fun h => by simp at h, fun h => by simp at h⟩

/-- A document without content. -/
theorem document : Attributed [⟨.document, 0, 1, 0⟩] where
  owner h hkind := by
    obtain ⟨rfl, rfl⟩ := eq_of_single h
    cases hkind
  owned h hpos hle := by
    obtain ⟨rfl, rfl⟩ := eq_of_single h
    exact absurd hle (Nat.not_le.2 hpos)
  childless h _ := by
    obtain ⟨rfl, rfl⟩ := eq_of_single h
    rfl
  leaf h hkind := by
    obtain ⟨rfl, rfl⟩ := eq_of_single h
    exact absurd rfl hkind

/-- **Two tables one after the other.** -/
theorem append {l m : List Place} (hl : Attributed l) (hm : Attributed m) :
    Attributed (l ++ m) := by
  refine { owner := ?owner, owned := ?owned, childless := ?childless, leaf := ?leaf }
  case owner =>
    intro p a h hkind
    rcases Nested.getElem?_append_cases h with h | ⟨i, rfl, hm'⟩
    · obtain ⟨e, b, hp, hb, hrest⟩ := hl.owner h hkind
      exact ⟨e, b, hp, Nested.getElem?_append_of_left hb, hrest⟩
    · obtain ⟨e, b, hp, hb, hrest⟩ := hm.owner hm' hkind
      exact ⟨l.length + e, b, by omega, Nested.getElem?_append_of_right hb, hrest⟩
  case owned =>
    intro e k b h hpos hle
    rcases Nested.getElem?_append_cases h with h | ⟨i, rfl, hm'⟩
    · obtain ⟨a, ha, hspec⟩ := hl.owned h hpos hle
      exact ⟨a, Nested.getElem?_append_of_left ha, hspec⟩
    · obtain ⟨a, ha, hspec⟩ := hm.owned hm' hpos hle
      exact ⟨a, Nat.add_assoc .. ▸ Nested.getElem?_append_of_right ha, hspec⟩
  case childless =>
    intro p a h
    rcases Nested.getElem?_append_cases h with h | ⟨i, rfl, hm'⟩
    · exact hl.childless h
    · exact hm.childless hm'
  case leaf =>
    intro p a h
    rcases Nested.getElem?_append_cases h with h | ⟨i, rfl, hm'⟩
    · exact hl.leaf h
    · exact hm.leaf hm'

/-- **A row is added at the end.**  If it is an attribute, it follows those of its element, which
gains it. -/
theorem grow {l l' : List Place} (h : Attributed l) {isOpen : Nat → Prop} {last : Nat}
    {gains : Option Nat} {new : Place} (ho : OpenRows l isOpen last)
    (hg : Grows isOpen gains new l l') (hnone : new.attributes = 0)
    (hnew : gains = none ∧ new.kind ≠ .attribute ∨ ∃ e b, gains = some e ∧ l[e]? = some b ∧
      b.kind = .element ∧ new.kind = .attribute ∧ l.length = e + new.distance ∧
      new.distance = b.attributes + 1) : Attributed l' := by
  have hlength := hg.length
  refine { owner := ?owner, owned := ?owned, childless := ?childless, leaf := ?leaf }
  case owner =>
    intro p a' ha' hkind
    rcases hg.cases ha' with ⟨a, ha, hsame⟩ | ⟨rfl, rfl⟩
    · obtain ⟨e, b, hp, hb, hbkind, hpos, hle⟩ := h.owner ha (hsame.kind ▸ hkind)
      obtain ⟨b', hb', hbsame⟩ := hg.keeps hb
      have hattributes := hbsame.attributes
      refine ⟨e, b', hsame.distance ▸ hp, hb', hbsame.kind ▸ hbkind, hsame.distance ▸ hpos, ?_⟩
      rw [hsame.distance]
      split at hattributes <;> omega
    · rcases hnew with ⟨_, hnot⟩ | ⟨e, b, rfl, hb, hbkind, _, hend, hdistance⟩
      · exact absurd hkind hnot
      · obtain ⟨b', hb', hbsame⟩ := hg.keeps hb
        have hattributes := hbsame.attributes
        rw [if_pos rfl] at hattributes
        exact ⟨e, b', hend, hb', hbsame.kind ▸ hbkind, by omega, by omega⟩
  case owned =>
    intro e k b' hb' hpos hle
    rcases hg.cases hb' with ⟨b, hb, hbsame⟩ | ⟨rfl, rfl⟩
    · by_cases hk : k ≤ b.attributes
      · obtain ⟨a, ha, hkind, hdistance⟩ := h.owned hb hpos hk
        obtain ⟨a', ha', hsame⟩ := hg.keeps ha
        exact ⟨a', ha', hsame.kind.trans hkind, hsame.distance.trans hdistance⟩
      · -- the attribute that this element has gained
        have hattributes := hbsame.attributes
        rcases hnew with ⟨rfl, _⟩ | ⟨e₀, b₀, rfl, hb₀, _, hkind, hend, hdistance⟩
        · rw [if_neg (by simp)] at hattributes
          omega
        · split at hattributes
          · rename_i he
            obtain rfl := Option.some.inj he
            obtain rfl : b₀ = b := Option.some.inj (hb₀.symm.trans hb)
            have hk : e₀ + k = l.length := by omega
            exact ⟨new, hk ▸ hg.getElem?_new, hkind, by omega⟩
          · omega
    · omega
  case childless =>
    intro p a' ha' hkind
    rcases hg.cases ha' with ⟨a, ha, hsame⟩ | ⟨rfl, rfl⟩
    · rw [hsame.attributes, if_neg]
      · exact h.childless ha (hsame.kind ▸ hkind)
      · intro hgains
        rcases hnew with ⟨hno, _⟩ | ⟨e, b, he, hb, hbkind, _⟩
        · rw [hno] at hgains
          cases hgains
        · obtain rfl : e = p := Option.some.inj (he.symm.trans hgains)
          obtain rfl : b = a := Option.some.inj (hb.symm.trans ha)
          exact hkind (hsame.kind.trans hbkind)
    · exact hnone
  case leaf =>
    intro p a' ha' hdocument helement
    rcases hg.cases ha' with ⟨a, ha, hsame⟩ | ⟨rfl, rfl⟩
    · rw [hsame.kind] at hdocument helement
      have hsize := h.leaf ha hdocument helement
      -- open rows are documents or elements
      have hclosed : ¬ isOpen p := fun hopen => (ho.kinds hopen ha).elim hdocument helement
      have := hsame.size.resolve_left fun hopen => hclosed hopen.1
      omega
    · exact hg.size_new

/-- The attribute rows whose parent is an element are those that follow it. -/
theorem mem_owned_iff {l : List Place} (h : Attributed l) {e p : Nat} {b : Place}
    (hb : l[e]? = some b) :
    (∃ a, l[p]? = some a ∧ a.kind = .attribute ∧ p = e + a.distance) ↔
      e < p ∧ p ≤ e + b.attributes := by
  constructor
  · rintro ⟨a, ha, hkind, hp⟩
    obtain ⟨e', b', hp', hb', _, hpos, hle⟩ := h.owner ha hkind
    obtain rfl : e' = e := by omega
    obtain rfl : b' = b := Option.some.inj (hb'.symm.trans hb)
    omega
  · rintro ⟨hlt, hle⟩
    obtain ⟨a, ha, hkind, hdistance⟩ := h.owned hb (k := p - e) (by omega) (by omega)
    have hep : e + (p - e) = p := by omega
    exact ⟨a, hep ▸ ha, hkind, by omega⟩

end Attributed

end XmlStore
