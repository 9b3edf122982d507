import XmlStore.Proofs.Nesting
import XmlStore.Table.Draft

/-!
# Drafts are nested

The size of an open row is not known yet, but what it would be if the document ended here is.

* `Draft.places` — the rows of a draft, the open ones reaching to the end.
* `Draft.Sound` — they are nested, the open ones have the elements that were opened, and attributes
  are admitted only where they follow those of the innermost element.
* `Draft.Sound.perform` — every call keeps a draft sound; the calls that add a row do so in the
  innermost open one (`Draft.grows_of_push`, `Draft.grows_addAttribute`).
* `Draft.Sound.finish` — hence the table of a finished draft is nested.
-/

namespace XmlStore

namespace Table

theorem rows_push (t : Table) (kind : NodeKind) (distance : Nat) (name value : Bytes) :
    (t.push kind distance name value).rows =
      t.rows.push ⟨kind, distance, 1, 0, (t.names.intern name).1, value⟩ := rfl

/-- The place of a row in a table of some size; an open row reaches to its end. -/
def placeAt (size : Nat) (opened : List Nat) (p : Nat) (row : Row) : Place :=
  ⟨row.kind, row.distance, if p ∈ opened then size - p else row.size, row.attributes⟩

/-- The places of the rows of a table while some of them are open. -/
def placesWhile (t : Table) (opened : List Nat) : List Place :=
  t.rows.toList.mapIdx (placeAt t.size opened)

@[simp] theorem length_placesWhile (t : Table) (opened : List Nat) :
    (t.placesWhile opened).length = t.size := by
  simp [placesWhile, size]

theorem getElem?_placesWhile (t : Table) (opened : List Nat) (p : Nat) :
    (t.placesWhile opened)[p]? = t.rows[p]?.map (placeAt t.size opened p) := by
  simp [placesWhile]

theorem placesWhile_nil (t : Table) : t.placesWhile [] = t.places := by
  apply List.ext_getElem?
  intro p
  rw [getElem?_placesWhile, places, List.getElem?_map, Array.getElem?_toList]
  rfl

/-- A row that is sealed gets the size that it has while it is open. -/
theorem placesWhile_sealRow (t : Table) {p : Nat} {opened : List Nat} (h : p ∉ opened) :
    (Draft.sealRow t p).placesWhile opened = t.placesWhile (p :: opened) := by
  have hsize : (Draft.sealRow t p).size = t.size := Array.size_modify
  apply List.ext_getElem?
  intro q
  rw [getElem?_placesWhile, getElem?_placesWhile, hsize, Draft.sealRow, Array.getElem?_modify]
  by_cases hq : p = q
  · subst hq
    rw [if_pos rfl, Option.map_map]
    apply Option.map_congr
    intro row _
    simp [placeAt, h]
  · rw [if_neg hq]
    apply Option.map_congr
    intro row _
    simp [placeAt, Ne.symm hq]

end Table

namespace Draft

/-- The open rows: the elements and, below all of them, the document. -/
def openRows (d : Draft) : List Nat := d.openElements ++ [0]

/-- The places of the rows of a draft, as if everything were closed now. -/
def places (d : Draft) : List Place := d.table.placesWhile d.openRows

@[simp] theorem length_places (d : Draft) : d.places.length = d.size :=
  d.table.length_placesWhile d.openRows

theorem getElem?_places (d : Draft) (p : Nat) :
    d.places[p]? = d.table.rows[p]?.map (Table.placeAt d.size d.openRows p) :=
  d.table.getElem?_placesWhile d.openRows p

theorem innermost_mem_openRows (d : Draft) : d.innermost ∈ d.openRows := by
  unfold innermost openRows
  cases d.openElements <;> simp

/-- A draft whose rows lie in one another.  Attributes are admitted while the innermost element has
nothing else below it. -/
structure Sound (d : Draft) : Prop where
  nested : Nested d.places
  attributed : Attributed d.places
  descending : d.openRows.Pairwise (· > ·)
  document : ∃ a, d.places[0]? = some a ∧ a.kind = .document
  elements : ∀ e ∈ d.openElements, ∃ a, d.places[e]? = some a ∧ a.kind = .element ∧
    ∃ q ∈ d.openRows, e = q + a.distance
  window : d.attributesOpen = true → ∃ e rest a, d.openElements = e :: rest ∧
    d.places[e]? = some a ∧ d.size = e + a.attributes + 1

namespace Sound

variable {d : Draft}

theorem exists_place (h : d.Sound) {p : Nat} (hp : p ∈ d.openRows) :
    ∃ a, d.places[p]? = some a ∧ (a.kind = .document ∨ a.kind = .element) := by
  rcases List.mem_append.1 hp with hp | hp
  · obtain ⟨a, ha, hkind, _⟩ := h.elements p hp
    exact ⟨a, ha, Or.inr hkind⟩
  · obtain rfl := List.mem_singleton.1 hp
    obtain ⟨a, ha, hkind⟩ := h.document
    exact ⟨a, ha, Or.inl hkind⟩

theorem lt_size (h : d.Sound) {p : Nat} (hp : p ∈ d.openRows) : p < d.size := by
  obtain ⟨a, ha, _⟩ := h.exists_place hp
  exact d.length_places ▸ lt_length_of_getElem? ha

theorem le_innermost (h : d.Sound) {p : Nat} (hp : p ∈ d.openRows) : p ≤ d.innermost := by
  have hdescending := h.descending
  unfold openRows at hdescending hp
  unfold innermost
  cases helements : d.openElements with
  | nil =>
    rw [helements] at hp
    simpa using hp
  | cons e rest =>
    rw [helements] at hdescending hp
    rcases List.mem_cons.1 hp with rfl | hp
    · exact Nat.le_refl p
    · exact Nat.le_of_lt ((List.pairwise_cons.1 hdescending).1 p hp)

/-- The open rows of a sound draft. -/
theorem openRows (h : d.Sound) : OpenRows d.places (· ∈ d.openRows) d.innermost := by
  refine
    { ends := ?ends, parents := ?parents, kinds := ?kinds, le_last := h.le_innermost,
      last_lt := ?last_lt, last := d.innermost_mem_openRows }
  case ends =>
    intro p a hp ha
    rw [getElem?_places, Option.map_eq_some_iff] at ha
    obtain ⟨row, _, rfl⟩ := ha
    have := h.lt_size hp
    rw [length_places, Table.placeAt, if_pos hp]
    exact Nat.add_sub_cancel' (Nat.le_of_lt this)
  case parents =>
    intro p q a hp ha hkind hpq
    rcases List.mem_append.1 hp with hp | hp
    · obtain ⟨a', ha', _, q', hq', hpq'⟩ := h.elements p hp
      obtain rfl : a' = a := Option.some.inj (ha'.symm.trans ha)
      have : q' = q := by omega
      exact this ▸ hq'
    · obtain rfl := List.mem_singleton.1 hp
      obtain ⟨a', ha', hdocument⟩ := h.document
      obtain rfl : a' = a := Option.some.inj (ha'.symm.trans ha)
      exact absurd hdocument hkind
  case kinds =>
    intro p a hp ha
    obtain ⟨a', ha', hkind⟩ := h.exists_place hp
    exact Option.some.inj (ha'.symm.trans ha) ▸ hkind
  case last_lt =>
    rw [length_places]
    exact h.lt_size d.innermost_mem_openRows

end Sound

/-! ## Adding a row -/

/-- What a call does that adds a row: it stands at the end, and the open rows grow. -/
theorem grows {d d' : Draft} {gains : Option Nat} (row : Row)
    (hsize : d'.size = d.size + 1) (hrow : d'.table.rows[d.size]? = some row)
    (hrowSize : row.size = 1)
    (hopen : ∀ p < d.size, (p ∈ d'.openRows ↔ p ∈ d.openRows))
    (hold : ∀ p r r', d.table.rows[p]? = some r → d'.table.rows[p]? = some r' →
      r'.kind = r.kind ∧ r'.distance = r.distance ∧ r'.size = r.size ∧
        r'.attributes = if gains = some p then r.attributes + 1 else r.attributes) :
    Grows (· ∈ d.openRows) gains row.place d.places d'.places := by
  refine ⟨by simp [hsize], ?_, ?_, hrowSize⟩
  · intro p a a' ha ha'
    have hp : p < d.size := d.length_places ▸ lt_length_of_getElem? ha
    rw [getElem?_places, Option.map_eq_some_iff] at ha ha'
    obtain ⟨r, hr, rfl⟩ := ha
    obtain ⟨r', hr', rfl⟩ := ha'
    obtain ⟨hkind, hdistance, hrsize, hattributes⟩ := hold p r r' hr hr'
    refine ⟨hkind, hdistance, ?_, hattributes⟩
    · simp only [Table.placeAt, hsize, hrsize]
      by_cases hmem : p ∈ d.openRows
      · rw [if_pos ((hopen p hp).2 hmem), if_pos hmem]
        exact Or.inl ⟨hmem, by omega⟩
      · rw [if_neg fun h => hmem ((hopen p hp).1 h), if_neg hmem]
        exact Or.inr ⟨hmem, rfl⟩
  · rw [length_places, getElem?_places, hrow, Option.map_some]
    -- the new row has its own size, whether it is open or not
    have hown : (if d.size ∈ d'.openRows then d'.size - d.size else row.size) = row.size := by
      split <;> omega
    rw [Table.placeAt, hown, Row.place]

/-- **A row that is added in the innermost open row keeps a draft sound.** -/
theorem Sound.add {d d' : Draft} (h : d.Sound) {gains : Option Nat} {new : Place}
    (hg : Grows (· ∈ d.openRows) gains new d.places d'.places) (hdocument : new.kind ≠ .document)
    (hdistance : d.size = d.innermost + new.distance) (hnone : new.attributes = 0)
    (hgains : gains = none ∧ new.kind ≠ .attribute ∨ ∃ e b, gains = some e ∧
      d.places[e]? = some b ∧ b.kind = .element ∧ new.kind = .attribute ∧
      d.size = e + new.distance ∧ new.distance = b.attributes + 1)
    (hopen : d'.openElements = d.openElements ∨
      d'.openElements = d.size :: d.openElements ∧ new.kind = .element)
    (hwindow : d'.attributesOpen = true → ∃ e rest a, d'.openElements = e :: rest ∧
      d'.places[e]? = some a ∧ d'.size = e + a.attributes + 1) : d'.Sound := by
  rw [← length_places] at hdistance hgains
  refine
    { nested := h.nested.grow h.openRows hg hdocument hdistance
      attributed := h.attributed.grow h.openRows hg hnone hgains
      descending := ?descending, document := ?document, elements := ?elements
      window := hwindow }
  case descending =>
    rcases hopen with hopen | ⟨hopen, _⟩
    · rw [Draft.openRows, hopen]
      exact h.descending
    · rw [Draft.openRows, hopen, List.cons_append, List.pairwise_cons]
      exact ⟨fun p hp => h.lt_size hp, h.descending⟩
  case document =>
    obtain ⟨a, ha, hkind⟩ := h.document
    obtain ⟨a', ha', hkept⟩ := hg.keeps ha
    exact ⟨a', ha', hkept.kind.trans hkind⟩
  case elements =>
    -- the elements that were open are so still, and so are their parents
    have hstill : ∀ e ∈ d.openElements, ∃ a', d'.places[e]? = some a' ∧ a'.kind = .element ∧
        ∃ q ∈ d.openRows, e = q + a'.distance := by
      intro e he
      obtain ⟨a, ha, hkind, q, hq, heq⟩ := h.elements e he
      obtain ⟨a', ha', hkept⟩ := hg.keeps ha
      exact ⟨a', ha', hkept.kind.trans hkind, q, hq, hkept.distance ▸ heq⟩
    intro e he
    rcases hopen with hopen | ⟨hopen, hkind⟩
    · rw [Draft.openRows, hopen]
      exact hstill e (hopen ▸ he)
    · rw [Draft.openRows, hopen, List.cons_append]
      rcases List.mem_cons.1 (hopen ▸ he) with rfl | he
      · refine ⟨new, d.length_places ▸ hg.getElem?_new, hkind, d.innermost, ?_, ?_⟩
        · exact List.mem_cons_of_mem _ d.innermost_mem_openRows
        · rw [← length_places, hdistance]
      · obtain ⟨a', ha', hkind', q, hq, heq⟩ := hstill e he
        exact ⟨a', ha', hkind', q, List.mem_cons_of_mem _ hq, heq⟩

/-! ## The calls -/

/-- A row is pushed and no other one touched. -/
theorem grows_of_push (d d' : Draft) (row : Row) (hrows : d'.table.rows = d.table.rows.push row)
    (hrowSize : row.size = 1) (hopen : ∀ p < d.size, (p ∈ d'.openRows ↔ p ∈ d.openRows)) :
    Grows (· ∈ d.openRows) none row.place d.places d'.places := by
  refine grows row ?_ ?_ hrowSize hopen ?_
  · rw [size, size, Table.size, Table.size, hrows, Array.size_push]
  · rw [hrows, size, Table.size, Array.getElem?_push_size]
  · intro p r r' hr hr'
    have hp : p < d.table.rows.size := (Array.getElem?_eq_some_iff.1 hr).1
    rw [hrows, Array.getElem?_push_lt hp, ← Array.getElem?_eq_getElem hp, hr] at hr'
    obtain rfl := Option.some.inj hr'
    exact ⟨rfl, rfl, rfl, by simp⟩

/-- The distance of a row that is added in the innermost open one. -/
theorem Sound.size_eq {d : Draft} (h : d.Sound) :
    d.size = d.innermost + (d.size - d.innermost) := by
  have := h.lt_size d.innermost_mem_openRows
  omega

theorem sound_addChild {d : Draft} (h : d.Sound) {kind : NodeKind} (name value : Bytes)
    (hdocument : kind ≠ .document) (hattribute : kind ≠ .attribute) :
    (d.addChild kind name value).Sound := by
  have hg := grows_of_push d (d.addChild kind name value) _ rfl rfl fun p _ => Iff.rfl
  refine h.add hg hdocument h.size_eq rfl (Or.inl ⟨rfl, hattribute⟩) (Or.inl rfl) fun hopen => ?_
  cases hopen

theorem sound_openElement {d : Draft} (h : d.Sound) (name : Bytes) :
    (d.openElement name).Sound := by
  have hsize : (d.addChild .element name []).table.size = d.size + 1 := Array.size_push ..
  have helements : (d.openElement name).openElements = d.size :: d.openElements := by
    show ((d.addChild .element name []).table.size - 1) :: d.openElements = _
    rw [hsize, Nat.add_sub_cancel]
  have hg : Grows (· ∈ d.openRows) none ⟨.element, d.size - d.innermost, 1, 0⟩ d.places
      (d.openElement name).places := by
    refine grows_of_push d _
      ⟨.element, d.size - d.innermost, 1, 0, (d.table.names.intern name).1, []⟩ rfl rfl
      fun p hp => ?_
    rw [openRows, helements, List.cons_append, List.mem_cons]
    exact ⟨fun hmem => hmem.resolve_left (Nat.ne_of_lt hp), Or.inr⟩
  refine h.add hg (by simp) h.size_eq rfl (Or.inl ⟨rfl, by simp⟩)
    (Or.inr ⟨helements, rfl⟩) fun _ => ?_
  exact ⟨d.size, d.openElements, ⟨.element, d.size - d.innermost, 1, 0⟩, helements,
    d.length_places ▸ hg.getElem?_new, hsize⟩

/-- An attribute is pushed, and its element gains it. -/
theorem grows_addAttribute {d : Draft} (h : d.Sound) (name value : Bytes) :
    Grows (· ∈ d.openRows) (some d.innermost) ⟨.attribute, d.size - d.innermost, 1, 0⟩ d.places
      (d.addAttribute name value).places := by
  have hlt := h.lt_size d.innermost_mem_openRows
  have hne : d.innermost ≠ d.size := Nat.ne_of_lt hlt
  have hrows : (d.addAttribute name value).table.rows =
      (d.table.push .attribute (d.size - d.innermost) name value).rows.modify d.innermost
        fun row => { row with attributes := row.attributes + 1 } := rfl
  rw [Table.rows_push] at hrows
  refine grows ⟨.attribute, d.size - d.innermost, 1, 0, (d.table.names.intern name).1, value⟩
    ?_ ?_ rfl (fun p _ => Iff.rfl) ?_
  · rw [size, Table.size, hrows, Array.size_modify, Array.size_push]; rfl
  · rw [hrows, Array.getElem?_modify, if_neg hne]
    exact Array.getElem?_push_size
  · intro p r r' hr hr'
    have hp : p < d.table.rows.size := (Array.getElem?_eq_some_iff.1 hr).1
    rw [hrows, Array.getElem?_modify, Array.getElem?_push_lt hp, ← Array.getElem?_eq_getElem hp,
      hr] at hr'
    by_cases hin : d.innermost = p
    · rw [if_pos hin] at hr'
      obtain rfl := Option.some.inj hr'
      simp [hin]
    · rw [if_neg hin] at hr'
      obtain rfl := Option.some.inj hr'
      simp [hin]

theorem sound_addAttribute {d : Draft} (h : d.Sound) (name value : Bytes)
    (hopen : d.attributesOpen = true) : (d.addAttribute name value).Sound := by
  have hg := grows_addAttribute h name value
  have hsize := h.size_eq
  obtain ⟨e, rest, a, helements, ha, hend⟩ := h.window hopen
  have hin : d.innermost = e := by rw [innermost, helements]; rfl
  obtain ⟨a₀, ha₀, hkind, _⟩ := h.elements e (helements ▸ List.mem_cons_self)
  obtain rfl : a₀ = a := Option.some.inj (ha₀.symm.trans ha)
  refine h.add hg (by simp) hsize rfl (Or.inr ?_) (Or.inl rfl) fun _ => ?_
  · refine ⟨e, a₀, hin ▸ rfl, ha, hkind, rfl, hin ▸ hsize, ?_⟩
    show d.size - d.innermost = a₀.attributes + 1
    omega
  · obtain ⟨a', ha', hkept⟩ := hg.keeps ha
    have hattributes := hkept.attributes
    rw [hin, if_pos rfl] at hattributes
    have hlength := hg.length
    rw [length_places, length_places] at hlength
    exact ⟨e, rest, a', helements, ha', by omega⟩

/-- Closing an element changes no place: the size it gets is the one it would get now. -/
theorem places_closeElement {d : Draft} (h : d.Sound) : d.closeElement.places = d.places := by
  have hdescending := h.descending
  unfold closeElement
  split
  · rfl
  · rename_i e rest helements
    have hopen : d.openRows = e :: (rest ++ [0]) := by rw [openRows, helements]; rfl
    rw [hopen, List.pairwise_cons] at hdescending
    rw [places, places, hopen]
    exact d.table.placesWhile_sealRow fun hmem => Nat.lt_irrefl e (hdescending.1 e hmem)

theorem sound_closeElement {d : Draft} (h : d.Sound) : d.closeElement.Sound := by
  have hplaces := places_closeElement h
  have hdescending := h.descending
  have helements := h.elements
  refine
    { nested := hplaces ▸ h.nested, attributed := hplaces ▸ h.attributed
      descending := ?descending, document := hplaces ▸ h.document, elements := ?elements
      window := ?window }
  case descending =>
    unfold closeElement
    split
    · exact hdescending
    · rename_i e rest hd
      rw [openRows, hd] at hdescending
      exact hdescending.tail
  case elements =>
    rw [hplaces]
    unfold closeElement
    split
    · exact helements
    · rename_i e rest hd
      rw [openRows, hd, List.cons_append, List.pairwise_cons] at hdescending
      intro e' he'
      obtain ⟨a, ha, hkind, q, hq, heq⟩ := helements e' (hd ▸ List.mem_cons_of_mem e he')
      refine ⟨a, ha, hkind, q, ?_, heq⟩
      -- the parent of a row that stays open is not the one that is closed, which comes later
      rw [openRows, hd, List.cons_append] at hq
      refine (List.mem_cons.1 hq).resolve_left fun hqe => ?_
      have := hdescending.1 e' (List.mem_append_left _ he')
      omega
  case window =>
    unfold closeElement
    split
    · rename_i hd
      intro hopen
      obtain ⟨e, rest, _, hcons, _⟩ := h.window hopen
      rw [hd] at hcons
      cases hcons
    · intro hopen
      cases hopen

theorem sound_start (name : Bytes) (options : Options) : (start name options).Sound := by
  have hplaces : (start name options).places = [⟨.document, 0, 1, 0⟩] := rfl
  exact
    { nested := hplaces ▸ .document, attributed := hplaces ▸ .document
      descending := List.pairwise_singleton .., document := ⟨_, rfl, rfl⟩
      elements := fun e he => (by cases he), window := fun hopen => (by cases hopen) }

/-- **Every call that is not refused keeps a draft sound.** -/
theorem Sound.perform {d : Draft} (h : d.Sound) {c : Call} (hc : d.refusal? c = none) :
    (d.perform c).Sound := by
  match c, hc with
  | .openElement name, _ => exact sound_openElement h name
  | .attribute name value, hc =>
    refine sound_addAttribute h name value ?_
    rw [refusal?] at hc
    split at hc
    · assumption
    · cases hc
  | .text value, _ =>
    rw [Draft.perform, addText]
    split
    · exact h
    · exact sound_addChild h [] value (by decide) (by decide)
  | .comment value, _ => exact sound_addChild h [] value (by decide) (by decide)
  | .instruction target data, _ => exact sound_addChild h target data (by decide) (by decide)
  | .closeElement, _ => exact sound_closeElement h

theorem Sound.attempt {d : Draft} (h : d.Sound) (c : Call) : (d.attempt c).1.Sound := by
  unfold Draft.attempt
  split
  · exact h
  · rename_i hc
    exact h.perform hc

/-- The draft after some calls; a call that is refused changes nothing. -/
def attempts (d : Draft) (calls : List Call) : Draft :=
  calls.foldl (fun d c => (d.attempt c).1) d

/-- **Calls keep a draft sound**, whether or not they are refused. -/
theorem Sound.attempts {d : Draft} (h : d.Sound) (calls : List Call) :
    (d.attempts calls).Sound := by
  induction calls generalizing d with
  | nil => exact h
  | cons c rest ih => exact ih (h.attempt c)

/-- **The table of a finished draft is nested.** -/
theorem Sound.finish {d : Draft} (h : d.Sound) {t : Table} (ht : d.finish = .ok t) :
    Nested t.places ∧ Attributed t.places := by
  unfold Draft.finish at ht
  split at ht
  · rename_i helements
    obtain rfl := Except.ok.inj ht
    have hplaces : (sealRow d.table 0).places = d.places := by
      rw [← Table.placesWhile_nil, Table.placesWhile_sealRow _ (List.not_mem_nil), places,
        Draft.openRows, helements]
      rfl
    exact hplaces ▸ ⟨h.nested, h.attributed⟩
  · cases ht

end Draft

end XmlStore
