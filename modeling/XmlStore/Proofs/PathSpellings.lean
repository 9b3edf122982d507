import XmlStore.Proofs.AdditionHistory
import XmlStore.Proofs.Building

/-!
# Spellings of a path

Paths with the same normal form are spellings of one path.  A document of fragments is named by the
spelling that it is added under, and if the normal form has no file name, the last segment of that
very spelling is taken: there a backslash does not count as a slash.

* `Fragment.exists_document` — documents of fragments are documents that are built call by call.
* `Addition.Alike` — two additions that come to the same.
* `Database.addFragment_alike` — spellings come to the same if the normal form has a file name, or
  if they have the same last segment; unless somebody has the lock, in no other case.
-/

namespace XmlStore

/-! ## Documents of fragments -/

namespace Draft

variable {d d' : Draft}

/-- A draft that comes of two passes comes of the second one over what the first one gives. -/
theorem exists_of_bind_eq_ok {x : Except Refusal Draft} {next : Draft → Except Refusal Draft}
    (h : x >>= next = .ok d') : ∃ d, x = .ok d ∧ next d = .ok d' := by
  cases x with
  | error e => cases h
  | ok d => exact ⟨d, rfl, h⟩

theorem attempts_append (d : Draft) (before after : List Call) :
    d.attempts (before ++ after) = (d.attempts before).attempts after :=
  List.foldl_append

theorem attempts_of_call {c : Call} (h : d.call c = .ok d') : d.attempts [c] = d' := by
  show (d.attempt c).1 = d'
  unfold call at h
  unfold attempt
  split at h
  · cases h
  · exact Except.ok.inj h

end Draft

namespace Fragment

open Draft (exists_of_bind_eq_ok attempts_append attempts_of_call)

mutual

/-- The calls that build a fragment. -/
def calls : Fragment → List Draft.Call
  | element name attributes children =>
    [.openElement name] ++ attributes.map (fun a => .attribute a.1 a.2) ++ callsAll children ++
      [.closeElement]
  | text value => [.text value]
  | comment value => [.comment value]
  | instruction target data => [.instruction target data]

/-- The calls that build fragments, one after the other. -/
def callsAll : List Fragment → List Draft.Call
  | [] => []
  | f :: rest => calls f ++ callsAll rest

end

variable {d d' : Draft}

theorem attempts_of_buildAttributes {attributes : List (Bytes × Bytes)}
    (h : buildAttributes d attributes = .ok d') :
    d.attempts (attributes.map fun a => .attribute a.1 a.2) = d' := by
  induction attributes generalizing d with
  | nil => exact Except.ok.inj h
  | cons a rest ih =>
    obtain ⟨d₁, hcall, hrest⟩ := exists_of_bind_eq_ok h
    rw [List.map_cons, ← List.singleton_append, attempts_append, attempts_of_call hcall]
    exact ih hrest

theorem attempts_of_buildAll {fs : List Fragment}
    (hfs : ∀ f ∈ fs, ∀ {d d' : Draft}, build d f = .ok d' → d.attempts (calls f) = d')
    (h : buildAll d fs = .ok d') : d.attempts (callsAll fs) = d' := by
  induction fs generalizing d with
  | nil => exact Except.ok.inj h
  | cons f rest ih =>
    obtain ⟨hfirst, hothers⟩ := List.forall_mem_cons.1 hfs
    obtain ⟨d₁, hbuild, hrest⟩ := exists_of_bind_eq_ok h
    rw [callsAll, attempts_append, hfirst hbuild]
    exact ih hothers hrest

/-- **A fragment is built by its calls.**  The induction is on the fragment. -/
theorem attempts_of_build {f : Fragment} (h : build d f = .ok d') : d.attempts (calls f) = d' := by
  induction f generalizing d d' with
  | element name attributes children ih =>
    obtain ⟨d₁, hopen, h⟩ := exists_of_bind_eq_ok h
    obtain ⟨d₂, hattributes, h⟩ := exists_of_bind_eq_ok h
    obtain ⟨d₃, hchildren, hclose⟩ := exists_of_bind_eq_ok h
    rw [calls, attempts_append, attempts_append, attempts_append, attempts_of_call hopen,
      attempts_of_buildAttributes hattributes, attempts_of_buildAll ih hchildren,
      attempts_of_call hclose]
  | text value => exact attempts_of_call h
  | comment value => exact attempts_of_call h
  | instruction target data => exact attempts_of_call h

/-- A document of fragments is built call by call, and has their rows. -/
theorem exists_document (name : String) (options : Options) (fragments : List Fragment) :
    ∃ f : Document, f.name = name ∧
      document (Utf8.encode name) options fragments = .ok f.table ∧
      f.table.views = documentRows (Utf8.encode name) (prunedAll options.chop fragments) := by
  obtain ⟨t, hdocument, hviews⟩ := views_document (Utf8.encode name) options fragments
  have hfinished : ((Draft.start (Utf8.encode name) options).attempts (callsAll fragments)).finish =
      .ok t := by
    rw [document] at hdocument
    cases hbuild : buildAll (Draft.start (Utf8.encode name) options) fragments with
    | error e => rw [hbuild] at hdocument; cases hdocument
    | ok d =>
      rw [hbuild] at hdocument
      rw [attempts_of_buildAll (fun _ _ => attempts_of_build) hbuild]
      exact hdocument
  exact ⟨⟨name, options, callsAll fragments, t, hfinished⟩, rfl, hdocument, hviews⟩

end Fragment

/-! ## Additions that come to the same -/

/-- Refusals for the same kind of reason. -/
def Database.Refusal.Like : Database.Refusal → Database.Refusal → Prop
  | nameInvalid _, nameInvalid _ => True
  | busy _, busy _ => True
  | build _, build _ => True
  | _, _ => False

/-- Both are refused for the same kind of reason, or both succeed with the same file name. -/
def Addition.SameResult : Except Database.Refusal Bytes → Except Database.Refusal Bytes → Prop
  | .ok name, .ok name' => name = name'
  | .error e, .error e' => e.Like e'
  | _, _ => False

/-- Two additions that come to the same: with the same result, they leave the same rows. -/
structure Addition.Alike (a b : Addition) : Prop where
  result : SameResult a.result b.result
  rows : a.database.current.table.views = b.database.current.table.views

namespace Database

/-- The last segment of a path as it is spelled. -/
def spelledName (path : String) : Bytes := (Path.splitLast (Utf8.encode path)).2

/-- Whether two spellings of a path with the given normal form lead to the same place. -/
def SpelledAlike (normal : Bytes) (p q : String) : Prop :=
  (Path.splitLast normal).2 ≠ [] ∨ spelledName p = spelledName q

section Add

variable {d : Database} {f g : Document} {path path' : Bytes} (id : Nat)

/-- A document that has no place to go to is refused. -/
theorem add_of_target_eq_none (h : f.target? path = none) :
    ∃ name, (d.add id path f.table).result = .error (.nameInvalid name) ∧
      (d.add id path f.table).database = d := by
  rcases d.add_cases id path f with ⟨name, hadd, _⟩ | ⟨target, htarget, _⟩
  · exact ⟨name, by rw [hadd], by rw [hadd]⟩
  · cases h.symm.trans htarget

/-- What becomes of a document that has a place to go to. -/
theorem add_of_target {target : Target} (hd : d.Made) (h : f.target? path = some target) :
    (d.add id path f.table).result =
        (if 1 < f.table.size ∧ d.locked = true then .error (.busy d.name) else .ok target.name) ∧
      (d.add id path f.table).database.current.table.views =
        if 1 < f.table.size ∧ d.locked = false then
          d.current.table.views ++ f.table.shelved d.current.table.size target.path
        else d.current.table.views := by
  rcases d.add_cases id path f with ⟨_, _, htarget⟩ | ⟨target', htarget, hcases⟩
  · cases htarget.symm.trans h
  · obtain rfl := Option.some.inj (htarget.symm.trans h)
    rcases hcases with ⟨hsmall, _, hadd⟩ | ⟨hlarge, hlocked, hadd⟩ |
      ⟨hlarge, hfree, snapshot, _, hadd, _, htable⟩
    · simp [hadd, Nat.not_lt.2 hsmall]
    · simp [hadd, hlarge, hlocked]
    · simp [hadd, hlarge, hfree, htable,
        Table.views_extended hd.named f.made.named f.made.sound]

theorem result_add_of_free {target : Target} (hd : d.Made) (hfree : d.locked = false)
    (h : f.target? path = some target) : (d.add id path f.table).result = .ok target.name := by
  rw [(add_of_target id hd h).1, if_neg (by simp [hfree])]

/-- Documents that go to the same place and show the same rows there come to the same. -/
theorem add_alike (hd : d.Made) (hplace : f.target? path = g.target? path')
    (hrows : ∀ offset stored, f.table.shelved offset stored = g.table.shelved offset stored) :
    (d.add id path f.table).Alike (d.add id path' g.table) := by
  have hsize : f.table.size = g.table.size := by
    simpa [Table.shelved, Table.length_views] using congrArg List.length (hrows 0 [])
  cases htarget : f.target? path with
  | none =>
    obtain ⟨_, hresult, hsame⟩ := add_of_target_eq_none id (d := d) htarget
    obtain ⟨_, hresult', hsame'⟩ := add_of_target_eq_none id (d := d) (hplace ▸ htarget)
    exact ⟨by rw [hresult, hresult']; trivial, by rw [hsame, hsame']⟩
  | some target =>
    obtain ⟨hresult, hviews⟩ := add_of_target id hd htarget
    obtain ⟨hresult', hviews'⟩ := add_of_target id hd (hplace ▸ htarget)
    refine ⟨?_, by rw [hviews, hviews', hsize, hrows]⟩
    rw [hresult, hresult', hsize]
    split
    · exact trivial
    · exact rfl

end Add

/-- The rows of a document of fragments do not show its name when it is stored. -/
theorem shelved_of_documentRows {t t' : Table} {name name' : Bytes} {fragments : List Fragment}
    (h : t.views = Fragment.documentRows name fragments)
    (h' : t'.views = Fragment.documentRows name' fragments) (offset : Nat) (stored : Bytes) :
    t.shelved offset stored = t'.shelved offset stored := by
  rw [Table.shelved, Table.shelved, h, h']
  rfl

/-- Where a document goes that has its name from the path. -/
theorem target?_of_name {f : Document} {p : String} (hname : f.name = p) {normal : Bytes}
    (hnormal : Path.normalize (Utf8.encode p) = .ok normal) :
    f.target? (Utf8.encode p) =
      let (directory, file) := Path.splitLast normal
      let name := if file = [] then spelledName p else file
      if name = [] then none else some { directory, name } := by
  rw [Document.target?, hnormal, Document.fileName, hname]
  rfl

/-- **Spellings of a path**: additions under paths with the same normal form come to the same if it
has a file name or the paths are spelled with the same last segment.  While nobody has the lock they
do so in no other case. -/
theorem addFragment_alike {d : Database} (hd : d.Made) (id : Nat) (f : Fragment) {p q : String}
    {normal : Bytes} (hp : Path.normalize (Utf8.encode p) = .ok normal)
    (hq : Path.normalize (Utf8.encode q) = .ok normal) :
    (SpelledAlike normal p q → (d.addFragment id (Utf8.encode p) f).Alike
      (d.addFragment id (Utf8.encode q) f)) ∧
    (d.locked = false → (d.addFragment id (Utf8.encode p) f).Alike
      (d.addFragment id (Utf8.encode q) f) → SpelledAlike normal p q) := by
  obtain ⟨g, hname, hbuilt, hviews⟩ := Fragment.exists_document p d.options [f]
  obtain ⟨g', hname', hbuilt', hviews'⟩ := Fragment.exists_document q d.options [f]
  have htarget := target?_of_name hname hp
  have htarget' := target?_of_name hname' hq
  rw [addFragment, addFragment, hbuilt, hbuilt']
  simp only
  constructor
  · intro halike
    refine add_alike id hd ?_ (shelved_of_documentRows hviews hviews')
    rw [htarget, htarget']
    rcases halike with hfile | hspelled
    · simp only [if_neg hfile]
    · simp only [hspelled]
  · rintro hfree ⟨hresult, _⟩
    by_contra hnot
    obtain ⟨hfile, hspelled⟩ := not_or.1 hnot
    -- both names are the last segments as they are spelled, and these differ
    simp only [not_not.1 hfile, if_true] at htarget htarget'
    by_cases hempty : spelledName p = [] <;> by_cases hempty' : spelledName q = []
    · exact hspelled (hempty.trans hempty'.symm)
    · rw [if_pos hempty] at htarget
      rw [if_neg hempty'] at htarget'
      obtain ⟨_, hrefused, _⟩ := add_of_target_eq_none id (d := d) htarget
      rw [hrefused, result_add_of_free id hd hfree htarget'] at hresult
      exact hresult
    · rw [if_neg hempty] at htarget
      rw [if_pos hempty'] at htarget'
      obtain ⟨_, hrefused, _⟩ := add_of_target_eq_none id (d := d) htarget'
      rw [hrefused, result_add_of_free id hd hfree htarget] at hresult
      exact hresult
    · rw [if_neg hempty] at htarget
      rw [if_neg hempty'] at htarget'
      rw [result_add_of_free id hd hfree htarget,
        result_add_of_free id hd hfree htarget'] at hresult
      exact hspelled hresult

/-- A file name behind a backslash is found as behind a slash. -/
theorem addFragment_alike_file :
    let d : Database := ⟨"db", {}, .ofTable 0 "db" .empty {}, false⟩
    let f : Fragment := .element [101] [] []
    Path.normalize (Utf8.encode "a\\b") = .ok [97, 47, 98] ∧
      Path.normalize (Utf8.encode "a//b") = .ok [97, 47, 98] ∧
      (d.addFragment 1 (Utf8.encode "a\\b") f).Alike (d.addFragment 1 (Utf8.encode "a//b") f) := by
  intro d f
  have hcreated : Database.create 0 "db" {} = .ok (d, _) := rfl
  have hp : Path.normalize (Utf8.encode "a\\b") = .ok [97, 47, 98] := by decide
  have hq : Path.normalize (Utf8.encode "a//b") = .ok [97, 47, 98] := by decide
  exact ⟨hp, hq, (addFragment_alike (.created hcreated) 1 f hp hq).1 (Or.inl (by decide))⟩

/-- A backslash at the end of a path does not count as a slash in the name of the document. -/
theorem addFragment_alike_backslash :
    let d : Database := ⟨"db", {}, .ofTable 0 "db" .empty {}, false⟩
    let f : Fragment := .element [101] [] []
    d.Made ∧ Path.normalize (Utf8.encode "a\\") = .ok [97, 47] ∧
      Path.normalize (Utf8.encode "a/") = .ok [97, 47] ∧
      ¬ (d.addFragment 1 (Utf8.encode "a\\") f).Alike (d.addFragment 1 (Utf8.encode "a/") f) := by
  intro d f
  have hcreated : Database.create 0 "db" {} = .ok (d, _) := rfl
  refine ⟨.created hcreated, by decide, by decide, fun halike => ?_⟩
  have hresult := halike.result
  have hstored : (d.addFragment 1 (Utf8.encode "a\\") f).result = .ok [97, 92] := by cbv
  have hrefused :
      (d.addFragment 1 (Utf8.encode "a/") f).result = .error (.nameInvalid [97, 47]) := by cbv
  rw [hstored, hrefused] at hresult
  exact hresult

end Database

end XmlStore
