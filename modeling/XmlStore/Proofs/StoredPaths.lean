import XmlStore.Proofs.AdditionHistory
import XmlStore.Proofs.GrowingAnswers
import XmlStore.Proofs.NormalPaths

/-!
# The paths that documents are stored under

The directory of a stored document comes of a path in normal form, and so does the file name if the
path has one.  Else the file name is the last segment of the name of the document, as it stands
there: it is not brought into normal form.

* `Path.Tidy` — a path without empty segments.
* `Document.target?_cases` — where a document goes is tidy, and in normal form unless its own file
  name is in the way.
* `Database.State.tidy_of_mem_stored` — hence no document of a run is stored under any other path.
* `Database.Made.view?_root_add` — what the document node says after an addition.
-/

namespace XmlStore

namespace Path

/-- A path without empty segments. -/
structure Tidy (path : Bytes) : Prop where
  ne_nil : path ≠ []
  leading : ¬ [slash] <+: path
  doubled : ¬ [slash, slash] <:+: path
  trailing : ¬ [slash] <:+ path

variable {normal file : Bytes}

theorem tidy_of_nil_notMem_segments {path : Bytes} (h : [] ∉ segments path) : Tidy path := by
  have hinit : [] ∉ (segments path).dropLast := fun hmem => h (List.dropLast_subset _ hmem)
  refine ⟨?_, not_slash_isPrefix hinit, not_slashes_isInfix hinit, ?_⟩
  · rintro rfl
    exact h (List.mem_singleton.2 rfl)
  · rintro ⟨front, rfl⟩
    refine h ?_
    rw [segments_append_slash]
    exact List.mem_append_right _ (List.mem_singleton.2 rfl)

namespace Normal

variable (h : Normal normal) (hfile : slash ∉ file)

include h hfile

/-- A file name in the directory of a path in normal form. -/
theorem tidy_splitLast_append (hne : file ≠ []) : Tidy ((splitLast normal).1 ++ file) := by
  refine tidy_of_nil_notMem_segments ?_
  rw [segments_splitLast_append normal hfile, List.mem_append, List.mem_singleton]
  exact not_or.2 ⟨h.named, hne.symm⟩

theorem splitLast_append_iff :
    Normal ((splitLast normal).1 ++ file) ↔ backslash ∉ file ∧ isRelative file = false := by
  have hsegments := segments_splitLast_append normal hfile
  constructor
  · intro hall
    refine ⟨fun hmem => hall.unified (List.mem_append_right _ hmem), hall.absolute file ?_⟩
    rw [hsegments]
    exact List.mem_append_right _ (List.mem_singleton.2 rfl)
  · rintro ⟨hunified, habsolute⟩
    refine ⟨?_, ?_, ?_⟩
    · rw [List.mem_append]
      refine not_or.2 ⟨fun hmem => h.unified ?_, hunified⟩
      rw [← append_splitLast normal]
      exact List.mem_append_left _ hmem
    · rw [hsegments, List.dropLast_concat]
      exact h.named
    · rw [hsegments]
      intro part hpart
      rcases List.mem_append.1 hpart with hpart | hpart
      · exact h.absolute part (List.dropLast_subset _ hpart)
      · rw [List.mem_singleton.1 hpart]
        exact habsolute

end Normal

end Path

namespace Document

variable {f : Document} {path : Bytes}

/-- The last segment of the name of a document can be the last segment of a path in normal form. -/
def HasPlainName (f : Document) : Prop :=
  Path.backslash ∉ f.fileName ∧ f.fileName ≠ Utf8.encode "." ∧ f.fileName ≠ Utf8.encode ".."

theorem hasPlainName_iff :
    f.HasPlainName ↔ Path.backslash ∉ f.fileName ∧ Path.isRelative f.fileName = false := by
  rw [HasPlainName, ← not_or, ← Path.isRelative_iff, Bool.not_eq_true]

/-- **Where a document goes** is in normal form if the path has a file name or the document has a
plain one, and in any case it has no empty segments. -/
theorem target?_cases {target : Target} (h : f.target? path = some target) :
    ∃ normal, Path.normalize path = .ok normal ∧
      target.path = (Path.splitLast normal).1 ++ target.name ∧ Path.Tidy target.path ∧
      (Path.normalize target.path = .ok target.path ↔
        (Path.splitLast normal).2 ≠ [] ∨ f.HasPlainName) := by
  unfold target? at h
  cases hnormalize : Path.normalize path with
  | error refused =>
    rw [hnormalize] at h
    cases h
  | ok normal =>
    have hnormal := Path.normal_of_normalize hnormalize
    simp only [hnormalize, Option.ite_none_left_eq_some, Option.some.injEq] at h
    obtain ⟨hname, rfl⟩ := h
    refine ⟨normal, rfl, rfl, ?_⟩
    rw [Target.path, Path.normalize_eq_self_iff]
    by_cases hfile : (Path.splitLast normal).2 = []
    · rw [if_pos hfile] at hname ⊢
      have hslash := Path.slash_notMem_splitLast (Utf8.encode f.name)
      refine ⟨hnormal.tidy_splitLast_append hslash hname, ?_⟩
      rw [hasPlainName_iff, or_iff_right (not_not.2 hfile)]
      exact hnormal.splitLast_append_iff hslash
    · rw [if_neg hfile] at hname ⊢
      have hslash := Path.slash_notMem_splitLast normal
      refine ⟨hnormal.tidy_splitLast_append hslash hname, iff_of_true ?_ (Or.inl hfile)⟩
      rwa [Path.append_splitLast]

/-- A document of one text. -/
def ofText (name : String) : Document where
  name := name
  options := {}
  calls := [.text [0x78]]
  table := { rows := #[⟨.document, 0, 2, 0, 0, Utf8.encode name⟩, ⟨.text, 1, 1, 0, 0, [0x78]⟩] }
  finished := rfl

end Document

namespace Database

/-- A document that is gained has a place to go to. -/
theorem State.exists_target_of_mem_gained {s : State} {a : Action} {path : Bytes} {f : Document}
    (h : (path, f) ∈ s.gained a) : ∃ target, f.target? path = some target := by
  match a with
  | .add path' f' =>
    rw [gained] at h
    split at h
    · rename_i hgained
      obtain ⟨rfl, rfl⟩ := Prod.mk.inj (List.mem_singleton.1 h)
      rcases s.database.add_cases s.nextId path f with ⟨_, hadd, _⟩ | ⟨target, htarget, _⟩
      · rw [addition, hadd] at hgained
        cases hgained.1
      · exact ⟨target, htarget⟩
    · cases h
  | .lock => cases h
  | .unlock => cases h

/-- **Over a whole run**, no document is stored under a path with empty segments. -/
theorem State.tidy_of_mem_stored {s : State} {actions : List Action} {path : Bytes} {f : Document}
    (h : (path, f) ∈ s.stored actions) : Path.Tidy (f.storedPath path) := by
  induction actions generalizing s with
  | nil => cases h
  | cons a rest ih =>
    rcases List.mem_append.1 h with hgained | hlater
    · obtain ⟨target, htarget⟩ := exists_target_of_mem_gained hgained
      obtain ⟨_, _, _, htidy, _⟩ := Document.target?_cases htarget
      rwa [Document.storedPath, htarget]
    · exact ih hlater

/-- **The path that a document is stored under**: the document node of an added document has the
directory of the path and the file name for its value.  That has no empty segments, and it is in
normal form if and only if the path has a file name or the document has a plain one. -/
theorem Made.view?_root_add {d : Database} (hd : d.Made) (id : Nat) {path : Bytes} {f : Document}
    {name : Bytes} (hok : (d.add id path f.table).result = .ok name) (hsize : 1 < f.table.size) :
    ∃ normal root, Path.normalize path = .ok normal ∧
      (d.add id path f.table).database.current.table.view? d.current.table.size = some root ∧
      root.kind = .document ∧ root.value = (Path.splitLast normal).1 ++ name ∧
      Path.Tidy root.value ∧
      (Path.normalize root.value = .ok root.value ↔
        (Path.splitLast normal).2 ≠ [] ∨ f.HasPlainName) := by
  rcases d.add_cases id path f with ⟨_, hadd, _⟩ | ⟨target, htarget, ⟨hsmall, _⟩ | ⟨_, _, hadd⟩ |
    ⟨_, _, snapshot, _, hadd, _, htable⟩⟩
  · rw [hadd] at hok
    cases hok
  · exact absurd hsize (Nat.not_lt.2 hsmall)
  · rw [hadd] at hok
    cases hok
  · rw [hadd] at hok ⊢
    obtain rfl : target.name = name := Except.ok.inj hok
    obtain ⟨normal, hnormal, hpath, htidy, hiff⟩ := Document.target?_cases htarget
    obtain ⟨row, hrow, _⟩ := Option.map_eq_some_iff.1 f.value_root
    obtain ⟨top, htop⟩ : ∃ top, f.table.view? 0 = some top := ⟨_, by rw [Table.view?, hrow]; rfl⟩
    have hroot := Table.view?_extended_add (.stored hd) f.made target.path 0
    rw [Nat.add_zero, if_pos rfl, htop, Option.map_some, Option.map_some] at hroot
    have hkind : top.kind = .document := f.made.kind_root htop
    exact ⟨normal, { top.shift d.current.table.size with value := target.path }, hnormal,
      htable ▸ hroot, hkind, hpath, htidy, hiff⟩

/-- In the directory `notes`, a document keeps the last segment of its name. -/
theorem Made.view?_root_add_directory :
    let d : Database := ⟨"db", {}, .ofTable 0 "db" .empty {}, false⟩
    let f := Document.ofText "old/b"
    d.Made ∧ (d.add 1 (Utf8.encode "notes\\") f.table).result = .ok (Utf8.encode "b") ∧
      ∃ root, (d.add 1 (Utf8.encode "notes\\") f.table).database.current.table.view? 0 = some root ∧
        root.value = Utf8.encode "notes/b" ∧ Path.normalize root.value = .ok root.value := by
  intro d f
  have hcreated : create 0 "db" {} = .ok (d, _) := rfl
  have hresult : (d.add 1 (Utf8.encode "notes\\") f.table).result = .ok (Utf8.encode "b") := by cbv
  have hplain : f.HasPlainName := by
    unfold Document.HasPlainName
    decide
  have hpath : Path.normalize (Utf8.encode "notes\\") = .ok (Utf8.encode "notes/") := rfl
  obtain ⟨normal, root, hnormal, hroot, _, hvalue, _, hiff⟩ :=
    Made.view?_root_add (.created hcreated) 1 hresult (by decide)
  obtain rfl := Except.ok.inj (hnormal.symm.trans hpath)
  exact ⟨.created hcreated, hresult, root, hroot, hvalue, hiff.2 (Or.inr hplain)⟩

/-- The name of a document is not looked at as a path is: here it stands for the directory above. -/
theorem view?_root_add_not_normal :
    let d : Database := ⟨"db", {}, .ofTable 0 "db" .empty {}, false⟩
    let f := Document.ofText ".."
    d.Made ∧ (d.add 1 (Utf8.encode "dir/") f.table).result = .ok (Utf8.encode "..") ∧
      ((d.add 1 (Utf8.encode "dir/") f.table).database.current.table.view? 0).map
        (fun root => (root.kind, root.value)) = some (.document, Utf8.encode "dir/..") ∧
      Path.normalize (Utf8.encode "dir/..") = .error (Utf8.encode "dir/..") := by
  intro d f
  have hcreated : create 0 "db" {} = .ok (d, _) := rfl
  exact ⟨.created hcreated, by cbv, by cbv, rfl⟩

end Database

end XmlStore
