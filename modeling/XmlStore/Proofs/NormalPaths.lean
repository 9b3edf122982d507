import XmlStore.Database.Path

/-!
# Normal forms of paths

* `Path.MadeOf` — the parts of a path: texts without slashes that make it up with a slash between
  them.  Every path has them, in one way only.
* `Path.Normal` — the normal form, told by the segments of a path.
* `Path.normalize_eq_self_iff` — the paths in normal form are those that stay as they are.
* `Path.normalize_canonical` — what a path is brought to, told by its parts.
-/

namespace XmlStore.Path

variable {path normal s : Bytes} {parts : List Bytes} {b : UInt8}

/-! ## Segments -/

theorem segments_eq_splitOn (path : Bytes) : segments path = path.splitOn slash := by
  induction path with
  | nil => rfl
  | cons b rest ih =>
    rw [segments, ih, List.splitOn, List.splitOn, List.splitOnP_cons_eq_if_modifyHead]
    simp only [beq_iff_eq]
    cases h : rest.splitOnP (· == slash) with
    | nil => exact absurd h (List.splitOnP_ne_nil _ _)
    | cons first others => rfl

theorem segments_ne_nil (path : Bytes) : segments path ≠ [] := by
  rw [segments_eq_splitOn]
  exact List.splitOn_ne_nil _ _

theorem segments_append_slash (path rest : Bytes) :
    segments (path ++ slash :: rest) = segments path ++ segments rest := by
  simp only [segments_eq_splitOn, List.splitOn_append_cons_self]

theorem segments_of_slash_notMem (h : slash ∉ s) : segments s = [s] := by
  rw [segments_eq_splitOn, List.splitOn_eq_singleton h]

theorem join_segments (path : Bytes) : join (segments path) = path := by
  rw [segments_eq_splitOn, join, List.intercalate_splitOn]

theorem segments_join (hparts : parts ≠ []) (h : ∀ part ∈ parts, slash ∉ part) :
    segments (join parts) = parts := by
  rw [segments_eq_splitOn, join, List.splitOn_intercalate slash h hparts]

theorem segments_join_slash (hparts : parts ≠ []) (h : ∀ part ∈ parts, slash ∉ part) :
    segments (join parts ++ [slash]) = parts ++ [[]] := by
  rw [segments_append_slash, segments_join hparts h]
  rfl

/-- A segment is made of bytes of the path that are not slashes. -/
theorem mem_of_mem_segments (hs : s ∈ segments path) (hb : b ∈ s) : b ∈ path ∧ b ≠ slash := by
  induction path generalizing s with
  | nil =>
    rw [segments, List.mem_singleton] at hs
    rw [hs] at hb
    cases hb
  | cons c rest ih =>
    rw [segments] at hs
    split at hs
    · rcases List.mem_cons.1 hs with rfl | hs
      · cases hb
      · exact ⟨List.mem_cons_of_mem c (ih hs hb).1, (ih hs hb).2⟩
    · rename_i hc
      cases hrest : segments rest with
      | nil => exact absurd hrest (segments_ne_nil rest)
      | cons first others =>
        simp only [hrest] at hs
        -- the first segment of the rest has grown by one byte
        rcases List.mem_cons.1 hs with rfl | hs
        · rcases List.mem_cons.1 hb with rfl | hb
          · exact ⟨List.mem_cons_self, hc⟩
          · have := ih (hrest ▸ List.mem_cons_self) hb
            exact ⟨List.mem_cons_of_mem c this.1, this.2⟩
        · have := ih (hrest ▸ List.mem_cons_of_mem first hs) hb
          exact ⟨List.mem_cons_of_mem c this.1, this.2⟩

theorem mem_join (h : b ∈ join parts) : b = slash ∨ ∃ part ∈ parts, b ∈ part := by
  induction parts with
  | nil => cases h
  | cons first others ih =>
    cases others with
    | nil =>
      rw [join, List.intercalate_singleton] at h
      exact Or.inr ⟨first, List.mem_cons_self, h⟩
    | cons second others =>
      rw [join, List.intercalate_cons_cons, List.append_assoc] at h
      rcases List.mem_append.1 h with h | h
      · exact Or.inr ⟨first, List.mem_cons_self, h⟩
      · rcases List.mem_cons.1 h with rfl | h
        · exact Or.inl rfl
        · exact (ih h).imp_right fun ⟨part, hpart, hb⟩ =>
            ⟨part, List.mem_cons_of_mem first hpart, hb⟩

/-- A path is made of parts without slashes, with a slash between them. -/
structure MadeOf (path : Bytes) (parts : List Bytes) : Prop where
  ne_nil : parts ≠ []
  apart : ∀ part ∈ parts, slash ∉ part
  joined : join parts = path

/-- Every path is made of its segments, and of nothing else. -/
theorem madeOf_iff : MadeOf path parts ↔ parts = segments path := by
  constructor
  · intro h
    rw [← h.joined, segments_join h.ne_nil h.apart]
  · rintro rfl
    exact ⟨segments_ne_nil path, fun _ hpart hslash => (mem_of_mem_segments hpart hslash).2 rfl,
      join_segments path⟩

/-! ## Backslashes -/

theorem backslash_notMem_unify (path : Bytes) : backslash ∉ unify path := by
  intro h
  obtain ⟨b, _, hb⟩ := List.mem_map.1 h
  split at hb
  · cases hb
  · contradiction

theorem unify_eq_self (h : backslash ∉ path) : unify path = path := by
  rw [unify, List.map_congr_left (g := id), List.map_id]
  intro b hb
  exact if_neg fun hbackslash : b = backslash => h (hbackslash ▸ hb)

/-! ## Normal forms -/

/-- A path in normal form: only its last segment may be empty, and no segment stands for a place. -/
structure Normal (path : Bytes) : Prop where
  unified : backslash ∉ path
  named : [] ∉ (segments path).dropLast
  absolute : ∀ part ∈ segments path, isRelative part = false

theorem Normal.nil : Normal [] := by
  refine ⟨List.not_mem_nil, List.not_mem_nil, fun part hpart => ?_⟩
  rw [List.mem_singleton.1 hpart]
  rfl

/-- What can be a segment in a path in normal form. -/
structure Named (part : Bytes) : Prop where
  ne_nil : part ≠ []
  apart : slash ∉ part
  unified : backslash ∉ part
  absolute : isRelative part = false

theorem backslash_notMem_join (h : ∀ part ∈ parts, Named part) : backslash ∉ join parts := by
  intro hmem
  rcases mem_join hmem with hslash | ⟨part, hpart, hb⟩
  · cases hslash
  · exact (h part hpart).unified hb

/-- Names with a slash between them are a path in normal form. -/
theorem normal_join (h : ∀ part ∈ parts, Named part) : Normal (join parts) := by
  by_cases hparts : parts = []
  · rw [hparts]
    exact Normal.nil
  · have hsegments := segments_join hparts fun part hpart => (h part hpart).apart
    refine ⟨backslash_notMem_join h, ?_, ?_⟩
    · rw [hsegments]
      exact fun hmem => (h [] (List.dropLast_subset parts hmem)).ne_nil rfl
    · rw [hsegments]
      exact fun part hpart => (h part hpart).absolute

/-- So they are with one more slash at the end. -/
theorem normal_join_slash (hparts : parts ≠ []) (h : ∀ part ∈ parts, Named part) :
    Normal (join parts ++ [slash]) := by
  have hsegments := segments_join_slash hparts fun part hpart => (h part hpart).apart
  refine ⟨?_, ?_, ?_⟩
  · intro hmem
    rcases List.mem_append.1 hmem with hmem | hmem
    · exact backslash_notMem_join h hmem
    · cases List.mem_singleton.1 hmem
  · rw [hsegments, List.dropLast_concat]
    exact fun hmem => (h [] hmem).ne_nil rfl
  · rw [hsegments]
    intro part hpart
    rcases List.mem_append.1 hpart with hpart | hpart
    · exact (h part hpart).absolute
    · rw [List.mem_singleton.1 hpart]
      rfl

/-- Where only the last segment may be empty, there is no slash at the front. -/
theorem not_slash_isPrefix (h : [] ∉ (segments path).dropLast) : ¬ [slash] <+: path := by
  rintro ⟨rest, rfl⟩
  refine h ?_
  rw [List.singleton_append, ← List.nil_append (slash :: rest), segments_append_slash,
    List.dropLast_append_of_ne_nil (segments_ne_nil rest)]
  exact List.mem_append_left _ (List.mem_singleton.2 rfl)

/-- Nor does a slash follow a slash there. -/
theorem not_slashes_isInfix (h : [] ∉ (segments path).dropLast) : ¬ [slash, slash] <:+: path := by
  rintro ⟨front, rest, rfl⟩
  refine h ?_
  rw [List.append_assoc, List.cons_append, List.singleton_append, segments_append_slash,
    ← List.nil_append (slash :: rest), segments_append_slash,
    List.dropLast_append_of_ne_nil (by simp [segments_ne_nil]),
    List.dropLast_append_of_ne_nil (segments_ne_nil rest)]
  exact List.mem_append_right _ (List.mem_append_left _ (List.mem_singleton.2 rfl))

/-- The named parts of a path with a slash between them, and one behind them if the path ends with
one. -/
def rejoin (path : Bytes) (parts : List Bytes) : Bytes :=
  let named := parts.filter (· ≠ [])
  join named ++ if named ≠ [] ∧ [slash] <:+ path then [slash] else []

theorem endsWithSlash_iff : endsWithSlash path = true ↔ [slash] <:+ path := by
  rw [endsWithSlash, beq_iff_eq, List.getLast?_eq_some_iff]
  exact exists_congr fun front => eq_comm

/-- Names make up a text that is not empty, if there are any. -/
theorem isEmpty_join (h : [] ∉ parts) : (join parts).isEmpty = decide (parts = []) := by
  match parts with
  | [] => rfl
  | [] :: _ => exact absurd List.mem_cons_self h
  | [b :: first] => rfl
  | (b :: first) :: second :: others => rw [join, List.intercalate_cons_cons]; rfl

/-- **What a path is brought to**: it is refused for a segment that stands for a place, and else its
named segments are joined again. -/
theorem normalize_cases (path : Bytes) :
    (normalize path = .error (unify path) ∧
        ∃ part ∈ segments (unify path), isRelative part = true) ∨
      normalize path = .ok (rejoin (unify path) (segments (unify path))) ∧
        ∀ part ∈ segments (unify path), isRelative part = false := by
  by_cases hrelative : ∃ part ∈ segments (unify path), isRelative part = true
  · refine Or.inl ⟨?_, hrelative⟩
    rw [normalize, if_pos (List.any_eq_true.2 hrelative)]
  · have habsolute : ∀ part ∈ segments (unify path), isRelative part = false :=
      fun part hpart => Bool.eq_false_iff.2 fun hrel => hrelative ⟨part, hpart, hrel⟩
    refine Or.inr ⟨?_, habsolute⟩
    have hfilter : (segments (unify path)).filter (!·.isEmpty) =
        (segments (unify path)).filter (· ≠ []) :=
      List.filter_congr fun part _ => by cases part <;> rfl
    have hempty : (join ((segments (unify path)).filter (· ≠ []))).isEmpty =
        decide ((segments (unify path)).filter (· ≠ []) = []) := isEmpty_join (by simp)
    rw [normalize, if_neg (mt List.any_eq_true.1 hrelative), rejoin, hfilter]
    simp only [hempty, ← decide_not, Bool.and_eq_true, decide_eq_true_eq, endsWithSlash_iff,
      and_comm (a := [slash] <:+ unify path)]
    split <;> simp

/-- What is returned is in normal form. -/
theorem normal_of_normalize (h : normalize path = .ok normal) : Normal normal := by
  rcases normalize_cases path with ⟨herror, _⟩ | ⟨hok, habsolute⟩
  · cases herror.symm.trans h
  · rw [← Except.ok.inj (hok.symm.trans h), rejoin]
    have hnamed : ∀ part ∈ (segments (unify path)).filter (· ≠ []), Named part := by
      intro part hpart
      obtain ⟨hmem, hne⟩ := List.mem_filter.1 hpart
      exact ⟨of_decide_eq_true hne, fun hslash => (mem_of_mem_segments hmem hslash).2 rfl,
        fun hback => backslash_notMem_unify path (mem_of_mem_segments hmem hback).1,
        habsolute part hmem⟩
    split
    · rename_i hclosed
      exact normal_join_slash hclosed.1 hnamed
    · rw [List.append_nil]
      exact normal_join hnamed

/-- A path in normal form is its named segments joined again.  Its last segment is empty if it ends
with a slash, and else it is a name like the others. -/
theorem Normal.rejoin_segments (h : Normal path) : rejoin path (segments path) = path := by
  obtain ⟨init, last, hsplit⟩ : ∃ init last, segments path = init ++ [last] :=
    ⟨_, _, (List.dropLast_concat_getLast (segments_ne_nil path)).symm⟩
  have hnamed := h.named
  rw [hsplit, List.dropLast_concat] at hnamed
  have hinit : init.filter (· ≠ []) = init :=
    List.filter_eq_self.2 fun part hpart => decide_eq_true fun hnil => hnamed (hnil ▸ hpart)
  have hslash : ∀ part ∈ init, slash ∉ part := fun part hpart hb =>
    (mem_of_mem_segments (hsplit ▸ List.mem_append_left _ hpart) hb).2 rfl
  rw [rejoin, hsplit, List.filter_append, hinit]
  by_cases hlast : last = []
  · rw [hlast] at hsplit
    by_cases hnone : init = []
    · rw [hnone] at hsplit
      rw [← join_segments path, hsplit, hnone, hlast]
      rfl
    · have hpath : join init ++ [slash] = path := by
        rw [← join_segments path, hsplit, ← segments_join_slash hnone hslash, join_segments]
      rw [hlast]
      simp [hnone, ← hpath]
  · have hopen : ¬ [slash] <:+ path := by
      rintro ⟨front, hfront⟩
      rw [← hfront, segments_append_slash] at hsplit
      exact hlast (List.singleton_inj.1 (List.append_inj' hsplit rfl).2).symm
    simp [hlast, hopen, ← hsplit, join_segments]

/-- **The paths in normal form are those that stay as they are.** -/
theorem normalize_eq_self_iff : normalize path = .ok path ↔ Normal path := by
  refine ⟨normal_of_normalize, fun h => ?_⟩
  have hunify := unify_eq_self h.unified
  rcases normalize_cases path with ⟨_, part, hpart, hrelative⟩ | ⟨hok, _⟩
  · rw [hunify] at hpart
    exact absurd hrelative (Bool.eq_false_iff.1 (h.absolute part hpart))
  · rw [hok, hunify, h.rejoin_segments]

/-! ## Directory and file name -/

theorem slash_notMem_splitLast (path : Bytes) : slash ∉ (splitLast path).2 := by
  intro h
  have := List.all_eq_true.1 List.all_takeWhile slash (List.mem_reverse.1 h)
  simp at this

/-- The directory is empty, or it ends with a slash. -/
theorem splitLast_directory (path : Bytes) :
    (splitLast path).1 = [] ∨ [slash] <:+ (splitLast path).1 := by
  rw [splitLast]
  cases h : path.reverse.dropWhile (· != slash) with
  | nil => exact Or.inl rfl
  | cons b front =>
    have hb : b = slash := by
      have := List.head?_dropWhile_not (· != slash) path.reverse
      rw [h] at this
      simpa using this
    exact Or.inr ⟨front.reverse, by rw [hb]; simp⟩

/-- Another file name in the same directory. -/
theorem segments_splitLast_append (path : Bytes) {file : Bytes} (hfile : slash ∉ file) :
    segments ((splitLast path).1 ++ file) = (segments path).dropLast ++ [file] := by
  have hcut := append_splitLast path
  have hlast := slash_notMem_splitLast path
  rcases splitLast_directory path with hnone | ⟨front, hfront⟩
  · rw [hnone, List.nil_append] at hcut ⊢
    rw [← hcut, segments_of_slash_notMem hlast, segments_of_slash_notMem hfile]
    rfl
  · rw [← hfront, List.append_assoc, List.singleton_append] at hcut ⊢
    rw [← hcut, segments_append_slash, segments_append_slash, segments_of_slash_notMem hlast,
      segments_of_slash_notMem hfile, List.dropLast_concat]

/-! ## What a path is brought to -/

/-- What can be relied on in a path that was normalized. -/
structure Canonical (normal : Bytes) : Prop where
  unified : backslash ∉ normal
  doubled : ¬ [slash, slash] <:+: normal
  leading : ¬ [slash] <+: normal
  /-- It stays as it is. -/
  idempotent : normalize normal = .ok normal
  /-- It is its directory and its file name. -/
  cut : (splitLast normal).1 ++ (splitLast normal).2 = normal
  directory : (splitLast normal).1 = [] ∨ [slash] <:+ (splitLast normal).1
  file : slash ∉ (splitLast normal).2

theorem Normal.canonical (h : Normal path) : Canonical path :=
  ⟨h.unified, not_slashes_isInfix h.named, not_slash_isPrefix h.named, normalize_eq_self_iff.2 h,
    append_splitLast path, splitLast_directory path, slash_notMem_splitLast path⟩

theorem isRelative_iff : isRelative s = true ↔ s = Utf8.encode "." ∨ s = Utf8.encode ".." := by
  rw [isRelative, Bool.or_eq_true, beq_iff_eq, beq_iff_eq]
  rfl

/-- **What a path is brought to**, told by its parts once the backslashes are slashes: it is refused
if one of them stands for a place; else those with a name are joined again, and the result needs no
further care. -/
theorem normalize_canonical (path : Bytes) :
    ∃ parts, (∀ others, MadeOf (unify path) others ↔ others = parts) ∧
      (∀ refused, normalize path = .error refused ↔
        refused = unify path ∧ ∃ part ∈ parts, part = Utf8.encode "." ∨ part = Utf8.encode "..") ∧
      (∀ normal, normalize path = .ok normal ↔
        (∀ part ∈ parts, part ≠ Utf8.encode "." ∧ part ≠ Utf8.encode "..") ∧
          normal = rejoin (unify path) parts) ∧
      ∀ normal, normalize path = .ok normal → Canonical normal := by
  refine ⟨segments (unify path), fun _ => madeOf_iff, ?_, ?_,
    fun _ h => (normal_of_normalize h).canonical⟩
  · intro refused
    rcases normalize_cases path with ⟨herror, part, hpart, hrelative⟩ | ⟨hok, habsolute⟩
    · rw [herror, Except.error.injEq, eq_comm, iff_self_and]
      exact fun _ => ⟨part, hpart, isRelative_iff.1 hrelative⟩
    · rw [hok]
      refine ⟨nofun, ?_⟩
      rintro ⟨_, part, hpart, hplace⟩
      exact absurd (isRelative_iff.2 hplace) (Bool.eq_false_iff.1 (habsolute part hpart))
  · intro normal
    rcases normalize_cases path with ⟨herror, part, hpart, hrelative⟩ | ⟨hok, habsolute⟩
    · rw [herror]
      refine ⟨nofun, ?_⟩
      rintro ⟨hparts, _⟩
      exact absurd (isRelative_iff.1 hrelative) (not_or.2 (hparts part hpart))
    · rw [hok, Except.ok.injEq, eq_comm, iff_and_self]
      exact fun _ part hpart =>
        not_or.1 (mt isRelative_iff.2 (Bool.eq_false_iff.1 (habsolute part hpart)))

/-- Slashes of both kinds at all places. -/
theorem normalize_canonical_slashes :
    normalize (Utf8.encode "/a\\b//") = .ok (Utf8.encode "a/b/") ∧
      Canonical (Utf8.encode "a/b/") := by
  have hnormal : normalize (Utf8.encode "/a\\b//") = .ok (Utf8.encode "a/b/") := rfl
  obtain ⟨_, _, _, _, hcanonical⟩ := normalize_canonical (Utf8.encode "/a\\b//")
  exact ⟨hnormal, hcanonical _ hnormal⟩

end XmlStore.Path
