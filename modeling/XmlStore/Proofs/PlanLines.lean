import XmlStore.Expr.Listing
import XmlStore.Proofs.Compiling

/-!
# The lines of a plan

Names and values stand in a plan as they are.  As long as they hold no line feed, each part of an
expression has a line of its own.

* `Text.IsLine` — texts without a line feed; `Utf8.isLine_lossy` — the text of a value is one unless
  the value has that byte.
* `Expr.walk` — the parts of an expression in depth-first order, each with the number of operators
  above it.
* `Expr.Plain` — expressions whose names and values hold no line feed.
* `Expr.splitOn_plan` — the lines of their plans are those of their parts.
-/

namespace XmlStore

/-! ## Line feeds -/

/-- A text that is written on one line. -/
def Text.IsLine (text : String) : Prop := '\n' ∉ text.toList

instance (text : String) : Decidable (Text.IsLine text) :=
  inferInstanceAs (Decidable ('\n' ∉ text.toList))

theorem Text.isLine_append {a b : String} :
    Text.IsLine (a ++ b) ↔ Text.IsLine a ∧ Text.IsLine b := by
  simp only [Text.IsLine, String.toList_append, List.mem_append, not_or]

theorem Text.isLine_repr (n : Nat) : Text.IsLine n.repr := by
  intro h
  rw [Nat.toList_repr] at h
  have hdigit : '\n'.isDigit = true := Nat.isDigit_of_mem_toDigits (by decide) (by decide) h
  cases hdigit

theorem Text.isLine_toString (b : Bool) : Text.IsLine (toString b) := by
  cases b <;> decide

namespace Utf8

/-- What a first byte announces is a number that its character needs as many bytes for. -/
theorem Lead.ofByte?_spec {b : UInt8} {lead : Lead} (h : Lead.ofByte? b = some lead) :
    (lead.following = 0 ∧ lead.bits = b.toNat) ∨ (lead.following = 1 ∧ 2 ≤ lead.bits) ∨
      (2 ≤ lead.following ∧ (1 ≤ lead.bits ∨ 0x90 ≤ lead.low.toNat)) := by
  simp only [ofByte?, UInt8.lt_iff_toNat_lt, ← UInt8.toNat_inj, UInt8.reduceToNat] at h
  split at h
  · obtain rfl := Option.some.inj h
    exact Or.inl ⟨rfl, rfl⟩
  right
  split at h
  · cases h
  split at h
  · obtain rfl := Option.some.inj h
    refine Or.inl ⟨rfl, ?_⟩
    show 2 ≤ b.toNat - 0xC0
    omega
  right
  split at h
  · obtain rfl := Option.some.inj h
    exact ⟨Nat.le_refl 2, Or.inr (by decide)⟩
  split at h
  · obtain rfl := Option.some.inj h
    exact ⟨Nat.le_refl 2, Or.inl (by decide)⟩
  split at h
  · obtain rfl := Option.some.inj h
    refine ⟨Nat.le_refl 2, Or.inl ?_⟩
    show 1 ≤ b.toNat - 0xE0
    omega
  have hthree : 2 ≤ 3 := by decide
  split at h
  · obtain rfl := Option.some.inj h
    exact ⟨hthree, Or.inr (by decide)⟩
  split at h
  · obtain rfl := Option.some.inj h
    refine ⟨hthree, Or.inl ?_⟩
    show 1 ≤ b.toNat - 0xF0
    omega
  split at h
  · obtain rfl := Option.some.inj h
    exact ⟨hthree, Or.inl (by decide)⟩
  · cases h

theorem low_le_of_continuation {low high b : UInt8} {n : Nat} {rest more : Bytes}
    (h : continuation low high n rest = b :: more) : low ≤ b := by
  unfold continuation at h
  split at h
  · cases h
  · cases h
  · split at h
    · rename_i hin
      obtain ⟨rfl, _⟩ := List.cons.inj h
      exact hin.1
    · cases h

theorem le_foldl (more : Bytes) (n : Nat) :
    n ≤ more.foldl (fun n b => n * 64 + (b.toNat - 0x80)) n := by
  induction more generalizing n with
  | nil => exact Nat.le_refl n
  | cons b rest ih =>
    rw [List.foldl_cons]
    exact Nat.le_trans (by omega) (ih _)

/-- Several bytes are read as a number that one byte is too small for. -/
theorem le_foldl_continuation {b : UInt8} {lead : Lead} {rest : Bytes}
    (hlead : Lead.ofByte? b = some lead) (hmore : lead.following ≠ 0)
    (hlength : (continuation lead.low lead.high lead.following rest).length = lead.following) :
    0x80 ≤ (continuation lead.low lead.high lead.following rest).foldl
      (fun n b => n * 64 + (b.toNat - 0x80)) lead.bits := by
  match hcontinuation : continuation lead.low lead.high lead.following rest, hlength with
  | [], hlength => exact absurd hlength.symm hmore
  | first :: more, hlength =>
    have hlow : lead.low.toNat ≤ first.toNat :=
      UInt8.le_iff_toNat_le.1 (low_le_of_continuation hcontinuation)
    rw [List.foldl_cons]
    rcases Lead.ofByte?_spec hlead with ⟨hnone, _⟩ | ⟨_, hbits⟩ | ⟨hseveral, hbits⟩
    · exact absurd hnone hmore
    · exact Nat.le_trans (by omega) (le_foldl more _)
    · match more, hlength with
      | [], hlength =>
        rw [← hlength, List.length_singleton] at hseveral
        exact absurd hseveral (by decide)
      | second :: more, _ =>
        rw [List.foldl_cons]
        exact Nat.le_trans (by omega) (le_foldl more _)

theorem eq_of_ofNat_eq_lineFeed {n : Nat} (h : Char.ofNat n = '\n') : n = 0x0A := by
  by_cases hn : n.isValidChar
  · rw [Char.ofNat, dif_pos hn] at h
    exact congrArg Char.toNat h
  · rw [Char.ofNat, dif_neg hn] at h
    cases h

/-- **A line feed is read from its own byte only.** -/
theorem mem_of_lineFeed_mem_scan {bytes : Bytes} (h : some '\n' ∈ scan bytes) :
    0x0A ∈ bytes := by
  fun_induction scan bytes with
  | case1 => cases h
  | case2 b rest hlead ih => exact List.mem_cons_of_mem b (ih (by simpa using h))
  | case3 b rest lead hlead more char ih =>
    rcases List.mem_cons.1 h with hchar | h
    · have hread : more.length = lead.following ∧ assemble lead.bits more = '\n' := by
        by_cases hlength : more.length = lead.following
        · rw [show char = some (assemble lead.bits more) from if_pos hlength] at hchar
          exact ⟨hlength, (Option.some.inj hchar).symm⟩
        · rw [show char = none from if_neg hlength] at hchar
          cases hchar
      obtain ⟨hlength, hassemble⟩ := hread
      have hnumber := eq_of_ofNat_eq_lineFeed hassemble
      by_cases hfollowing : lead.following = 0
      · -- a character of one byte is that byte
        rw [hfollowing] at hlength
        rw [List.eq_nil_of_length_eq_zero hlength, List.foldl_nil] at hnumber
        have hbits : lead.bits = b.toNat := by
          rcases Lead.ofByte?_spec hlead with h | h | h
          · exact h.2
          · rw [hfollowing] at h
            cases h.1
          · rw [hfollowing] at h
            cases h.1
        rw [hbits] at hnumber
        exact List.mem_cons.2 (Or.inl (UInt8.toNat_inj.1 hnumber.symm))
      · have hle := le_foldl_continuation hlead hfollowing hlength
        rw [hnumber] at hle
        exact absurd hle (by decide)
    · exact List.mem_cons_of_mem b (List.mem_of_mem_drop (ih h))

/-- **The text of a value is written on one line** unless the value holds a line feed. -/
theorem isLine_lossy {bytes : Bytes} (h : 0x0A ∉ bytes) : Text.IsLine (lossy bytes) := by
  intro hmem
  rw [lossy, String.toList_ofList, List.mem_map] at hmem
  obtain ⟨char, hchar, hlineFeed⟩ := hmem
  cases char with
  | none => exact absurd hlineFeed (by decide)
  | some c =>
    obtain rfl : c = '\n' := hlineFeed
    exact h (mem_of_lineFeed_mem_scan hchar)

end Utf8

/-- The values that a lookup names. -/
def Lookup.named : Lookup → List Bytes
  | exact _ value => [value]
  | range interval => interval.min.toList ++ interval.max.toList

theorem Interval.isLine_endText {value : Option Bytes} (h : ∀ v ∈ value, 0x0A ∉ v) :
    Text.IsLine (endText value) := by
  cases value with
  | none => decide
  | some v =>
    show Text.IsLine ("\"" ++ Utf8.lossy v ++ "\"")
    rw [Text.isLine_append, Text.isLine_append]
    exact ⟨⟨by decide, Utf8.isLine_lossy (h v rfl)⟩, by decide⟩

theorem Interval.isLine_text {i : Interval} (hmin : ∀ v ∈ i.min, 0x0A ∉ v)
    (hmax : ∀ v ∈ i.max, 0x0A ∉ v) : Text.IsLine i.text := by
  rw [text]
  simp only [Text.isLine_append]
  refine ⟨⟨⟨⟨?_, isLine_endText hmin⟩, by decide⟩, isLine_endText hmax⟩, ?_⟩
  · cases i.minIncluded <;> decide
  · cases i.maxIncluded <;> decide

theorem Lookup.isLine_text {lookup : Lookup} (h : ∀ v ∈ lookup.named, 0x0A ∉ v) :
    Text.IsLine lookup.text := by
  have hkind : ∀ kind : ValueKind, Text.IsLine kind.name := fun kind => by cases kind <;> decide
  cases lookup with
  | exact kind value =>
    show Text.IsLine (kind.name ++ " \"" ++ Utf8.lossy value ++ "\"")
    simp only [Text.isLine_append]
    exact ⟨⟨⟨hkind kind, by decide⟩, Utf8.isLine_lossy (h value List.mem_cons_self)⟩, by decide⟩
  | range i =>
    show Text.IsLine (i.kind.name ++ " " ++ i.text)
    simp only [Text.isLine_append]
    refine ⟨⟨hkind i.kind, by decide⟩, Interval.isLine_text ?_ ?_⟩
    · exact fun v hv => h v (List.mem_append.2 (Or.inl (Option.mem_toList.2 hv)))
    · exact fun v hv => h v (List.mem_append.2 (Or.inr (Option.mem_toList.2 hv)))

theorem Lookup.isLine_function (lookup : Lookup) : Text.IsLine lookup.function := by
  have htext : Text.IsLine "db:text" := by decide
  have hattribute : Text.IsLine "db:attribute" := by decide
  have htexts : Text.IsLine "db:text-range" := by decide
  have hattributes : Text.IsLine "db:attribute-range" := by decide
  unfold function
  split <;> assumption

namespace Expr

/-! ## The parts of an expression -/

mutual

/-- The parts of an expression in depth-first order, each with the number of operators above it;
`depth` operators are above the whole. -/
def walk (depth : Nat) : Expr → List (Nat × Expr)
  | set op operands iterable =>
    (depth, set op operands iterable) :: walkAll (depth + 1) operands
  | e => [(depth, e)]

/-- The parts of several expressions. -/
def walkAll (depth : Nat) : List Expr → List (Nat × Expr)
  | [] => []
  | e :: rest => walk depth e ++ walkAll depth rest

end

/-- Induction over expressions, for all at once: a statement holds if it follows from the one for
the operands. -/
theorem inductionOnOperands {motive : Expr → Prop}
    (step : ∀ e : Expr, (∀ operand ∈ e.operands, motive operand) → motive e) (e : Expr) :
    motive e := by
  induction e with
  | set op es iterable ih => exact step _ ih
  | _ => exact step _ fun _ h => by cases h

theorem walk_eq (depth : Nat) (e : Expr) :
    e.walk depth = (depth, e) :: walkAll (depth + 1) e.operands := by
  cases e <;> rfl

theorem mem_walkAll {depth : Nat} {es : List Expr} {entry : Nat × Expr} :
    entry ∈ walkAll depth es ↔ ∃ e ∈ es, entry ∈ e.walk depth := by
  induction es with
  | nil => simp [walkAll]
  | cons e rest ih => simp [walkAll, ih]

theorem PartOf.of_operand {part operand e : Expr} (h : part.PartOf operand)
    (hoperand : operand ∈ e.operands) : part.PartOf e := by
  cases e with
  | set op es iterable => exact .operand hoperand h
  | _ => cases hoperand

theorem partOf_of_mem_walk {e : Expr} {depth : Nat} {entry : Nat × Expr}
    (h : entry ∈ e.walk depth) : entry.2.PartOf e := by
  induction e using inductionOnOperands generalizing depth with
  | step e ih =>
    rw [walk_eq] at h
    rcases List.mem_cons.1 h with rfl | h
    · exact .self e
    · obtain ⟨operand, hoperand, h⟩ := mem_walkAll.1 h
      exact (ih operand hoperand h).of_operand hoperand

/-- Every part is visited. -/
theorem exists_mem_walk_of_partOf {part e : Expr} (h : part.PartOf e) (depth : Nat) :
    ∃ entry ∈ e.walk depth, entry.2 = part := by
  induction h generalizing depth with
  | self =>
    refine ⟨(depth, part), ?_, rfl⟩
    rw [walk_eq]
    exact List.mem_cons_self
  | operand he _ ih =>
    obtain ⟨entry, hentry, hpart⟩ := ih (depth + 1)
    exact ⟨entry, List.mem_cons_of_mem _ (mem_walkAll.2 ⟨_, he, hentry⟩), hpart⟩

/-! ## Lines -/

/-- The name and the values of a leaf hold no line feed. -/
def PlainLeaf : Expr → Prop
  | nodes binding _ => Text.IsLine binding.name
  | access binding lookup _ => Text.IsLine binding.name ∧ ∀ value ∈ lookup.named, 0x0A ∉ value
  | _ => True

/-- No name and no value in an expression holds a line feed. -/
def Plain (e : Expr) : Prop := ∀ part : Expr, part.PartOf e → part.PlainLeaf

theorem plain_iff {e : Expr} : e.Plain ↔ ∀ entry ∈ e.walk 0, entry.2.PlainLeaf := by
  constructor
  · exact fun h entry hentry => h _ (partOf_of_mem_walk hentry)
  · intro h part hpart
    obtain ⟨entry, hentry, rfl⟩ := exists_mem_walk_of_partOf hpart 0
    exact h entry hentry

instance : DecidablePred PlainLeaf := fun e =>
  match e with
  | nodes binding _ => inferInstanceAs (Decidable (Text.IsLine binding.name))
  | access binding lookup _ => inferInstanceAs
      (Decidable (Text.IsLine binding.name ∧ ∀ value ∈ lookup.named, 0x0A ∉ value))
  | empty => .isTrue trivial
  | set .. => .isTrue trivial

instance : DecidablePred Plain := fun _ => decidable_of_iff' _ plain_iff

theorem isLine_label {e : Expr} (h : e.PlainLeaf) : Text.IsLine e.label := by
  cases e with
  | empty => decide
  | nodes binding pres =>
    show Text.IsLine ("nodes data=\"" ++ binding.name ++ "\" count=" ++ pres.length.repr ++
      " iterable=" ++ toString (isAscending pres))
    simp only [Text.isLine_append]
    exact ⟨⟨⟨⟨⟨by decide, h⟩, by decide⟩, Text.isLine_repr _⟩, by decide⟩, Text.isLine_toString _⟩
  | access binding lookup iterable =>
    show Text.IsLine (lookup.function ++ " data=\"" ++ binding.name ++ "\" " ++ lookup.text ++
      " iterable=" ++ toString iterable)
    simp only [Text.isLine_append]
    exact ⟨⟨⟨⟨⟨⟨lookup.isLine_function, by decide⟩, h.1⟩, by decide⟩, Lookup.isLine_text h.2⟩,
      by decide⟩, Text.isLine_toString _⟩
  | set op es iterable =>
    show Text.IsLine (op.name ++ " iterable=" ++ toString iterable)
    simp only [Text.isLine_append]
    exact ⟨⟨by cases op <;> decide, by decide⟩, Text.isLine_toString _⟩

/-- The line of a part below `depth` operators. -/
def line (entry : Nat × Expr) : List Char :=
  List.replicate (2 * entry.1) ' ' ++ entry.2.label.toList

theorem planLines_eq (depth : Nat) (e : Expr) :
    planLines depth e = (indent depth ++ e.label) :: planLinesAll (depth + 1) e.operands := by
  cases e <;> rfl

theorem map_toList_planLinesAll {depth : Nat} {es : List Expr}
    (h : ∀ e ∈ es, (planLines depth e).map String.toList = (e.walk depth).map line) :
    (planLinesAll depth es).map String.toList = (walkAll depth es).map line := by
  induction es with
  | nil => rfl
  | cons e rest ih =>
    obtain ⟨hfirst, hrest⟩ := List.forall_mem_cons.1 h
    rw [planLinesAll, walkAll, List.map_append, List.map_append, hfirst, ih hrest]

/-- Every part has its line, in the order of the walk. -/
theorem map_toList_planLines (depth : Nat) (e : Expr) :
    (planLines depth e).map String.toList = (e.walk depth).map line := by
  induction e using inductionOnOperands generalizing depth with
  | step e ih =>
    have hline : (indent depth ++ e.label).toList = line (depth, e) := by
      rw [String.toList_append, indent, String.toList_ofList, line]
    rw [planLines_eq, walk_eq, List.map_cons, List.map_cons, hline,
      map_toList_planLinesAll fun operand hoperand => ih operand hoperand (depth + 1)]

/-- Lines that are each ended by a line feed are found again by cutting there. -/
theorem splitOn_flatMap {lines : List (List Char)} (h : ∀ l ∈ lines, '\n' ∉ l) :
    (lines.flatMap (· ++ ['\n'])).splitOn '\n' = lines ++ [[]] := by
  induction lines with
  | nil => rfl
  | cons l rest ih =>
    obtain ⟨hl, hrest⟩ := List.forall_mem_cons.1 h
    rw [List.flatMap_cons, List.append_assoc, List.singleton_append,
      List.splitOn_append_cons_self, List.splitOn_eq_singleton hl, ih hrest]
    rfl

theorem lineFeed_notMem_line {entry : Nat × Expr} (h : entry.2.PlainLeaf) :
    '\n' ∉ line entry := by
  rw [line, List.mem_append, not_or]
  exact ⟨fun hmem => absurd (List.eq_of_mem_replicate hmem) (by decide), isLine_label h⟩

/-- **The lines of a plan are those of the parts**, in depth-first order, and nothing stands behind
the last line feed. -/
theorem splitOn_plan {e : Expr} (h : e.Plain) :
    e.plan.toList.splitOn '\n' = (e.walk 0).map line ++ [[]] := by
  have htext : e.plan.toList = ((e.walk 0).map line).flatMap (· ++ ['\n']) := by
    rw [plan, String.toList_join, ← map_toList_planLines, List.flatMap_map, List.flatMap_map]
    simp only [String.toList_append]
    rfl
  rw [htext, splitOn_flatMap]
  intro l hl
  obtain ⟨entry, hentry, rfl⟩ := List.mem_map.1 hl
  exact lineFeed_notMem_line (plain_iff.1 h entry hentry)

end Expr

end XmlStore
