import Mathlib
import XmlStore.Proofs.PlanLines

/-!
# What a plan tells of an expression

A plan does not tell everything of an expression: bytes that are no text all look the same in it.
But it tells the shape.  A line tells the depth of a part and what the part is; and the parts below
an operator are those up to the next line that is not deeper.

* `Expr.Kind` — what a part is: which leaf, or which operator with which flag.
* `Expr.eq_of_line_eq` — a line tells the depth and the kind of its part.
* `Expr.Shape` — the tree of kinds.
* `Expr.Recovered` — the depths and kinds in depth-first order tell the shape, whatever follows that
  is not deeper; `Expr.recovered` says so of every expression.
* `Expr.plan_tells_shape` — hence the plan does.
-/

namespace XmlStore.Expr

/-! ## Kinds -/

/-- What a part of an expression is. -/
inductive Kind where
  | empty
  | nodes
  /-- A lookup of values of a kind, of one value or of an interval. -/
  | lookup (kind : ValueKind) (isExact : Bool)
  | operator (op : SetOp) (iterable : Bool)
  deriving DecidableEq, Repr

/-- What an expression is at its root. -/
def kind : Expr → Kind
  | empty => .empty
  | nodes _ _ => .nodes
  | access _ lookup _ => .lookup lookup.kind lookup.isExact
  | set op _ iterable => .operator op iterable

namespace Kind

/-- The first word of a line. -/
def word : Kind → String
  | empty => "empty"
  | nodes => "nodes"
  | lookup .text true => "db:text"
  | lookup .attribute true => "db:attribute"
  | lookup .text false => "db:text-range"
  | lookup .attribute false => "db:attribute-range"
  | operator op _ => op.name

/-- The kind as far as its word tells it: the flag of an operator stands behind the word. -/
def unflagged : Kind → Kind
  | operator op _ => operator op false
  | k => k

/-- All kinds. -/
def all : List Kind :=
  [empty, nodes, lookup .text true, lookup .attribute true, lookup .text false,
    lookup .attribute false, operator .union true, operator .intersect true, operator .except true,
    operator .union false, operator .intersect false, operator .except false]

theorem mem_all (k : Kind) : k ∈ all := by
  rcases k with _ | _ | ⟨_ | _, _ | _⟩ | ⟨_ | _ | _, _ | _⟩ <;> decide

/-- A word is not empty and has no blank. -/
theorem word_spec (k : Kind) : k.word.toList ≠ [] ∧ ∀ c ∈ k.word.toList, (c != ' ') = true := by
  have hall : ∀ k ∈ all, k.word.toList ≠ [] ∧ k.word.toList.all (· != ' ') = true := by decide
  obtain ⟨hne, hword⟩ := hall k k.mem_all
  exact ⟨hne, List.all_eq_true.1 hword⟩

theorem unflagged_eq_of_word_eq {k k' : Kind} (h : k.word.toList = k'.word.toList) :
    k.unflagged = k'.unflagged := by
  have hall : ∀ k ∈ all, ∀ k' ∈ all, k.word.toList = k'.word.toList →
      k.unflagged = k'.unflagged := by decide
  exact hall k k.mem_all k' k'.mem_all h

end Kind

/-! ## Lines -/

theorem function_eq_word (lookup : Lookup) :
    lookup.function = (Kind.lookup lookup.kind lookup.isExact).word := by
  rcases lookup with ⟨_ | _, _⟩ | ⟨_ | _, _, _, _, _⟩ <;> rfl

/-- A line begins with the word for the kind, and goes on with a blank, if it goes on. -/
theorem toList_label (e : Expr) :
    e.label.toList = e.kind.word.toList ∨
      ∃ more, e.label.toList = e.kind.word.toList ++ ' ' :: more := by
  cases e with
  | empty => exact Or.inl rfl
  | nodes binding pres =>
    refine Or.inr ⟨("data=\"" ++ (binding.name ++ ("\" count=" ++ (toString pres.length ++
      (" iterable=" ++ toString (isAscending pres)))))).toList, ?_⟩
    have hstart : "nodes data=\"" = "nodes" ++ " data=\"" := rfl
    show ("nodes data=\"" ++ binding.name ++ "\" count=" ++ toString pres.length ++
      " iterable=" ++ toString (isAscending pres)).toList = "nodes".toList ++ _
    simp only [hstart, String.toList_append, List.append_assoc]
    rfl
  | access binding lookup iterable =>
    refine Or.inr ⟨("data=\"" ++ (binding.name ++ ("\" " ++ (lookup.text ++
      (" iterable=" ++ toString iterable))))).toList, ?_⟩
    show (lookup.function ++ " data=\"" ++ binding.name ++ "\" " ++ lookup.text ++
      " iterable=" ++ toString iterable).toList = (Kind.lookup _ _).word.toList ++ _
    simp only [String.toList_append, List.append_assoc, function_eq_word]
    rfl
  | set op es iterable =>
    refine Or.inr ⟨("iterable=" ++ toString iterable).toList, ?_⟩
    show (op.name ++ " iterable=" ++ toString iterable).toList = op.name.toList ++ _
    simp only [String.toList_append, List.append_assoc]
    rfl

theorem takeWhile_label (e : Expr) :
    e.label.toList.takeWhile (· != ' ') = e.kind.word.toList := by
  have hword := (Kind.word_spec e.kind).2
  rcases e.toList_label with h | ⟨more, h⟩
  · rw [h, List.takeWhile_eq_self_iff.2 hword]
  · rw [h, List.takeWhile_append_of_pos hword, List.takeWhile_cons_of_neg (by decide),
      List.append_nil]

/-- **What is written of a part tells its kind.** -/
theorem kind_eq_of_label_eq {e e' : Expr} (h : e.label.toList = e'.label.toList) :
    e.kind = e'.kind := by
  have hword : e.kind.word.toList = e'.kind.word.toList := by
    rw [← takeWhile_label, ← takeWhile_label, h]
  have hkind := Kind.unflagged_eq_of_word_eq hword
  cases e with
  | set op es iterable =>
    cases e' with
    | set op' es' iterable' =>
      obtain ⟨rfl, _⟩ := Kind.operator.inj hkind
      have hflag : (toString iterable).toList = (toString iterable').toList := by
        have hlabel : ∀ flag es, (label (set op es flag)).toList =
            (op.name ++ " iterable=").toList ++ (toString flag).toList :=
          fun flag es => String.toList_append
        rw [hlabel, hlabel] at h
        exact List.append_cancel_left h
      cases iterable <;> cases iterable' <;> first | rfl | exact absurd hflag (by decide)
    | _ => cases hkind
  | _ =>
    cases e' with
    | set op' es' iterable' => cases hkind
    | _ => exact hkind

/-- **A line is indented by two blanks for each operator above the part**, and no more. -/
theorem takeWhile_line (entry : Nat × Expr) :
    (line entry).takeWhile (· == ' ') = List.replicate (2 * entry.1) ' ' := by
  obtain ⟨depth, e⟩ := entry
  have hlabel : e.label.toList.takeWhile (· == ' ') = [] := by
    obtain ⟨hne, hword⟩ := Kind.word_spec e.kind
    obtain ⟨c, word, hcons⟩ := List.exists_cons_of_ne_nil hne
    have hc : (c == ' ') = false := by
      have hc := hword c (hcons ▸ List.mem_cons_self)
      simpa using hc
    rcases e.toList_label with h | ⟨more, h⟩
    · rw [h, hcons, List.takeWhile_cons_of_neg (by simp [hc])]
    · rw [h, hcons, List.cons_append, List.takeWhile_cons_of_neg (by simp [hc])]
  have hblank : ∀ c ∈ List.replicate (2 * depth) ' ', (c == ' ') = true := fun c hc =>
    beq_iff_eq.2 (List.eq_of_mem_replicate hc)
  rw [line, List.takeWhile_append_of_pos hblank, hlabel, List.append_nil]

/-- **A line tells the depth and the kind of its part.** -/
theorem eq_of_line_eq {entry entry' : Nat × Expr} (h : line entry = line entry') :
    entry.1 = entry'.1 ∧ entry.2.kind = entry'.2.kind := by
  have hindent : List.replicate (2 * entry.1) ' ' = List.replicate (2 * entry'.1) ' ' := by
    rw [← takeWhile_line, ← takeWhile_line, h]
  have hdepth : entry.1 = entry'.1 := by
    have hlength := congrArg List.length hindent
    rw [List.length_replicate, List.length_replicate] at hlength
    omega
  rw [line, line, hindent] at h
  exact ⟨hdepth, kind_eq_of_label_eq (List.append_cancel_left h)⟩

/-! ## Shapes -/

/-- A tree of kinds. -/
inductive Shape where
  | node (kind : Kind) (operands : List Shape)
  deriving Repr

mutual

/-- What an expression and all its parts are. -/
def shape : Expr → Shape
  | set op operands iterable => .node (.operator op iterable) (shapeAll operands)
  | e => .node e.kind []

/-- The shapes of several expressions. -/
def shapeAll : List Expr → List Shape
  | [] => []
  | e :: rest => shape e :: shapeAll rest

end

theorem shape_eq (e : Expr) : e.shape = .node e.kind (shapeAll e.operands) := by
  cases e <;> rfl

/-- The depths and kinds of the parts in depth-first order. -/
def outline (depth : Nat) (e : Expr) : List (Nat × Kind) :=
  (e.walk depth).map fun entry => (entry.1, entry.2.kind)

/-- The depths and kinds of the parts of several expressions. -/
def outlineAll (depth : Nat) (es : List Expr) : List (Nat × Kind) :=
  (walkAll depth es).map fun entry => (entry.1, entry.2.kind)

theorem outline_eq (depth : Nat) (e : Expr) :
    e.outline depth = (depth, e.kind) :: outlineAll (depth + 1) e.operands := by
  rw [outline, walk_eq, List.map_cons, outlineAll]

theorem outlineAll_cons (depth : Nat) (e : Expr) (rest : List Expr) :
    outlineAll depth (e :: rest) = e.outline depth ++ outlineAll depth rest := by
  rw [outlineAll, walkAll, List.map_append, outline, outlineAll]

/-- What follows the parts at some depth begins with a part that is less deep. -/
def Shallower (depth : Nat) (rest : List (Nat × Kind)) : Prop :=
  ∀ entry ∈ rest.head?, entry.1 < depth

theorem Shallower.succ {depth : Nat} {rest : List (Nat × Kind)} (h : Shallower depth rest) :
    Shallower (depth + 1) rest :=
  fun entry hentry => Nat.lt_succ_of_lt (h entry hentry)

theorem shallower_cons {depth : Nat} {entry : Nat × Kind} {rest : List (Nat × Kind)} :
    Shallower depth (entry :: rest) ↔ entry.1 < depth := by
  simp [Shallower]

/-- What follows an operand: the other operands, or what follows all of them. -/
theorem shallower_outlineAll {depth : Nat} {rest : List (Nat × Kind)} (h : Shallower depth rest)
    (es : List Expr) : Shallower (depth + 1) (outlineAll depth es ++ rest) := by
  cases es with
  | nil => exact h.succ
  | cons e more =>
    rw [outlineAll_cons, outline_eq, List.cons_append, List.cons_append, shallower_cons]
    exact Nat.lt_succ_self depth

/-- The outline of an expression is as deep as the expression. -/
theorem not_shallower_outlineAll {depth : Nat} {e : Expr} {more : List Expr}
    {rest : List (Nat × Kind)} : ¬ Shallower depth (outlineAll depth (e :: more) ++ rest) := by
  rw [outlineAll_cons, outline_eq, List.cons_append, List.cons_append, shallower_cons]
  exact Nat.lt_irrefl depth

/-- The shape of an expression can be told from its outline and whatever follows. -/
def Recovered (e : Expr) : Prop :=
  ∀ {depth : Nat} {e' : Expr} {rest rest' : List (Nat × Kind)},
    Shallower (depth + 1) rest → Shallower (depth + 1) rest' →
      e.outline depth ++ rest = e'.outline depth ++ rest' → e.shape = e'.shape ∧ rest = rest'

/-- So it is for several expressions one after the other, up to the first line that is less deep. -/
theorem recovered_all {es : List Expr} (h : ∀ e ∈ es, e.Recovered) {depth : Nat}
    {es' : List Expr} {rest rest' : List (Nat × Kind)} (hrest : Shallower depth rest)
    (hrest' : Shallower depth rest')
    (heq : outlineAll depth es ++ rest = outlineAll depth es' ++ rest') :
    shapeAll es = shapeAll es' ∧ rest = rest' := by
  induction es generalizing es' with
  | nil =>
    cases es' with
    | nil => exact ⟨rfl, heq⟩
    | cons e' more' =>
      -- the other outline would go on at this depth
      have hrest : Shallower depth (outlineAll depth (e' :: more') ++ rest') := heq ▸ hrest
      exact absurd hrest not_shallower_outlineAll
  | cons e more ih =>
    obtain ⟨hfirst, hmore⟩ := List.forall_mem_cons.1 h
    cases es' with
    | nil =>
      have hrest' : Shallower depth (outlineAll depth (e :: more) ++ rest) := heq ▸ hrest'
      exact absurd hrest' not_shallower_outlineAll
    | cons e' more' =>
      rw [outlineAll_cons, outlineAll_cons, List.append_assoc, List.append_assoc] at heq
      obtain ⟨hshape, heq⟩ :=
        hfirst (shallower_outlineAll hrest more) (shallower_outlineAll hrest' more') heq
      obtain ⟨hshapes, heq⟩ := ih hmore heq
      rw [shapeAll, shapeAll, hshape, hshapes]
      exact ⟨rfl, heq⟩

/-- **Depths and kinds in depth-first order tell the shape.**  The induction is on the expression:
the operands come right behind their operator, one level deeper. -/
theorem recovered (e : Expr) : e.Recovered := by
  induction e using inductionOnOperands with
  | step e ih =>
    intro depth e' rest rest' hrest hrest' heq
    rw [outline_eq, outline_eq, List.cons_append, List.cons_append] at heq
    obtain ⟨hhead, heq⟩ := List.cons.inj heq
    obtain ⟨hshapes, heq⟩ := recovered_all ih hrest hrest' heq
    rw [shape_eq, shape_eq, (Prod.mk.inj hhead).2, hshapes]
    exact ⟨rfl, heq⟩

theorem shape_eq_of_outline_eq {e e' : Expr} (h : e.outline 0 = e'.outline 0) :
    e.shape = e'.shape := by
  have hend : Shallower 1 [] := fun _ hentry => by cases hentry
  exact (recovered e hend hend (by rw [h])).1

theorem outline_eq_of_lines_eq {e e' : Expr} (h : (e.walk 0).map line = (e'.walk 0).map line) :
    e.outline 0 = e'.outline 0 := by
  have hread : Function.FactorsThrough (fun entry : Nat × Expr => (entry.1, entry.2.kind)) line :=
    fun _ _ heq => Prod.ext (eq_of_line_eq heq).1 (eq_of_line_eq heq).2
  have houtline : ∀ e : Expr, e.outline 0 = ((e.walk 0).map line).map
      (Function.extend line (fun entry => (entry.1, entry.2.kind)) fun _ => (0, .empty)) := by
    intro e
    rw [outline, List.map_map]
    exact List.map_congr_left fun entry _ => (hread.extend_apply _ entry).symm
  rw [houtline, houtline, h]

/-- A plan lists an expression: there is one line for each part, in depth-first order; each line is
ended by a line feed, and nothing stands behind the last one.  A line is indented by two blanks for
each operator above the part. -/
structure Listed (e : Expr) : Prop where
  lines : e.plan.toList.splitOn '\n' = (e.walk 0).map line ++ [[]]
  indented : ∀ entry ∈ e.walk 0,
    (line entry).takeWhile (· == ' ') = List.replicate (2 * entry.1) ' '

/-- **A plan tells the shape of an expression** whose names and values hold no line feed.  Each part
has a line of its own, in depth-first order and indented by its depth; and two expressions with the
same plan have the same operators with the same flags and as many operands, and leaves of the same
kinds at the same places. -/
theorem plan_tells_shape {e : Expr} (h : e.Plain) :
    e.Listed ∧ ∀ e' : Expr, e'.Plain → e.plan = e'.plan → e.shape = e'.shape := by
  refine ⟨⟨splitOn_plan h, fun entry _ => takeWhile_line entry⟩, fun e' h' hplan => ?_⟩
  apply shape_eq_of_outline_eq
  apply outline_eq_of_lines_eq
  have hlines := splitOn_plan h
  rw [hplan, splitOn_plan h'] at hlines
  exact (List.append_cancel_right hlines).symm

/-- Two values that are no text look the same in a plan. -/
theorem plan_tells_shape_unreadable :
    let unread (byte : UInt8) : Expr := .set .union
      [.set .except [.access ⟨"db", 0⟩ (.exact .text [0x22, byte]) false, .empty] false,
        .nodes ⟨"db", 0⟩ [4, 7]] true
    (unread 0xFE).Plain ∧ (unread 0xFF).Plain ∧ (unread 0xFE).plan = (unread 0xFF).plan ∧
      (unread 0xFE).Listed ∧ (unread 0xFE).shape = (unread 0xFF).shape := by
  intro unread
  have hplain : (unread 0xFE).Plain := by decide
  have hplain' : (unread 0xFF).Plain := by decide
  have hplan : (unread 0xFE).plan = (unread 0xFF).plan := by cbv
  obtain ⟨hlisted, hshape⟩ := plan_tells_shape hplain
  exact ⟨hplain, hplain', hplan, hlisted, hshape _ hplain' hplan⟩

end XmlStore.Expr
