import XmlStore.Expr.Compile
import XmlStore.Proofs.MergeLaw
import XmlStore.Proofs.Reading

/-!
# Combining operands

The compiler drops empty operands.  What an operator selects does not depend on them, or nothing is
selected at all.

* `Expr.dropEmpty_eq_some`, `Expr.dropEmpty_eq_none` — which operands are left, and when an operator
  is empty.
* `Expr.selects_dropEmpty`, `Expr.not_selects_of_dropEmpty` — the selection in the two cases.
* `Expr.combine_cases` — the four outcomes of `combine`.
-/

namespace XmlStore.Expr

theorem dropEmpty_cons_of_nonempty {op : SetOp} {first : Bool} {e : Expr} (rest : List Expr)
    (h : e.isEmpty = false) :
    (dropEmpty op first (e :: rest)).1 = (dropEmpty op false rest).1.map (e :: ·) := by
  simp [dropEmpty, h]

theorem dropEmpty_cons_of_empty {op : SetOp} {first : Bool} {e : Expr} (rest : List Expr)
    (h : e.isEmpty = true) :
    (dropEmpty op first (e :: rest)).1 =
      if op = .intersect ∨ (op = .except ∧ first = true) then none
      else (dropEmpty op false rest).1 := by
  cases op <;> cases first <;> simp [dropEmpty, h]

/-- The operands that are left are the ones that are not empty; those that would make the operator
empty were not. -/
theorem dropEmpty_eq_some {op : SetOp} {first : Bool} {es kept : List Expr}
    (h : (dropEmpty op first es).1 = some kept) :
    kept = es.filter (!·.isEmpty) ∧ (op = .intersect → ∀ e ∈ es, e.isEmpty = false) ∧
      (op = .except → first = true → ∀ e rest, es = e :: rest → e.isEmpty = false) := by
  induction es generalizing first kept with
  | nil =>
    obtain rfl := Option.some.inj h
    simp
  | cons e rest ih =>
    cases hempty : e.isEmpty with
    | true =>
      rw [dropEmpty_cons_of_empty rest hempty] at h
      split at h
      · cases h
      · rename_i hop
        rw [not_or] at hop
        obtain ⟨hkept, _⟩ := ih h
        refine ⟨by rw [List.filter_cons_of_neg (by simp [hempty]), hkept],
          fun hintersect => absurd hintersect hop.1,
          fun hexcept hfirst => absurd ⟨hexcept, hfirst⟩ hop.2⟩
    | false =>
      rw [dropEmpty_cons_of_nonempty rest hempty] at h
      obtain ⟨others, hothers, rfl⟩ := Option.map_eq_some_iff.1 h
      obtain ⟨hkept, hall, _⟩ := ih hothers
      refine ⟨by rw [List.filter_cons_of_pos (by simp [hempty]), hkept],
        fun hop => List.forall_mem_cons.2 ⟨hempty, hall hop⟩, ?_⟩
      intro _ _ e' rest' he
      exact (List.cons.inj he).1 ▸ hempty

/-- An operator is empty if it intersects with nothing or takes nodes away from nothing. -/
theorem dropEmpty_eq_none {op : SetOp} {first : Bool} {es : List Expr}
    (h : (dropEmpty op first es).1 = none) :
    (op = .intersect ∧ ∃ e ∈ es, e.isEmpty = true) ∨
      (op = .except ∧ first = true ∧ ∃ e rest, es = e :: rest ∧ e.isEmpty = true) := by
  induction es generalizing first with
  | nil => cases h
  | cons e rest ih =>
    have hlater : (dropEmpty op false rest).1 = none →
        op = .intersect ∧ ∃ e' ∈ e :: rest, e'.isEmpty = true := by
      intro h
      rcases ih h with ⟨hop, e', he', hempty'⟩ | ⟨_, hfirst, _⟩
      · exact ⟨hop, e', List.mem_cons_of_mem e he', hempty'⟩
      · cases hfirst
    cases hempty : e.isEmpty with
    | true =>
      rw [dropEmpty_cons_of_empty rest hempty] at h
      split at h
      · rename_i hop
        rcases hop with hop | ⟨hop, hfirst⟩
        · exact Or.inl ⟨hop, e, List.mem_cons_self, hempty⟩
        · exact Or.inr ⟨hop, hfirst, e, rest, rfl, hempty⟩
      · exact Or.inl (hlater h)
    | false =>
      rw [dropEmpty_cons_of_nonempty rest hempty] at h
      exact Or.inl (hlater (Option.map_eq_none_iff.1 h))

/-- What is selected does not depend on the operands that are dropped. -/
theorem selects_dropEmpty {has : Expr → Prop} (hhas : ∀ e, e.isEmpty = true → ¬ has e) {op : SetOp}
    {es kept : List Expr} (h : (dropEmpty op true es).1 = some kept) :
    op.Selects has kept ↔ op.Selects has es := by
  obtain ⟨rfl, hintersect, hexcept⟩ := dropEmpty_eq_some h
  have hmem : ∀ {e}, has e → e.isEmpty = false := by
    intro e he
    cases hempty : e.isEmpty with
    | true => exact absurd he (hhas e hempty)
    | false => rfl
  cases op with
  | union =>
    simp only [SetOp.Selects, List.mem_filter, Bool.not_eq_true']
    constructor
    · rintro ⟨e, ⟨he, _⟩, hh⟩
      exact ⟨e, he, hh⟩
    · rintro ⟨e, he, hh⟩
      exact ⟨e, ⟨he, hmem hh⟩, hh⟩
  | intersect =>
    rw [List.filter_eq_self.2 fun e he => by simp [hintersect rfl e he]]
  | except =>
    cases es with
    | nil => rfl
    | cons e rest =>
      rw [List.filter_cons_of_pos (by simp [hexcept rfl rfl e rest rfl])]
      simp only [SetOp.Selects, List.mem_filter, Bool.not_eq_true', and_imp]
      apply and_congr_right
      intro _
      constructor
      · intro hall e' he' hh
        exact hall e' he' (hmem hh) hh
      · intro hall e' he' _
        exact hall e' he'

theorem not_selects_of_dropEmpty {has : Expr → Prop} (hhas : ∀ e, e.isEmpty = true → ¬ has e)
    {op : SetOp} {es : List Expr} (h : (dropEmpty op true es).1 = none) :
    ¬ op.Selects has es := by
  intro hselects
  rcases dropEmpty_eq_none h with ⟨rfl, e, he, hempty⟩ | ⟨rfl, _, e, rest, rfl, hempty⟩
  · exact hhas e hempty (hselects.2 e he)
  · exact hhas e hempty hselects.1

/-- **What an operator is combined to.**  It is empty, its single operand, or the operator on the
operands that are left: more than one, or a single one that has to be sorted. -/
theorem combine_cases (op : SetOp) (es : List Expr) :
    ((dropEmpty op true es).1 = none ∧ (combine op es).1 = .empty) ∨
      ((dropEmpty op true es).1 = some [] ∧ (combine op es).1 = .empty) ∨
      (∃ e, (dropEmpty op true es).1 = some [e] ∧ e.iterable = true ∧ (combine op es).1 = e) ∨
      ∃ kept, (dropEmpty op true es).1 = some kept ∧ kept ≠ [] ∧
        (∀ e, kept = [e] → e.iterable = false) ∧ (combine op es).1 = .set op kept true := by
  unfold combine
  split
  · rename_i h; exact Or.inl ⟨by rw [h], rfl⟩
  · rename_i h; exact Or.inr (Or.inl ⟨by rw [h], rfl⟩)
  · rename_i e _ h
    split
    · rename_i hiterable
      exact Or.inr (Or.inr (Or.inl ⟨e, by rw [h], hiterable, rfl⟩))
    · rename_i hiterable
      refine Or.inr (Or.inr (Or.inr ⟨[e], by rw [h], List.cons_ne_nil e [], ?_, rfl⟩))
      rintro _ ⟨⟩
      exact Bool.eq_false_iff.2 hiterable
  · rename_i kept _ hnone hsingle h
    exact Or.inr (Or.inr (Or.inr ⟨kept, by rw [h], hnone, fun e he => absurd he (hsingle e), rfl⟩))

/-- What comes of combining is always known to be in order. -/
theorem iterable_combine (op : SetOp) (es : List Expr) : (combine op es).1.iterable = true := by
  rcases combine_cases op es with ⟨_, h⟩ | ⟨_, h⟩ | ⟨e, _, hiterable, h⟩ |
    ⟨kept, _, _, _, h⟩
  · rw [h]; rfl
  · rw [h]; rfl
  · rw [h]; exact hiterable
  · rw [h]; rfl

/-- The flag of a lookup is what its snapshot promises. -/
theorem ordersLookup_eq_promises {live : Live} {binding : Binding} {s : Snapshot}
    (hs : live.find? binding = some s) (lookup : Lookup) :
    (ordersLookup live binding lookup).1 = s.promises lookup := by
  rw [ordersLookup, hs, Snapshot.promises]
  cases h : s.index.answers lookup <;> simp [h]

theorem compile_set (live : Live) (op : SetOp) (es : List Expr) (iterable : Bool) :
    (compile live (.set op es iterable)).1 = (combine op (compileAll live es).1).1 := rfl

theorem compileAll_eq_map (live : Live) (es : List Expr) :
    (compileAll live es).1 = es.map fun e => (compile live e).1 := by
  induction es with
  | nil => rfl
  | cons e rest ih => rw [compileAll, List.map_cons, ← ih]

end XmlStore.Expr
