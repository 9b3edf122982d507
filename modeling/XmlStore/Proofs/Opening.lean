import XmlStore.Expr.Opening

/-!
# What opening resolves

* `Expr.induction` — induction over expressions, with the statement for all operands of an operator
  at hand.
* `Expr.operandsFrom_cons`, `Expr.exists_of_mem_operandsFrom` — the operands of an operator are the
  sources of its expressions, with their flags; the positions only matter for faults.
-/

namespace XmlStore.Expr

/-- Induction over expressions. -/
@[elab_as_elim, induction_eliminator]
theorem induction {motive : Expr → Prop} (empty : motive empty)
    (nodes : ∀ binding pres, motive (nodes binding pres))
    (access : ∀ binding lookup iterable, motive (access binding lookup iterable))
    (set : ∀ op operands iterable, (∀ e ∈ operands, motive e) → motive (set op operands iterable))
    (e : Expr) : motive e :=
  @Expr.rec motive (fun es => ∀ e ∈ es, motive e) empty nodes access
    (fun op operands iterable ih => set op operands iterable ih) (fun _ h => by cases h)
    (fun _ _ hfirst hrest => List.forall_mem_cons.2 ⟨hfirst, hrest⟩) e

variable {live : Live}

theorem source_set {op : SetOp} {operands : List Expr} {iterable : Bool} {src : Source} :
    (set op operands iterable).source live = .ok src ↔
      ∃ sources, operandsFrom live op 0 operands = .ok sources ∧ src = .ofSet op sources := by
  rw [source]
  cases operandsFrom live op 0 operands <;> simp [bind, Except.bind, eq_comm]

theorem operandsFrom_cons {op : SetOp} {position : Nat} {e : Expr} {rest : List Expr}
    {operands : List Operand} :
    operandsFrom live op position (e :: rest) = .ok operands ↔
      ∃ src others, e.source live = .ok src ∧
        operandsFrom live op (position + 1) rest = .ok others ∧
        operands = { source := src, sorted := e.iterable } :: others := by
  rw [operandsFrom]
  cases e.source live with
  | error fault =>
    constructor
    · intro h
      cases h
    · rintro ⟨_, _, hsource, _⟩
      cases hsource
  | ok src =>
    cases operandsFrom live op (position + 1) rest with
    | error fault =>
      constructor
      · intro h
        cases h
      · rintro ⟨_, _, _, hothers, _⟩
        cases hothers
    | ok others =>
      constructor
      · intro h
        exact ⟨src, others, rfl, rfl, (Except.ok.inj h).symm⟩
      · rintro ⟨_, _, hsource, hothers, hoperands⟩
        cases hsource
        cases hothers
        exact congrArg Except.ok hoperands.symm

/-- Every operand of an operator comes of one of its expressions. -/
theorem exists_of_mem_operandsFrom {op : SetOp} {position : Nat} {es : List Expr}
    {operands : List Operand} (h : operandsFrom live op position es = .ok operands) {o : Operand}
    (ho : o ∈ operands) : ∃ e ∈ es, e.source live = .ok o.source ∧ e.iterable = o.sorted := by
  induction es generalizing position operands with
  | nil =>
    obtain rfl := Except.ok.inj h
    cases ho
  | cons e rest ih =>
    obtain ⟨src, others, hsource, hothers, rfl⟩ := operandsFrom_cons.1 h
    rcases List.mem_cons.1 ho with rfl | ho
    · exact ⟨e, List.mem_cons_self, hsource, rfl⟩
    · obtain ⟨e', he', hspec⟩ := ih hothers ho
      exact ⟨e', List.mem_cons_of_mem e he', hspec⟩

theorem exists_operand_of_mem {op : SetOp} {position : Nat} {es : List Expr}
    {operands : List Operand} (h : operandsFrom live op position es = .ok operands) {e : Expr}
    (he : e ∈ es) : ∃ o ∈ operands, e.source live = .ok o.source := by
  induction es generalizing position operands with
  | nil => cases he
  | cons first rest ih =>
    obtain ⟨src, others, hsource, hothers, rfl⟩ := operandsFrom_cons.1 h
    rcases List.mem_cons.1 he with rfl | he
    · exact ⟨_, List.mem_cons_self, hsource⟩
    · obtain ⟨o, ho, hspec⟩ := ih hothers he
      exact ⟨o, List.mem_cons_of_mem _ ho, hspec⟩

end XmlStore.Expr
