import XmlStore.Proofs.Keeping

/-!
# What can fail, and when

An evaluation is interrupted because its signal is raised, and for no other cause.  Apart from that
it can fail at its opening, because a snapshot is gone or an interval inverted, and later because of
an index, and never the other way round.

* `FirmResult` — a result of a sort, or a fault of some kinds.
* `Script.Firm` — a script that fails, if at all, because of an index; `Source.firm_ofSet` says that
  operators keep it so.
* `Expr.firm_source` — every expression has such a script, or fails at its opening.
-/

namespace XmlStore

/-- The kinds of faults with which an evaluation fails at its opening. -/
def FaultKind.IsOpening (kind : FaultKind) : Prop := kind = storeUnavailable ∨ kind = invalidToken

/-- A result of a sort, or a fault of some kinds. -/
def FirmResult {α : Type} (kinds : FaultKind → Prop) (ok : α → Prop) : Except Fault α → Prop
  | .ok a => ok a
  | .error fault => kinds fault.kind

namespace FirmResult

variable {α β : Type} {kinds : FaultKind → Prop} {ok : α → Prop} {ok' : β → Prop}
  {x : Except Fault α}

theorem bind (h : FirmResult kinds ok x) {next : α → Except Fault β}
    (hnext : ∀ a, ok a → FirmResult kinds ok' (next a)) : FirmResult kinds ok' (x >>= next) := by
  cases x with
  | error fault => exact h
  | ok a => exact hnext a h

theorem inOperand (h : FirmResult kinds ok x) (op : SetOp) (position : Nat) :
    FirmResult kinds ok (x.mapError (.inOperand op position)) := by
  cases x with
  | error fault =>
    show kinds (fault.inOperand op position).kind
    rw [Fault.kind_inOperand]
    exact h
  | ok a => exact h

end FirmResult

namespace Script

/-- The fault of a script, if any, is that of an index. -/
def Firm (s : Script) : Prop := ∀ fault, s.fault = some fault → fault.kind = .indexInconsistent

theorem firm_of_no_fault {s : Script} (h : s.fault = none) : s.Firm := by
  intro fault hfault
  rw [h] at hfault
  cases hfault

theorem firm_ofSteps (snapshot : Nat) {fault? : Nat → Option Fault}
    (h : ∀ pre fault, fault? pre = some fault → fault.kind = .indexInconsistent)
    (steps : List (Step Nat)) : (ofSteps snapshot fault? steps).Firm := by
  induction steps with
  | nil => exact firm_of_no_fault rfl
  | cons step rest ih =>
    cases step with
    | visit => exact ih
    | poll => exact ih
    | release => exact ih
    | yield pre =>
      rw [ofSteps]
      split
      · rename_i fault hpre
        intro _ hfault
        obtain rfl := Option.some.inj hfault
        exact h pre fault hpre
      · exact ih

end Script

theorem Source.firm_ofSet (op : SetOp) {operands : List Operand}
    (h : ∀ o ∈ operands, o.source.script.Firm) : (ofSet op operands).script.Firm := by
  have hconfined : ∀ i (o : Operand), operands[i]? = some o → o.source.script.Confined
      (fun fault => (fault.inOperand op i).kind = .indexInconsistent) fun _ => True := by
    intro i o ho
    refine ⟨fun fault hfault => ?_, fun _ _ => trivial⟩
    rw [Fault.kind_inOperand]
    exact h o (List.mem_of_getElem? ho) fault hfault
  exact (confined_ofSet hconfined).fault

/-! ## Expressions -/

namespace Expr

variable {live : Live}

theorem firm_resolve (binding : Binding) :
    FirmResult FaultKind.IsOpening (fun _ => True) (live.resolve binding) := by
  unfold Live.resolve
  split
  · trivial
  · exact Or.inl rfl

theorem kind_of_fault? {lookup : Lookup} {fault : Fault} (h : lookup.fault? = some fault) :
    fault.kind = .invalidToken := by
  cases lookup with
  | exact => cases h
  | range interval =>
    simp only [Lookup.fault?] at h
    split at h
    · obtain rfl := Option.some.inj h
      simp [Fault.kind]
    · cases h

theorem firm_openLookup (binding : Binding) (lookup : Lookup) :
    FirmResult FaultKind.IsOpening (fun _ => True) (openLookup live binding lookup) := by
  refine (firm_resolve binding).bind fun s _ => ?_
  cases hfault : lookup.fault? with
  | none => trivial
  | some fault => exact Or.inr (kind_of_fault? hfault)

theorem firm_operandsFrom {op : SetOp} {position : Nat} {es : List Expr}
    (h : ∀ e ∈ es, FirmResult FaultKind.IsOpening (·.script.Firm) (e.source live)) :
    FirmResult FaultKind.IsOpening (fun operands => ∀ o ∈ operands, o.source.script.Firm)
      (operandsFrom live op position es) := by
  induction es generalizing position with
  | nil => exact fun o ho => by cases ho
  | cons e rest ih =>
    obtain ⟨hfirst, hrest⟩ := List.forall_mem_cons.1 h
    refine (hfirst.inOperand op position).bind fun src hsrc => ?_
    exact (ih hrest).bind fun others hothers => List.forall_mem_cons.2 ⟨hsrc, hothers⟩

/-- **No expression is interrupted by itself**: it fails at its opening for one of the causes of
that, or later because of an index.  The induction is on the expression. -/
theorem firm_source (live : Live) (e : Expr) :
    FirmResult FaultKind.IsOpening (·.script.Firm) (e.source live) := by
  induction e with
  | empty => exact Script.firm_of_no_fault rfl
  | nodes binding pres =>
    exact (firm_resolve binding).bind fun s _ => Script.firm_of_no_fault rfl
  | access binding lookup iterable =>
    refine (firm_openLookup binding lookup).bind fun s _ => ?_
    show Script.Firm (if s.index.answers lookup then _ else _)
    split
    · refine Script.firm_ofSteps _ ?_ _
      intro pre fault h
      obtain ⟨reason, _, rfl⟩ := Option.map_eq_some_iff.1 h
      rfl
    · exact Script.firm_ofSteps _ (fun _ _ h => by cases h) _
  | set op operands iterable ih =>
    exact (firm_operandsFrom ih).bind fun sources hsources => Source.firm_ofSet op hsources

end Expr

end XmlStore
