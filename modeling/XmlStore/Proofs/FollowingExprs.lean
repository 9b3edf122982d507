import Mathlib.Data.List.Forall2
import XmlStore.Proofs.FollowingSets
import XmlStore.Proofs.Opening
import XmlStore.Proofs.Operands

/-!
# Readers of expressions

* `Follows.filling` — a merge that has not begun follows the script of its operator.  The operands
  that are not known to ascend are read to their ends first.
* `Follows.ofLookup` — the reader of a lookup follows its script, by the index and by a scan.
* `Expr.opened_reader` — an expression is opened by both or by none, and its reader follows its
  script.
-/

namespace XmlStore

variable {signal : SignalId}

open Script (Slot Stretch)

/-! ## Operands -/

/-- An operand is read to its end by draining its script. -/
theorem Operand.exec_read (op : SetOp) (position : Nat) (o : Operand) (signals : Signals) :
    (o.read op position).exec signal signals =
      match o.source.script.drain signal [] signals with
      | (.error fault, signals) => (.error (fault.inOperand op position), signals)
      | (.ok nodes, signals) => (.ok (.ofNodes (sortDistinct nodes)), signals) := by
  have hplay := Script.play_cases signal o.source.script.steps signals
  unfold read Script.drain
  cases hfault : o.source.script.fault with
  | some fault =>
    rw [Stretch.exec, Script.play_filter_silent]
    rcases hplay with ⟨signals', hp⟩ | ⟨signals', hp⟩ <;> rw [hp] <;> rfl
  | none =>
    rw [Stretch.exec, Script.play_append, Script.play_filter_silent]
    rcases hplay with ⟨signals', hp⟩ | ⟨signals', hp⟩ <;> rw [hp] <;> rfl

/-- An operand and the head that it is read through. -/
structure OperandAt (signal : SignalId) (h : Head Reader) (o : Operand) : Prop where
  sorted : h.sorted = o.sorted
  follows : Follows signal h.source o.source.script

/-- **An operand that is put in order** follows the script of its nodes. -/
theorem OperandAt.arrange {op : SetOp} {position : Nat} {h : Head Reader} {o : Operand}
    (ho : OperandAt signal h o) (signals : Signals) :
    Agrees (fun h script => Follows signal h.source script)
      (fun fuel => Reader.arrange signal fuel op position h signals)
      ((if o.sorted then Stretch.pure o.source.script else o.read op position).exec
        signal signals) := by
  refine .succ ?_
  simp only [Reader.arrange, ho.sorted]
  split
  · exact .ok ho.follows
  · rw [Operand.exec_read]
    refine (ho.follows.collect [] signals).bind_outcome fun result signals' hx => ?_
    generalize o.source.script.drain signal [] signals = drained at hx
    cases hx with
    | failed => exact .failed
    | ok hnodes => exact .ok (hnodes ▸ .listed _)

theorem start_agrees {op : SetOp} (position : Nat) {heads : List (Head Reader)}
    {operands : List Operand} (hs : List.Forall₂ (OperandAt signal) heads operands)
    (signals : Signals) :
    Agrees (HeadsAt signal position)
      (fun fuel => Reader.start signal fuel op position heads signals)
      ((Operand.startAll op position operands).exec signal signals) := by
  induction hs generalizing position signals with
  | nil =>
    refine .succ ?_
    simp only [Reader.start]
    exact .ok .nil
  | cons ho _ ih =>
    refine .succ ?_
    simp only [Reader.start]
    rw [Operand.startAll, Operand.start, Stretch.bind_assoc, Script.exec_bind]
    refine (ho.arrange signals).bind (fun _ _ _ => rfl) ?_
    intro h script signals' hfollows
    have hpull := pull_agrees op (s := ⟨position, none, script⟩) rfl hfollows signals'
    rw [Script.exec_bind]
    refine hpull.bind (fun _ _ _ => rfl) ?_
    intro h' slot signals'' hslot
    rw [Script.exec_bind]
    refine (ih _ signals'').bind (fun _ _ _ => rfl) ?_
    intro heads' slots signals''' hslots
    exact .ok (.cons hslot hslots)

/-! ## Merges that have not begun -/

theorem next_filling (fuel : Nat) (op : SetOp) (heads : List (Head Reader)) (signals : Signals) :
    Reader.next signal (fuel + 2) (.merge op .filling heads) signals =
      (Reader.start signal fuel op 0 heads >>= fun
        | .error fault => pure (.error fault)
        | .ok heads => Reader.next signal (fuel + 1) (.merge op .emitting heads)) signals := by
  rw [Reader.next_eq, Reader.advance, Reading.bind_apply, Reading.bind_apply]
  cases Reader.start signal fuel op 0 heads signals with
  | none => rfl
  | some found =>
    obtain ⟨result, signals'⟩ := found
    cases result with
    | error fault => rfl
    | ok heads => exact (Reader.next_eq signal fuel _ signals').symm

theorem Source.pull_ofSet (op : SetOp) (operands : List Operand) (signals : Signals) :
    (ofSet op operands).script.pull signal signals =
      andThen ((Operand.startAll op 0 operands).exec signal signals) fun slots =>
        (Script.merge op slots).pull signal := by
  have hsilent : Step.allSilent (Operand.startAll op 0 operands).steps = true :=
    Operand.silent_startAll op 0 operands
  unfold ofSet
  split <;> rename_i hstart <;> rw [hstart] at hsilent ⊢
  · rw [Script.pull_of_silent hsilent, Stretch.exec, andThen_assoc]
    rfl
  · rw [Script.pull_after hsilent, Stretch.exec, andThen_assoc]
    rfl

namespace Follows

/-- **A merge that has not begun** follows the script of its operator. -/
theorem filling {op : SetOp} {heads : List (Head Reader)} {operands : List Operand}
    (hs : List.Forall₂ (OperandAt signal) heads operands) :
    Follows signal (.merge op .filling heads) (Source.ofSet op operands).script := by
  refine of_next fun signals => .succ (.succ ?_)
  simp only [next_filling]
  rw [Source.pull_ofSet]
  refine (start_agrees 0 hs signals).bind (fun _ _ _ => rfl) ?_
  intro heads' slots signals' hslots
  exact ((merging hslots (Script.merges_merge op slots)).next signals').more

/-! ## Lookups -/

theorem watches_entrySteps (entries : List Entry) :
    Watches signal none (Entry.steps entries) := by
  intro hpoll
  obtain ⟨entry, _, hmem⟩ := List.mem_flatMap.1 hpoll
  simp at hmem

/-- **The reader of a lookup** follows its script. -/
theorem ofLookup (s : Snapshot) (l : Lookup) :
    Follows signal (.ofLookup signal s l) (Source.ofLookup s l).script := by
  unfold Reader.ofLookup Source.ofLookup
  cases hanswers : s.index.answers l with
  | true =>
    refine lookup (Source.entryFault? s l) ?_ (watches_entrySteps _)
    intro pre
    exact if_pos hanswers
  | false =>
    refine lookup (fun _ => none) ?_ fun _ => rfl
    intro pre
    exact if_neg (by simp [hanswers])

end Follows

/-! ## Opening -/

/-- Both are opened, and alike, or neither is, for the same fault. -/
inductive Opened {α β : Type} (like : α → β → Prop) : Except Fault α → Except Fault β → Prop where
  | failed {fault : Fault} : Opened like (.error fault) (.error fault)
  | ok {a : α} {b : β} : like a b → Opened like (.ok a) (.ok b)

namespace Opened

variable {α β γ δ : Type} {like : α → β → Prop} {like' : γ → δ → Prop}

theorem refl (x : Except Fault α) : Opened Eq x x := by
  cases x with
  | error => exact .failed
  | ok => exact .ok rfl

theorem error_of_error {x : Except Fault α} {fault : Fault} (h : Opened like x (.error fault)) :
    x = .error fault := by
  cases h
  rfl

theorem exists_of_ok {x : Except Fault α} {b : β} (h : Opened like x (.ok b)) :
    ∃ a, x = .ok a ∧ like a b := by
  cases h with
  | ok hlike => exact ⟨_, rfl, hlike⟩

theorem mapError {x : Except Fault α} {y : Except Fault β} (h : Opened like x y)
    (f : Fault → Fault) : Opened like (x.mapError f) (y.mapError f) := by
  cases h with
  | failed => exact .failed
  | ok hlike => exact .ok hlike

theorem bind {x : Except Fault α} {y : Except Fault β} (h : Opened like x y)
    {f : α → Except Fault γ} {g : β → Except Fault δ}
    (hok : ∀ a b, like a b → Opened like' (f a) (g b)) : Opened like' (x >>= f) (y >>= g) := by
  cases h with
  | failed => exact .failed
  | ok hlike => exact hok _ _ hlike

end Opened

namespace Expr

variable {live : Live} {signals : Signals}

/-- A reader follows the script of a source. -/
abbrev FollowsSource (signal : SignalId) (r : Reader) (src : Source) : Prop :=
  Follows signal r src.script

theorem opened_heads {op : SetOp} {position : Nat} {es : List Expr}
    (h : ∀ e ∈ es, Opened (FollowsSource signal) (e.reader live signals signal) (e.source live)) :
    Opened (List.Forall₂ (OperandAt signal)) (heads live signals signal op position es)
      (operandsFrom live op position es) := by
  induction es generalizing position with
  | nil => exact .ok .nil
  | cons e rest ih =>
    obtain ⟨hfirst, hrest⟩ := List.forall_mem_cons.1 h
    rw [heads, operandsFrom]
    refine (hfirst.mapError _).bind fun r src hr => ?_
    refine (ih hrest).bind fun heads operands hs => ?_
    exact .ok (.cons ⟨rfl, hr⟩ hs)

/-- **The reader of an expression follows its script.**  The induction is on the expression. -/
theorem opened_reader (live : Live) (hraised : signals.isRaised signal = false) (e : Expr) :
    Opened (FollowsSource signal) (e.reader live signals signal) (e.source live) := by
  induction e with
  | empty =>
    rw [reader, source, if_neg (by simp [hraised])]
    exact .ok .empty
  | nodes binding pres =>
    rw [reader, source, if_neg (by simp [hraised])]
    refine (Opened.refl (live.resolve binding)).bind fun s _ hs => ?_
    subst hs
    exact .ok (.listed _)
  | access binding lookup iterable =>
    rw [reader, source, if_neg (by simp [hraised])]
    refine (Opened.refl (openLookup live binding lookup)).bind fun s _ hs => ?_
    subst hs
    exact .ok (.ofLookup s lookup)
  | set op operands iterable ih =>
    rw [reader, source, if_neg (by simp [hraised])]
    refine (opened_heads ih).bind fun heads sources hs => ?_
    exact .ok (.filling hs)

theorem reader_of_raised (hraised : signals.isRaised signal = true) (e : Expr) :
    e.reader live signals signal = .error .interrupted := by
  rw [reader.eq_def, if_pos hraised]

end Expr

end XmlStore
