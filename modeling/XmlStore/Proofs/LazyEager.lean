import XmlStore.Proofs.Iterating

/-!
# Node by node and at once

A reading has a course: some nodes, and then an end or a fault.  Both ways of evaluating an
expression show the same course, wherever reading node by node is given up in favour of reading the
rest at once.

* `Script.course` — the course of a script under a signal.
* `Run.seen_eq` — what a run answers to some requests, and what it then has left.
* `LikeEager` — what is seen of a reading node by node, compared with reading at once.
* `Expr.lazy_like_eager` — every expression is read node by node as it is read at once.
-/

namespace XmlStore

variable {signal : SignalId} {signals : Signals}

/-- The answers that hand out some nodes. -/
def handedOut (nodes : List Node) : List (Except Fault (Option Node)) :=
  nodes.map fun node => .ok (some node)

/-- The nodes that come out of a reading, and the fault that it ends with, if any. -/
structure Course where
  nodes : List Node
  fault : Option Fault

namespace Course

/-- What a course comes to if it is read at once. -/
def value (c : Course) : Except Fault (List Node) :=
  match c.fault with
  | none => .ok c.nodes
  | some fault => .error fault

/-- The answer after the last node. -/
def last (c : Course) : Except Fault (Option Node) :=
  match c.fault with
  | none => .ok none
  | some fault => .error fault

/-- The answers to `n` requests for the next node. -/
def answers (c : Course) (n : Nat) : List (Except Fault (Option Node)) :=
  (handedOut c.nodes ++ c.last :: List.replicate n (.ok none)).take n

/-- What is left after `n` requests; nothing once the end was told. -/
def left (c : Course) (n : Nat) : Except Fault (List Node) :=
  if n ≤ c.nodes.length then (Course.mk (c.nodes.drop n) c.fault).value else .ok []

/-- The course with a node before it. -/
def cons (node : Node) (c : Course) : Course := { c with nodes := node :: c.nodes }

theorem value_cons (node : Node) (c : Course) :
    (cons node c).value = c.value.map (node :: ·) := by
  obtain ⟨nodes, fault⟩ := c
  cases fault <;> rfl

theorem answers_cons (node : Node) (c : Course) (n : Nat) :
    (cons node c).answers (n + 1) = .ok (some node) :: c.answers n := by
  have hlast : (cons node c).last = c.last := rfl
  have hlong : n ≤ (handedOut c.nodes ++ c.last :: List.replicate n (.ok none)).length := by
    simp only [List.length_append, List.length_cons, List.length_replicate]
    omega
  rw [answers, answers, hlast, List.replicate_succ', ← List.cons_append, ← List.append_assoc]
  exact congrArg (_ :: ·) (List.take_append_of_le_length hlong)

theorem left_cons (node : Node) (c : Course) (n : Nat) : (cons node c).left (n + 1) = c.left n := by
  simp [left, cons]

/-- The answers of a course without a node. -/
theorem answers_nil {c : Course} (h : c.nodes = []) (n : Nat) :
    c.answers (n + 1) = c.last :: List.replicate n (.ok none) := by
  simp [answers, handedOut, h]

theorem left_nil {c : Course} (h : c.nodes = []) (n : Nat) : c.left (n + 1) = .ok [] := by
  simp [left, h]

theorem answers_of_no_fault (nodes : List Node) (n : Nat) :
    (Course.mk nodes none).answers n =
      handedOut (nodes.take n) ++ List.replicate (n - nodes.length) (.ok none) := by
  show (_ ++ List.replicate (n + 1) _).take n = _
  rw [List.take_append, handedOut, ← List.map_take, List.length_map, List.take_replicate]
  dsimp only
  congr 2
  omega

theorem left_of_no_fault (nodes : List Node) (n : Nat) :
    (Course.mk nodes none).left n = .ok (nodes.drop n) := by
  unfold left
  split
  · rfl
  · rename_i hlong
    rw [List.drop_eq_nil_of_le (Nat.le_of_not_le hlong)]

end Course

/-! ## The course of a script -/

namespace Script

/-- The course of some steps. -/
def courseFrom (signal : SignalId) (fault : Option Fault) : List (Step Node) → Signals → Course
  | [], _ => ⟨[], fault⟩
  | .visit raises :: rest, signals => courseFrom signal fault rest (signals.raiseAll raises)
  | .poll :: rest, signals =>
    if signals.isRaised signal then ⟨[], some .interrupted⟩
    else courseFrom signal fault rest signals
  | .release _ :: rest, signals => courseFrom signal fault rest signals
  | .yield node :: rest, signals => .cons node (courseFrom signal fault rest signals)

/-- The course of a script. -/
def course (signal : SignalId) (s : Script) (signals : Signals) : Course :=
  courseFrom signal s.fault s.steps signals

/-- **The course of a script up to its first node.** -/
theorem course_eq (s : Script) (signals : Signals) :
    s.course signal signals = match s.pull signal signals with
      | (.error fault, _) => ⟨[], some fault⟩
      | (.ok none, _) => ⟨[], none⟩
      | (.ok (some (node, rest)), signals) => .cons node (rest.course signal signals) := by
  obtain ⟨steps, fault⟩ := s
  unfold course pull
  induction steps generalizing signals with
  | nil => cases fault <;> rfl
  | cons step rest ih =>
    cases step with
    | visit => exact ih _
    | poll =>
      simp only [courseFrom, pullFrom]
      split
      · rfl
      · exact ih _
    | release => exact ih _
    | yield => rfl

theorem drain_eq_course (s : Script) (signals : Signals) :
    (s.drain signal [] signals).1 = (s.course signal signals).value := by
  obtain ⟨steps, fault⟩ := s
  unfold course drain nodes
  induction steps generalizing signals with
  | nil => cases fault <;> rfl
  | cons step rest ih =>
    cases step with
    | visit => exact ih _
    | poll =>
      simp only [courseFrom, play]
      split
      · rfl
      · exact ih _
    | release => exact ih _
    | yield node =>
      rw [courseFrom, Course.value_cons, ← ih, play, Step.filterMap_yield]
      rcases play_cases signal rest signals with ⟨signals', hp⟩ | ⟨signals', hp⟩ <;>
        rw [hp]
      · rfl
      · cases fault <;> rfl

end Script

/-! ## What is seen of a run -/

/-- What is seen of a reading: its answers to some requests for the next node, and then all nodes
that are left. -/
abbrev Seen := List (Except Fault (Option Node)) × Except Fault (List Node)

namespace Run

/-- What is seen of a run that is asked `n` times while nobody else raises signals. -/
def seen (r : Run) (signals : Signals) (n : Nat) : Seen :=
  let (pulls, r, signals) := r.pulls signals (List.replicate n [])
  (pulls.map Prod.fst, (r.drain signals).1)

theorem seen_zero (r : Run) (signals : Signals) :
    r.seen signals 0 = ([], (r.script.course r.signal signals).value) := by
  rw [← Script.drain_eq_course, ← drain_eq]
  rfl

theorem seen_succ {r r' : Run} {signals' : Signals} {answer : Except Fault (Option Node)}
    (h : r.next signals = (answer, r', signals')) (n : Nat) :
    r.seen signals (n + 1) =
      (answer :: (r'.seen signals' n).1, (r'.seen signals' n).2) := by
  have hnext : r.next (signals.raiseAll []) = (answer, r', signals') := h
  simp only [seen, List.replicate_succ, pulls, hnext, List.map_cons]

theorem seen_ended {r : Run} (h : r.script = .empty) (signals : Signals) (n : Nat) :
    r.seen signals n = (List.replicate n (.ok none), .ok []) := by
  induction n generalizing r signals with
  | zero =>
    rw [seen_zero, h]
    rfl
  | succ n ih => rw [seen_succ (next_ended h signals), ih rfl, List.replicate_succ]

/-- **A run answers by the course of its script.**  The induction is on the requests. -/
theorem seen_eq (r : Run) (signals : Signals) (n : Nat) :
    r.seen signals n =
      ((r.script.course r.signal signals).answers n,
        (r.script.course r.signal signals).left n) := by
  induction n generalizing r signals with
  | zero =>
    rw [seen_zero]
    rfl
  | succ n ih =>
    obtain ⟨held, hnext⟩ := r.next_eq signals
    rw [Script.course_eq]
    cases hpull : r.script.pull r.signal signals with
    | mk outcome signals' =>
      rw [hpull] at hnext
      cases outcome with
      | error fault =>
        rw [seen_succ hnext, seen_ended rfl, Course.answers_nil rfl, Course.left_nil rfl]
        rfl
      | ok found =>
        cases found with
        | none =>
          rw [seen_succ hnext, seen_ended rfl, Course.answers_nil rfl, Course.left_nil rfl]
          rfl
        | some found =>
          obtain ⟨node, rest⟩ := found
          rw [seen_succ hnext, ih, Course.answers_cons, Course.left_cons]

end Run

/-! ## Expressions -/

/-- What is seen of an iteration that is asked `n` times while nobody else raises signals. -/
def Iteration.seen (fuel : Nat) (i : Iteration) (signals : Signals) (n : Nat) : Option Seen := do
  let ((pulls, i), signals) ← i.pulls fuel (List.replicate n []) signals
  let (rest, _) ← i.drain fuel signals
  return (pulls.map Prod.fst, rest)

/-- With enough fuel this is seen of an iteration. -/
def Iteration.Shows (signals : Signals) (i : Iteration) (n : Nat) (s : Seen) : Prop :=
  Settles (fun fuel => i.seen fuel signals n) s

/-- This is seen of a run. -/
def Run.Shows (signals : Signals) (r : Run) (n : Nat) (s : Seen) : Prop := r.seen signals n = s

theorem Iterates.shows {i : Iteration} {r : Run} (h : Iterates i r) (signals : Signals) (n : Nat) :
    i.Shows signals n (r.seen signals n) := by
  obtain ⟨pulls, i', r', signals', hi, hr, hlast⟩ := h.pulls signals (List.replicate n [])
  rw [Run.seen, hr]
  exact hi.bind ((hlast.drain signals').bind (.const _))

/-- What is seen of a reading node by node, by what reading at once comes to. -/
inductive LikeEager {ι : Type} (shows : ι → Nat → Seen → Prop) :
    Except Fault ι → Except Fault (List Node) → Prop where
  /-- All nodes come one after the other and then no more; those that were not asked for are
  left. -/
  | nodes {i : ι} {nodes : List Node} :
      (∀ n, shows i n (handedOut (nodes.take n) ++
        List.replicate (n - nodes.length) (.ok none), .ok (nodes.drop n))) →
      LikeEager shows (.ok i) (.ok nodes)
  /-- The fault shows when the reading is opened. -/
  | unopened {fault : Fault} : LikeEager shows (.error fault) (.error fault)
  /-- Some nodes come, then the fault, once, and then nothing more; what is left is the fault until
  it was told. -/
  | failing {i : ι} {nodes : List Node} {fault : Fault} :
      (∀ n, shows i n ((handedOut nodes ++
        Except.error fault :: List.replicate n (.ok none)).take n,
          if n ≤ nodes.length then .error fault else .ok [])) →
      LikeEager shows (.ok i) (.error fault)

theorem LikeEager.of_course {ι : Type} {shows : ι → Nat → Seen → Prop} {i : ι} {c : Course}
    (h : ∀ n, shows i n (c.answers n, c.left n)) : LikeEager shows (.ok i) c.value := by
  obtain ⟨nodes, fault⟩ := c
  cases fault with
  | none =>
    refine .nodes fun n => ?_
    rw [← Course.answers_of_no_fault, ← Course.left_of_no_fault]
    exact h n
  | some fault => exact .failing fun n => h n

/-- Reading at once comes to what the course of the script comes to. -/
theorem Expr.result_value (live : Live) (signals : Signals) (signal : SignalId) (e : Expr) :
    (e.value live signals signal).result = match e.begin live signals signal with
      | .error fault => .error fault
      | .ok r => (r.script.course r.signal signals).value := by
  rw [value]
  cases e.begin live signals signal with
  | error fault => rfl
  | ok r =>
    show (r.drain signals).1 = _
    rw [Run.drain_eq, Script.drain_eq_course]

/-- The mode makes no difference to what an evaluation comes to. -/
theorem Expr.result_evaluate (live : Live) (signals : Signals) (signal : SignalId) (mode : Mode)
    (e : Expr) : (e.evaluate live signals signal mode).result =
      (e.value live signals signal).result := rfl

/-- **Every expression is read node by node as it is read at once**, whatever signals its indexes
raise while they are read.  Both ways of reading come to an end, and a run answers as the reader
does. -/
theorem Expr.lazy_like_eager (live : Live) (signals : Signals) (signal : SignalId) (e : Expr) :
    ∃ value after, Settles (fun fuel => e.collect live signal fuel signals) (value, after) ∧
      LikeEager (Iteration.Shows signals) (e.iterate live signals signal) value ∧
      (e.value live signals signal).result = value ∧
      LikeEager (Run.Shows signals) (e.begin live signals signal) value := by
  refine ⟨_, _, e.collect_settles live signals signal, ?_, rfl, ?_⟩
  all_goals rw [e.result_value live signals signal]
  · have hopened := e.opened_iterate live signals signal
    cases hbegin : e.begin live signals signal with
    | error fault =>
      rw [hbegin] at hopened
      rw [hopened.error_of_error]
      exact .unopened
    | ok r =>
      rw [hbegin] at hopened
      obtain ⟨i, hi, hiterates⟩ := hopened.exists_of_ok
      rw [hi]
      exact .of_course fun n => r.seen_eq signals n ▸ hiterates.shows signals n
  · cases e.begin live signals signal with
    | error fault => exact .unopened
    | ok r => exact .of_course fun n => r.seen_eq signals n

end XmlStore
