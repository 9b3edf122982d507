import XmlStore.Proofs.AdditionHistory

/-!
# Writers side by side

Additions to one database take their steps in any order, and so do others that take its lock and
give it back.

* `Concurrent.Writer.step` — the next step of an addition: it resolves the name, takes the lock,
  reads the current snapshot, builds its successor, swaps it in and gives the lock back.
* `Concurrent.System.run` — what a database and everyone at it come to when a list of moves is made;
  `Concurrent.System.swaps` are the additions that swap their snapshot in on the way.
* `Concurrent.run_alone` — an addition with no one in between is `Database.add`.
* `Concurrent.exists_done` — no addition waits for anyone: it has ended after six steps of its own.
-/

namespace XmlStore.Concurrent

open Database (hasContent resolve)

/-! ## Moves -/

/-- How far an addition has come. -/
inductive Stage where
  | called
  | resolved (target : Target)
  | locked (target : Target)
  /-- The snapshot is read that is to be extended. -/
  | read (target : Target) (base : Snapshot)
  | built (target : Target) (next : Snapshot)
  | swapped (target : Target)
  | done (result : Except Database.Refusal Bytes)

/-- An addition of a document under a path. -/
structure Writer where
  path : Bytes
  document : Document
  stage : Stage

/-- The next step of an addition, which sees and changes the database at its own time. -/
def Writer.step (w : Writer) (s : Database.State) : Database.State × Stage :=
  match w.stage with
  | .called =>
    match resolve w.path w.document.table with
    | .error e => (s, .done (.error e))
    | .ok target =>
      if hasContent w.document.table then (s, .resolved target) else (s, .done (.ok target.name))
  | .resolved target =>
    match s.database.tryLock with
    | none => (s, .done (.error (.busy s.database.name)))
    | some database => ({ s with database := database }, .locked target)
  | .locked target => (s, .read target s.database.current)
  | .read target base =>
    let extended : Database := { s.database with current := base }
    ({ s with nextId := s.nextId + 1 },
      .built target (extended.successor s.nextId target.path w.document.table).1)
  | .built target next => ({ s with database := s.database.swap next }, .swapped target)
  | .swapped target => ({ s with database := s.database.unlock }, .done (.ok target.name))
  | .done result => (s, .done result)

/-- Somebody at a database. -/
inductive Party where
  | writer (w : Writer)
  /-- Somebody who takes the lock at times, for another purpose than an addition. -/
  | outsider (holds : Bool)

/-- The next step of somebody: an outsider gives the lock back, or else tries to take it. -/
def Party.step (s : Database.State) : Party → Database.State × Party
  | .writer w => ((w.step s).1, .writer { w with stage := (w.step s).2 })
  | .outsider true => ({ s with database := s.database.unlock }, .outsider false)
  | .outsider false =>
    match s.database.tryLock with
    | none => (s, .outsider false)
    | some database => ({ s with database := database }, .outsider true)

/-- A database and everyone who has come to it. -/
structure System where
  state : Database.State
  parties : List Party

/-- Something that happens at a database. -/
inductive Move where
  /-- An addition is called. -/
  | call (path : Bytes) (document : Document)
  /-- An outsider arrives. -/
  | arrive
  /-- Somebody takes a step. -/
  | step (party : Nat)

/-- Whether a move is a step of this party. -/
def Move.isStepOf (i : Nat) : Move → Bool
  | .step j => j == i
  | _ => false

namespace System

/-- The system after a move. -/
def after (s : System) : Move → System
  | .call path f => { s with parties := s.parties ++ [.writer ⟨path, f, .called⟩] }
  | .arrive => { s with parties := s.parties ++ [.outsider false] }
  | .step i =>
    match s.parties[i]? with
    | none => s
    | some party => ⟨(party.step s.state).1, s.parties.set i (party.step s.state).2⟩

/-- The system after some moves. -/
def run (s : System) (moves : List Move) : System := moves.foldl after s

end System

/-- The addition that swaps its snapshot in with its next step. -/
def Party.swap? : Party → Option (Bytes × Document)
  | .writer ⟨path, f, .built ..⟩ => some (path, f)
  | _ => none

namespace System

/-- The addition that is swapped in by a move, with the number of its writer. -/
def swapsOf (s : System) : Move → List (Nat × Bytes × Document)
  | .call .. => []
  | .arrive => []
  | .step i => ((s.parties[i]?.bind Party.swap?).map fun addition => (i, addition)).toList

/-- The additions that are swapped in by some moves, in this order. -/
def swaps (s : System) : List Move → List (Nat × Bytes × Document)
  | [] => []
  | m :: rest => s.swapsOf m ++ (s.after m).swaps rest

variable {s : System} {i : Nat} {party : Party}

theorem after_step (h : s.parties[i]? = some party) :
    s.after (.step i) = ⟨(party.step s.state).1, s.parties.set i (party.step s.state).2⟩ := by
  rw [after, h]

theorem after_step_none (h : s.parties[i]? = none) : s.after (.step i) = s := by
  rw [after, h]

/-- A step changes nobody but who takes it. -/
theorem getElem?_after_step (h : s.parties[i]? = some party) (j : Nat) :
    (s.after (.step i)).parties[j]? =
      if j = i then some (party.step s.state).2 else s.parties[j]? := by
  have hlt : i < s.parties.length := (List.getElem?_eq_some_iff.1 h).1
  rw [after_step h, List.getElem?_set]
  by_cases hj : j = i
  · rw [if_pos hj.symm, if_pos hlt, if_pos hj]
  · rw [if_neg (Ne.symm hj), if_neg hj]

end System

/-! ## One addition -/

section Alone

variable (s : Database.State) (path : Bytes) (f : Document)

theorem run_alone_cons (stage : Stage) (moves : List Move) :
    System.run ⟨s, [.writer ⟨path, f, stage⟩]⟩ (.step 0 :: moves) =
      System.run ⟨(Writer.step ⟨path, f, stage⟩ s).1,
        [.writer ⟨path, f, (Writer.step ⟨path, f, stage⟩ s).2⟩]⟩ moves := rfl

theorem run_alone_done (result : Except Database.Refusal Bytes) (n : Nat) :
    System.run ⟨s, [.writer ⟨path, f, .done result⟩]⟩ (List.replicate n (.step 0)) =
      ⟨s, [.writer ⟨path, f, .done result⟩]⟩ := by
  induction n with
  | zero => rfl
  | succ n ih => rw [List.replicate_succ, run_alone_cons, Writer.step, ih]

/-- **An addition with no one in between** is what adding comes to. -/
theorem run_alone :
    System.run ⟨s, [.writer ⟨path, f, .called⟩]⟩ (List.replicate 6 (.step 0)) =
      ⟨s.after (.add path f), [.writer ⟨path, f, .done (s.addition path f).result⟩]⟩ := by
  have hadd : s.addition path f = s.database.add s.nextId path f.table := rfl
  rw [List.replicate_succ, run_alone_cons, Writer.step, Database.State.after, hadd, Database.add]
  cases resolve path f.table with
  | error e => exact run_alone_done s path f _ 5
  | ok target =>
    cases hasContent f.table with
    | false => exact run_alone_done s path f _ 5
    | true =>
      simp only [if_true]
      rw [List.replicate_succ, run_alone_cons, Writer.step]
      cases s.database.tryLock with
      | none => exact run_alone_done s path f _ 4
      | some database => rfl

end Alone

/-- How many steps are left of an addition at most. -/
def Stage.left : Stage → Nat
  | called => 6
  | resolved _ => 5
  | locked _ => 4
  | read .. => 3
  | built .. => 2
  | swapped _ => 1
  | done _ => 0

theorem Stage.exists_done_of_left {stage : Stage} (h : stage.left = 0) :
    ∃ result, stage = .done result := by
  cases stage with
  | done result => exact ⟨result, rfl⟩
  | _ => cases h

theorem Writer.left_step (w : Writer) (s : Database.State) :
    (w.step s).2.left ≤ w.stage.left - 1 := by
  obtain ⟨path, f, stage⟩ := w
  cases stage with
  | called =>
    simp only [step]
    split
    · exact Nat.zero_le _
    · split
      · exact Nat.le_refl 5
      · exact Nat.zero_le _
  | resolved target =>
    simp only [step]
    split
    · exact Nat.zero_le _
    · exact Nat.le_refl 4
  | locked | read | built | swapped | done => exact Nat.le_refl _

/-- With every step that an addition takes there are fewer left, whatever others do. -/
theorem left_run {s : System} {i : Nat} {w : Writer} (h : s.parties[i]? = some (.writer w))
    (moves : List Move) :
    ∃ stage, (s.run moves).parties[i]? = some (.writer { w with stage := stage }) ∧
      stage.left ≤ w.stage.left - moves.countP (Move.isStepOf i) := by
  induction moves generalizing s w with
  | nil => exact ⟨w.stage, h, Nat.le_refl _⟩
  | cons m rest ih =>
    -- the addition stays or, if the step is its own, goes on
    have hafter : ∃ stage, (s.after m).parties[i]? = some (.writer { w with stage := stage }) ∧
        stage.left ≤ w.stage.left - (if m.isStepOf i then 1 else 0) := by
      have hlt : i < s.parties.length := (List.getElem?_eq_some_iff.1 h).1
      match m with
      | .call path f => exact ⟨w.stage, (List.getElem?_append_left hlt).trans h, Nat.le_refl _⟩
      | .arrive => exact ⟨w.stage, (List.getElem?_append_left hlt).trans h, Nat.le_refl _⟩
      | .step j =>
        by_cases hj : j = i
        · subst hj
          refine ⟨(w.step s.state).2, ?_, ?_⟩
          · rw [System.getElem?_after_step h, if_pos rfl]
            rfl
          · rw [Move.isStepOf, beq_self_eq_true, if_pos rfl]
            exact w.left_step s.state
        · refine ⟨w.stage, ?_, ?_⟩
          · cases hparty : s.parties[j]? with
            | none => rw [System.after_step_none hparty, h]
            | some party => rw [System.getElem?_after_step hparty, if_neg (Ne.symm hj), h]
          · rw [Move.isStepOf, beq_eq_false_iff_ne.2 hj]
            exact Nat.le_refl _
    obtain ⟨stage, hstage, hleft⟩ := hafter
    obtain ⟨stage', hstage', hleft'⟩ := ih hstage
    refine ⟨stage', hstage', ?_⟩
    rw [List.countP_cons]
    simp only at hleft'
    omega

/-- **No addition waits for anyone.** -/
theorem exists_done {s : System} {i : Nat} {w : Writer} (h : s.parties[i]? = some (.writer w))
    {moves : List Move} (hsteps : 6 ≤ moves.countP (Move.isStepOf i)) :
    ∃ result, (s.run moves).parties[i]? =
      some (.writer { w with stage := .done result }) := by
  obtain ⟨stage, hstage, hleft⟩ := left_run h moves
  have hmost : w.stage.left ≤ 6 := by
    cases w.stage <;> simp [Stage.left]
  have hnone : stage.left = 0 := by omega
  obtain ⟨result, rfl⟩ := Stage.exists_done_of_left hnone
  exact ⟨result, hstage⟩

end XmlStore.Concurrent
