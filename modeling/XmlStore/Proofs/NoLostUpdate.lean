import XmlStore.Proofs.Writers

/-!
# No update is lost

However additions and outsiders mix their steps at a database, its lock admits one of them at a
time, so that nobody replaces a snapshot that he has not read.

* `Concurrent.Effect` — what a step can do to a database, and `Concurrent.Party.effect` that it does
  nothing else.
* `Concurrent.Guarded` — there is one guard at most, and the lock is taken while there is one.
* `Concurrent.Recorded` — the rows of the current snapshot are those of the documents that were
  swapped in, each of them once.
* `Concurrent.no_lost_update` — both hold after all moves on a new database, and every addition ends
  with an answer or a refusal.
-/

namespace XmlStore.Concurrent

open Database (hasContent resolve extended shelve)

/-! ## What a step does -/

namespace Party

/-- Whether somebody has the guard of the lock. -/
def holds : Party → Bool
  | writer ⟨_, _, .locked _⟩ => true
  | writer ⟨_, _, .read ..⟩ => true
  | writer ⟨_, _, .built ..⟩ => true
  | writer ⟨_, _, .swapped _⟩ => true
  | writer _ => false
  | outsider holds => holds

/-- The addition of somebody that has swapped its snapshot in. -/
def swapped? : Party → Option (Bytes × Document)
  | writer ⟨path, f, .swapped _⟩ => some (path, f)
  | writer ⟨path, f, .done (.ok _)⟩ => if 1 < f.table.size then some (path, f) else none
  | _ => none

end Party

/-- A document has a place to go and something to add. -/
def Goes (path : Bytes) (f : Document) (target : Target) : Prop :=
  f.target? path = some target ∧ 1 < f.table.size

/-- What somebody knows of a database is right. -/
def Party.Fits (d : Database) : Party → Prop
  | writer ⟨path, f, stage⟩ =>
    match stage with
    | .called => True
    | .resolved target => Goes path f target
    | .locked target => Goes path f target
    | .read target base => Goes path f target ∧ base = d.current
    | .built target next =>
      Goes path f target ∧ next.table = extended d.current.table (f.storedPath path) f.table
    | .swapped target => Goes path f target
    | .done (.ok _) => True
    | .done (.error e) => (∃ name, e = .nameInvalid name) ∨ e = .busy d.name
  | outsider _ => True

/-- What somebody without the guard knows is right whatever the current snapshot is. -/
theorem Party.Fits.frame {p : Party} {d d' : Database} (h : p.Fits d) (hname : d'.name = d.name)
    (hcurrent : d'.current = d.current ∨ p.holds = false) : p.Fits d' := by
  obtain ⟨path, f, stage⟩ | holds := p
  · cases stage with
    | called | resolved | locked | swapped => exact h
    | read target base =>
      obtain hcurrent | hholds := hcurrent
      · exact ⟨h.1, h.2.trans hcurrent.symm⟩
      · cases hholds
    | built target next =>
      obtain hcurrent | hholds := hcurrent
      · exact ⟨h.1, by rw [hcurrent]; exact h.2⟩
      · cases hholds
    | done result =>
      cases result with
      | ok name => trivial
      | error e => exact h.imp_right fun hbusy => by rw [hname]; exact hbusy
  · trivial

/-- What a step that turns `p` into `p'` does to a database. -/
inductive Effect (d : Database) (p p' : Party) : Database → Prop where
  /-- It leaves the database alone. -/
  | none (hswap : p.swap? = none) (hholds : p'.holds = p.holds)
      (hswapped : p'.swapped? = p.swapped?) : Effect d p p' d
  /-- It takes the lock, which is free. -/
  | takes (hfree : d.locked = false) (hswap : p.swap? = none) (hholds : p'.holds = true)
      (hswapped : p'.swapped? = p.swapped?) : Effect d p p' { d with locked := true }
  /-- It makes a snapshot the current one that has the rows of the document behind the others. -/
  | swaps (path : Bytes) (f : Document) (next : Snapshot) (hswap : p.swap? = some (path, f))
      (htable : next.table = extended d.current.table (f.storedPath path) f.table)
      (hheld : p.holds = true) (hholds : p'.holds = true)
      (hbefore : p.swapped? = .none) (hswapped : p'.swapped? = some (path, f)) :
      Effect d p p' { d with current := next }
  /-- It gives the lock back. -/
  | gives (hswap : p.swap? = none) (hheld : p.holds = true) (hholds : p'.holds = false)
      (hswapped : p'.swapped? = p.swapped?) : Effect d p p' { d with locked := false }

namespace Effect

variable {d d' : Database} {p p' : Party}

theorem name (h : Effect d p p' d') : d'.name = d.name := by
  cases h <;> rfl

/-- The current snapshot is replaced by those only who have the guard. -/
theorem current (h : Effect d p p' d') : d'.current = d.current ∨ p.holds = true := by
  cases h with
  | swaps _ _ _ _ _ hheld => exact Or.inr hheld
  | none | takes | gives => exact Or.inl rfl

end Effect

theorem Goes.storedPath {path : Bytes} {f : Document} {target : Target} (h : Goes path f target) :
    f.storedPath path = target.path := by
  rw [Document.storedPath, h.1]
  rfl

theorem tryLock_cases (d : Database) :
    d.locked = true ∧ d.tryLock = none ∨
      d.locked = false ∧ d.tryLock = some { d with locked := true } := by
  unfold Database.tryLock
  cases d.locked with
  | true => exact Or.inl ⟨rfl, rfl⟩
  | false => exact Or.inr ⟨rfl, rfl⟩

/-- **What a step does**: it has one of the effects, and what is known afterwards is right. -/
theorem Party.effect {p : Party} {s : Database.State} (h : p.Fits s.database) :
    Effect s.database p (p.step s).2 (p.step s).1.database ∧
      (p.step s).2.Fits (p.step s).1.database := by
  obtain ⟨path, f, stage⟩ | holds := p
  · cases stage with
    | called =>
      simp only [step, Writer.step]
      obtain ⟨target, htarget, hresolve⟩ | ⟨_, name, hresolve⟩ := f.resolve_cases path
      · rw [hresolve]
        by_cases hsize : 1 < f.table.size
        · have hcontent : hasContent f.table = true := decide_eq_true hsize
          simp only [hcontent, if_true]
          exact ⟨.none rfl rfl rfl, htarget, hsize⟩
        · have hcontent : hasContent f.table = false := decide_eq_false hsize
          simp only [hcontent]
          exact ⟨.none rfl rfl (if_neg hsize), trivial⟩
      · rw [hresolve]
        exact ⟨.none rfl rfl rfl, Or.inl ⟨name, rfl⟩⟩
    | resolved target =>
      simp only [step, Writer.step]
      obtain ⟨_, htry⟩ | ⟨hfree, htry⟩ := tryLock_cases s.database
      · rw [htry]
        exact ⟨.none rfl rfl rfl, Or.inr rfl⟩
      · rw [htry]
        exact ⟨.takes hfree rfl rfl rfl, h⟩
    | locked target => exact ⟨.none rfl rfl rfl, h, rfl⟩
    | read target base =>
      obtain ⟨hgoes, rfl⟩ := h
      refine ⟨.none rfl rfl rfl, hgoes, ?_⟩
      rw [hgoes.storedPath]
      rfl
    | built target next => exact ⟨.swaps path f next rfl h.2 rfl rfl rfl rfl, h.1⟩
    | swapped target => exact ⟨.gives rfl rfl rfl (if_pos h.2), trivial⟩
    | done result => exact ⟨.none rfl rfl rfl, h⟩
  · cases holds with
    | true => exact ⟨.gives rfl rfl rfl rfl, trivial⟩
    | false =>
      simp only [step]
      obtain ⟨_, htry⟩ | ⟨hfree, htry⟩ := tryLock_cases s.database
      · rw [htry]
        exact ⟨.none rfl rfl rfl, trivial⟩
      · rw [htry]
        exact ⟨.takes hfree rfl rfl rfl, trivial⟩

/-! ## What is kept -/

namespace System

/-- Whether the party with this number has the guard. -/
def holdsAt (s : System) (i : Nat) : Bool := s.parties[i]?.any Party.holds

/-- The addition of this number, if it has swapped its snapshot in. -/
def swappedAt (s : System) (i : Nat) : Option (Bytes × Document) :=
  s.parties[i]?.bind Party.swapped?

/-- What is seen of the rows in the current snapshot. -/
def views (s : System) : List RowView := s.state.views

end System

/-- There is one guard at most, and the lock is taken while there is one. -/
structure Guarded (s : System) : Prop where
  unique : ∀ i j, s.holdsAt i = true → s.holdsAt j = true → i = j
  locked_iff : s.state.database.locked = true ↔ ∃ i, s.holdsAt i = true

/-- The rows are those of the documents that were swapped in, each of them once. -/
structure Recorded (s : System) (swaps : List (Nat × Bytes × Document)) : Prop where
  named : s.state.database.current.table.Named
  nodup : (swaps.map Prod.fst).Nodup
  mem_iff : ∀ i addition, (i, addition) ∈ swaps ↔ s.swappedAt i = some addition
  views : s.views = shelve [] (swaps.map Prod.snd)

section Step

variable {s s' : System} {swaps : List (Nat × Bytes × Document)} {i : Nat} {p p' : Party}

/-- Nothing changes for the guard when nobody gets it or loses it. -/
theorem Guarded.congr (h : Guarded s) (hholds : ∀ j, s'.holdsAt j = s.holdsAt j)
    (hlocked : s'.state.database.locked = s.state.database.locked) : Guarded s' where
  unique j k hj hk := h.unique j k (hholds j ▸ hj) (hholds k ▸ hk)
  locked_iff := by
    simp only [hlocked, hholds]
    exact h.locked_iff

theorem Recorded.congr (h : Recorded s swaps) (hswapped : ∀ j, s'.swappedAt j = s.swappedAt j)
    (hcurrent : s'.state.database.current = s.state.database.current) : Recorded s' swaps where
  named := by
    rw [hcurrent]
    exact h.named
  nodup := h.nodup
  mem_iff j addition := by
    rw [hswapped]
    exact h.mem_iff j addition
  views := by
    rw [System.views, Database.State.views, hcurrent]
    exact h.views

/-- A step that turns `p` into `p'` at place `i`. -/
structure Steps (s s' : System) (i : Nat) (p p' : Party) : Prop where
  party : s.parties[i]? = some p
  parties : ∀ j, s'.parties[j]? = if j = i then some p' else s.parties[j]?
  effect : Effect s.state.database p p' s'.state.database

namespace Steps

variable (hstep : Steps s s' i p p')

include hstep

theorem holdsAt_self : s.holdsAt i = p.holds := by
  rw [System.holdsAt, hstep.party]
  rfl

theorem holdsAt (j : Nat) : s'.holdsAt j = if j = i then p'.holds else s.holdsAt j := by
  rw [System.holdsAt, hstep.parties]
  split <;> rfl

theorem swappedAt_self : s.swappedAt i = p.swapped? := by
  rw [System.swappedAt, hstep.party]
  rfl

theorem swappedAt (j : Nat) : s'.swappedAt j = if j = i then p'.swapped? else s.swappedAt j := by
  rw [System.swappedAt, hstep.parties]
  split <;> rfl

theorem holdsAt_congr (h : p'.holds = p.holds) (j : Nat) : s'.holdsAt j = s.holdsAt j := by
  rw [hstep.holdsAt]
  split
  · rename_i hj
    rw [hj, hstep.holdsAt_self, h]
  · rfl

theorem swappedAt_congr (h : p'.swapped? = p.swapped?) (j : Nat) :
    s'.swappedAt j = s.swappedAt j := by
  rw [hstep.swappedAt]
  split
  · rename_i hj
    rw [hj, hstep.swappedAt_self, h]
  · rfl

/-- **A step keeps the guard unique.** -/
theorem guarded (h : Guarded s) : Guarded s' := by
  have heffect := hstep.effect
  generalize hdatabase : s'.state.database = d' at heffect
  cases heffect with
  | none _ hholds _ => exact h.congr (hstep.holdsAt_congr hholds) (by rw [hdatabase])
  | swaps _ _ _ _ _ hheld hholds =>
    exact h.congr (hstep.holdsAt_congr (hholds.trans hheld.symm)) (by rw [hdatabase])
  | takes hfree _ hholds _ =>
    -- nobody had the guard, and now `i` has it
    have hnobody : ∀ j, s.holdsAt j = false := fun j =>
      Bool.eq_false_iff.2 fun hj => by
        rw [h.locked_iff.2 ⟨j, hj⟩] at hfree
        cases hfree
    have honly : ∀ j, s'.holdsAt j = true → j = i := fun j hj => by
      by_contra hne
      rw [hstep.holdsAt, if_neg hne, hnobody] at hj
      cases hj
    refine ⟨fun j k hj hk => (honly j hj).trans (honly k hk).symm, ?_⟩
    rw [hdatabase]
    exact ⟨fun _ => ⟨i, by rw [hstep.holdsAt, if_pos rfl, hholds]⟩, fun _ => rfl⟩
  | gives _ hheld hholds _ =>
    -- `i` had the guard, and now nobody has it
    have hnobody : ∀ j, ¬ s'.holdsAt j = true := fun j hj => by
      rw [hstep.holdsAt] at hj
      split at hj
      · rw [hholds] at hj
        cases hj
      · rename_i hne
        exact hne (h.unique j i hj (hstep.holdsAt_self.trans hheld))
    refine ⟨fun j k hj => absurd hj (hnobody j), ?_⟩
    rw [hdatabase]
    exact ⟨fun hlocked => absurd hlocked Bool.false_ne_true, fun ⟨j, hj⟩ => absurd hj (hnobody j)⟩

/-- **A step adds the rows of the document that is swapped in**, if there is one. -/
theorem recorded (h : Recorded s swaps) :
    Recorded s' (swaps ++ (p.swap?.map fun addition => (i, addition)).toList) := by
  have heffect := hstep.effect
  generalize hdatabase : s'.state.database = d' at heffect
  cases heffect with
  | none hswap _ hswapped | takes _ hswap _ hswapped | gives hswap _ _ hswapped =>
    rw [hswap, Option.map_none, Option.toList_none, List.append_nil]
    exact h.congr (hstep.swappedAt_congr hswapped) (by rw [hdatabase])
  | swaps path f next hswap htable _ _ hbefore hswapped =>
    have hnew : ∀ addition, (i, addition) ∉ swaps := fun addition hmem => by
      have hsome := (h.mem_iff i addition).1 hmem
      rw [hstep.swappedAt_self, hbefore] at hsome
      cases hsome
    rw [hswap, Option.map_some, Option.toList_some]
    refine ⟨?_, ?_, fun j addition => ?_, ?_⟩
    · rw [hdatabase]
      show next.table.Named
      rw [htable]
      exact h.named.extended _ _
    · rw [List.map_append, List.nodup_append]
      refine ⟨h.nodup, List.nodup_singleton _, ?_⟩
      rintro j hj k hk rfl
      obtain ⟨⟨_, addition⟩, hmem, rfl⟩ := List.mem_map.1 hj
      obtain rfl := List.mem_singleton.1 hk
      exact hnew addition hmem
    · rw [List.mem_append, h.mem_iff, List.mem_singleton, Prod.mk.injEq, hstep.swappedAt]
      by_cases hj : j = i
      · rw [if_pos hj, hswapped, hj, hstep.swappedAt_self, hbefore]
        simp [eq_comm]
      · rw [if_neg hj]
        simp [hj]
    · have hviews : s'.views = s.views ++ f.table.shelved s.views.length (f.storedPath path) := by
        rw [System.views, Database.State.views, hdatabase]
        show next.table.views = _
        rw [htable, Table.views_extended h.named f.made.named f.made.sound, ← Table.length_views]
        rfl
      rw [hviews, h.views, List.map_append, shelve, shelve, List.foldl_append]
      rfl

/-- What the others know stays right: they do not have the guard, or the current snapshot stays. -/
theorem fits (hguarded : Guarded s)
    (h : ∀ (j : Nat) (q : Party), s.parties[j]? = some q → q.Fits s.state.database)
    (hself : p'.Fits s'.state.database) (j : Nat) (q : Party) (hq : s'.parties[j]? = some q) :
    q.Fits s'.state.database := by
  rw [hstep.parties] at hq
  split at hq
  · rw [← Option.some.inj hq]
    exact hself
  · rename_i hj
    refine (h j q hq).frame hstep.effect.name ?_
    refine hstep.effect.current.imp_right fun hheld => Bool.eq_false_iff.2 fun hholds => ?_
    refine hj (hguarded.unique j i ?_ (hstep.holdsAt_self.trans hheld))
    rw [System.holdsAt, hq]
    exact hholds

end Steps

end Step

/-! ## Runs -/

/-- What is kept by all moves. -/
structure Kept (s : System) (swaps : List (Nat × Bytes × Document)) : Prop where
  guarded : Guarded s
  recorded : Recorded s swaps
  fits : ∀ (i : Nat) (p : Party), s.parties[i]? = some p → p.Fits s.state.database

namespace Kept

variable {s : System} {swaps : List (Nat × Bytes × Document)}

/-- Somebody arrives who has not done anything. -/
theorem arrive (h : Kept s swaps) {p : Party} (hholds : p.holds = false)
    (hswapped : p.swapped? = none) (hfits : p.Fits s.state.database) :
    Kept { s with parties := s.parties ++ [p] } swaps := by
  have hcases : ∀ j, (s.parties ++ [p])[j]? = s.parties[j]? ∨
      (s.parties ++ [p])[j]? = some p ∧ s.parties[j]? = none := fun j => by
    obtain hlt | rfl | hgt := Nat.lt_trichotomy j s.parties.length
    · exact Or.inl (List.getElem?_append_left hlt)
    · exact Or.inr ⟨List.getElem?_concat_length, List.getElem?_eq_none (Nat.le_refl _)⟩
    · refine Or.inl ?_
      rw [List.getElem?_eq_none (Nat.le_of_lt hgt), List.getElem?_eq_none]
      rw [List.length_append]
      exact hgt
  refine ⟨h.guarded.congr (fun j => ?_) rfl, h.recorded.congr (fun j => ?_) rfl, fun j q hq => ?_⟩
  · obtain hsame | ⟨hnew, hnone⟩ := hcases j
    · rw [System.holdsAt, hsame, System.holdsAt]
    · rw [System.holdsAt, hnew, System.holdsAt, hnone]
      exact hholds
  · obtain hsame | ⟨hnew, hnone⟩ := hcases j
    · rw [System.swappedAt, hsame, System.swappedAt]
    · rw [System.swappedAt, hnew, System.swappedAt, hnone]
      exact hswapped
  · obtain hsame | ⟨hnew, _⟩ := hcases j
    · exact h.fits j q (hsame.symm.trans hq)
    · rw [← Option.some.inj (hnew.symm.trans hq)]
      exact hfits

/-- **A move** keeps it. -/
theorem after (h : Kept s swaps) (m : Move) : Kept (s.after m) (swaps ++ s.swapsOf m) := by
  match m with
  | .call path f =>
    rw [System.swapsOf, List.append_nil]
    exact h.arrive rfl rfl trivial
  | .arrive =>
    rw [System.swapsOf, List.append_nil]
    exact h.arrive rfl rfl trivial
  | .step i =>
    rw [System.swapsOf]
    cases hparty : s.parties[i]? with
    | none =>
      rw [System.after_step_none hparty, Option.bind_none, Option.map_none, Option.toList_none,
        List.append_nil]
      exact h
    | some p =>
      obtain ⟨heffect, hfits⟩ := Party.effect (h.fits i p hparty)
      have hstate : (s.after (.step i)).state = (p.step s.state).1 := by
        rw [System.after_step hparty]
      have hstep : Steps s (s.after (.step i)) i p (p.step s.state).2 :=
        ⟨hparty, System.getElem?_after_step hparty, by rw [hstate]; exact heffect⟩
      rw [← hstate] at hfits
      exact ⟨hstep.guarded h.guarded, hstep.recorded h.recorded,
        hstep.fits h.guarded h.fits hfits⟩

/-- **All moves** keep it. -/
theorem run (h : Kept s swaps) (moves : List Move) :
    Kept (s.run moves) (swaps ++ s.swaps moves) := by
  induction moves generalizing s swaps with
  | nil =>
    rw [System.swaps, List.append_nil]
    exact h
  | cons m rest ih =>
    rw [System.swaps, ← List.append_assoc]
    exact ih (h.after m)

end Kept

theorem kept_create {id : Nat} {name : String} {options : Options} {d : Database}
    {events : List Event} (h : Database.create id name options = .ok (d, events)) :
    Kept ⟨⟨d, id + 1⟩, []⟩ [] := by
  obtain ⟨hsound, hempty⟩ := Database.sound_create h
  have hfree : d.locked = false := by
    unfold Database.create at h
    split at h
    · obtain ⟨rfl, _⟩ := Prod.mk.inj (Except.ok.inj h)
      rfl
    · cases h
  refine ⟨⟨fun i j hi => ?_, ?_⟩, ⟨hsound.named, List.nodup_nil, fun i addition => ?_, hempty⟩,
    fun i p hp => ?_⟩
  · cases hi
  · show d.locked = true ↔ _
    rw [hfree]
    exact ⟨fun htrue => absurd htrue Bool.false_ne_true, fun ⟨i, hi⟩ => by cases hi⟩
  · exact ⟨fun hmem => absurd hmem List.not_mem_nil, fun hsome => nomatch hsome⟩
  · cases hp

/-- What holds at a database of all who have come to it, with the additions in the order in which
they swapped their snapshots in. -/
structure Consistent (s : System) (swaps : List (Nat × Bytes × Document)) : Prop where
  /-- There is one guard at most. -/
  unique : ∀ i j, s.holdsAt i = true → s.holdsAt j = true → i = j
  /-- The lock is taken while there is one. -/
  locked_iff : s.state.database.locked = true ↔ ∃ i, s.holdsAt i = true
  /-- An addition that has ended was answered, or it was refused for its path or for the lock. -/
  ended : ∀ (i : Nat) path f result, s.parties[i]? = some (.writer ⟨path, f, .done result⟩) →
    (∃ name, result = .ok name) ∨ (∃ name, result = .error (.nameInvalid name)) ∨
      result = .error (.busy s.state.database.name)
  /-- Every addition ends once it has taken six steps, whatever the others do. -/
  ends : ∀ (i : Nat) path f stage (moves : List Move),
    s.parties[i]? = some (.writer ⟨path, f, stage⟩) → 6 ≤ moves.countP (Move.isStepOf i) →
    ∃ result, (s.run moves).parties[i]? = some (.writer ⟨path, f, .done result⟩)
  /-- No addition swaps its snapshot in twice. -/
  nodup : (swaps.map Prod.fst).Nodup
  /-- The additions that have swapped theirs in are those that are about to give the lock back, and
  those that were answered and not skipped. -/
  mem_iff : ∀ (i : Nat) path f, (i, path, f) ∈ swaps ↔
    ∃ stage, s.parties[i]? = some (.writer ⟨path, f, stage⟩) ∧
      ((∃ target, stage = .swapped target) ∨ (∃ name, stage = .done (.ok name)) ∧ 1 < f.table.size)
  /-- The current snapshot has the rows of their documents, in this order, and no others. -/
  views : s.state.views = shelve [] (swaps.map Prod.snd)

/-- An addition that has swapped its snapshot in, by how far it has come. -/
theorem Party.swapped?_eq_some {p : Party} {path : Bytes} {f : Document} :
    p.swapped? = some (path, f) ↔ ∃ stage, p = .writer ⟨path, f, stage⟩ ∧
      ((∃ target, stage = .swapped target) ∨
        (∃ name, stage = .done (.ok name)) ∧ 1 < f.table.size) := by
  constructor
  · intro h
    unfold swapped? at h
    split at h
    · cases h
      exact ⟨_, rfl, Or.inl ⟨_, rfl⟩⟩
    · split at h
      · rename_i hsize
        cases h
        exact ⟨_, rfl, Or.inr ⟨⟨_, rfl⟩, hsize⟩⟩
      · cases h
    · cases h
  · rintro ⟨_, rfl, ⟨target, rfl⟩ | ⟨⟨name, rfl⟩, hsize⟩⟩
    · rfl
    · exact if_pos hsize

/-- **No update is lost.**  Whatever moves are made on a new database, its lock is taken while one
addition or outsider has the guard, every addition ends with an answer or a refusal, and the current
snapshot has the documents that were swapped in, once each and in this order. -/
theorem no_lost_update {id : Nat} {name : String} {options : Options} {d : Database}
    {events : List Event} (h : Database.create id name options = .ok (d, events))
    (moves : List Move) :
    Consistent (System.run ⟨⟨d, id + 1⟩, []⟩ moves) (System.swaps ⟨⟨d, id + 1⟩, []⟩ moves) := by
  obtain ⟨hguarded, hrecorded, hfits⟩ := (kept_create h).run moves
  refine ⟨hguarded.unique, hguarded.locked_iff, fun i path f result hdone => ?_,
    fun i path f stage later hparty hsteps => exists_done hparty hsteps, hrecorded.nodup,
    fun i path f => ?_, hrecorded.views⟩
  · have hknown := hfits i _ hdone
    cases result with
    | ok name => exact Or.inl ⟨name, rfl⟩
    | error e =>
      refine Or.inr (hknown.imp ?_ ?_)
      · rintro ⟨name, rfl⟩
        exact ⟨name, rfl⟩
      · rintro rfl
        rfl
  · refine (hrecorded.mem_iff i (path, f)).trans ?_
    rw [System.swappedAt, Option.bind_eq_some_iff]
    simp only [Party.swapped?_eq_some]
    constructor
    · rintro ⟨_, hparty, stage, rfl, hstage⟩
      exact ⟨stage, hparty, hstage⟩
    · rintro ⟨stage, hparty, hstage⟩
      exact ⟨_, hparty, stage, rfl, hstage⟩

/-- Two additions, the second of which looks at the lock while the first has it, and an outsider who
comes in between. -/
theorem no_lost_update_two :
    ∃ (d : Database) (events : List Event) (f : Document) (moves : List Move),
      Database.create 0 "db" {} = .ok (d, events) ∧
      moves.take 3 = [.call [0x61] f, .call [0x62] f, .arrive] ∧
      (System.swaps ⟨⟨d, 1⟩, []⟩ moves).map Prod.fst = [0] ∧
      (System.run ⟨⟨d, 1⟩, []⟩ moves).parties[1]? =
        some (.writer ⟨[0x62], f, .done (.error (.busy "db"))⟩) ∧
      Consistent (System.run ⟨⟨d, 1⟩, []⟩ moves) (System.swaps ⟨⟨d, 1⟩, []⟩ moves) := by
  have hfinished : ((Draft.start (Utf8.encode "m") {}).attempts
      [.openElement [0x65], .closeElement]).finish =
      .ok ⟨#[⟨.document, 0, 2, 0, 0, [0x6D]⟩, ⟨.element, 1, 1, 0, 1, []⟩], ⟨#[[0x65]]⟩⟩ := by
    cbv
  let f : Document := ⟨_, _, _, _, hfinished⟩
  exact ⟨_, _, f, [.call [0x61] f, .call [0x62] f, .arrive, .step 0, .step 1, .step 0, .step 2,
    .step 0, .step 1, .step 0, .step 0, .step 0, .step 2], rfl, rfl, by cbv, by cbv,
    no_lost_update (show Database.create 0 "db" {} = .ok (_, _) from rfl) _⟩

end XmlStore.Concurrent
