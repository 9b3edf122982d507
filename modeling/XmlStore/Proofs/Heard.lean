import XmlStore.Script.Merge

/-!
# What an evaluation hears

An evaluation observes one signal.  Of the signals that a visit raises, `hears` tells whether that
one is among them; up to the first such visit nothing can interrupt the evaluation.

* `Step.heard` — the nodes of some steps before the first visit that is heard.
* `Script.Clean`, `Stretch.Clean` — nothing is heard and there is no fault: the whole course is run,
  whatever polls it has.
* `Script.ServedBy` — another script yields at least the same nodes, and exactly these if the
  script is clean.  Scripts that pull their operands in different amounts are compared by it.
-/

namespace XmlStore

namespace Step

variable {α : Type}

/-- Whether a step raises no signal that is heard. -/
def isQuiet (hears : List SignalId → Bool) : Step α → Bool
  | visit raises => !hears raises
  | _ => true

/-- Whether nothing is heard in some steps. -/
def allQuiet (hears : List SignalId → Bool) (steps : List (Step α)) : Bool :=
  steps.all (isQuiet hears)

/-- Whether some steps yield nothing. -/
def allSilent (steps : List (Step α)) : Bool := steps.all (!·.isYield)

/-- What some steps yield before the first visit that is heard. -/
def heard (hears : List SignalId → Bool) : List (Step α) → List α
  | [] => []
  | visit raises :: rest => if hears raises then [] else heard hears rest
  | poll :: rest => heard hears rest
  | release _ :: rest => heard hears rest
  | yield a :: rest => a :: heard hears rest

variable {hears : List SignalId → Bool}

@[simp] theorem allQuiet_nil : allQuiet hears ([] : List (Step α)) = true := rfl

@[simp] theorem allQuiet_append (a b : List (Step α)) :
    allQuiet hears (a ++ b) = (allQuiet hears a && allQuiet hears b) := by
  simp [allQuiet]

@[simp] theorem allQuiet_cons (step : Step α) (rest : List (Step α)) :
    allQuiet hears (step :: rest) = (step.isQuiet hears && allQuiet hears rest) := rfl

@[simp] theorem allSilent_nil : allSilent ([] : List (Step α)) = true := rfl

@[simp] theorem allSilent_append (a b : List (Step α)) :
    allSilent (a ++ b) = (allSilent a && allSilent b) := by
  simp [allSilent]

@[simp] theorem allSilent_cons (step : Step α) (rest : List (Step α)) :
    allSilent (step :: rest) = (!step.isYield && allSilent rest) := rfl

theorem heard_append_of_quiet {a b : List (Step α)} (h : allQuiet hears a = true) :
    heard hears (a ++ b) = heard hears a ++ heard hears b := by
  induction a with
  | nil => rfl
  | cons step rest ih =>
    rw [allQuiet_cons, Bool.and_eq_true] at h
    cases step with
    | visit raises =>
      have hraises : hears raises = false := by simpa [isQuiet] using h.1
      simp [heard, hraises, ih h.2]
    | poll => simp [heard, ih h.2]
    | release => simp [heard, ih h.2]
    | yield => simp [heard, ih h.2]

theorem heard_append_of_not_quiet {a b : List (Step α)} (h : allQuiet hears a = false) :
    heard hears (a ++ b) = heard hears a := by
  induction a with
  | nil => simp at h
  | cons step rest ih =>
    rw [allQuiet_cons, Bool.and_eq_false_iff] at h
    cases step with
    | visit raises =>
      cases hraises : hears raises with
      | true => simp [heard, hraises]
      | false => simp [heard, hraises, ih (h.resolve_left (by simp [isQuiet, hraises]))]
    | poll => simpa [heard] using ih (h.resolve_left (by simp [isQuiet]))
    | release => simpa [heard] using ih (h.resolve_left (by simp [isQuiet]))
    | yield => simpa [heard] using ih (h.resolve_left (by simp [isQuiet]))

theorem heard_of_silent {steps : List (Step α)} (h : allSilent steps = true) :
    heard hears steps = [] := by
  induction steps with
  | nil => rfl
  | cons step rest ih =>
    rw [allSilent_cons, Bool.and_eq_true] at h
    cases step with
    | visit raises => rw [heard, ih h.2, ite_self]
    | poll => exact ih h.2
    | release => exact ih h.2
    | yield => simp [isYield] at h

theorem filterMap_yield (a : α) (rest : List (Step α)) :
    (yield a :: rest).filterMap result? = a :: rest.filterMap result? := rfl

theorem heard_of_quiet {steps : List (Step α)} (h : allQuiet hears steps = true) :
    heard hears steps = steps.filterMap result? := by
  induction steps with
  | nil => rfl
  | cons step rest ih =>
    rw [allQuiet_cons, Bool.and_eq_true] at h
    cases step with
    | visit raises =>
      have hraises : hears raises = false := by simpa [isQuiet] using h.1
      rw [heard, hraises, if_neg (by simp), ih h.2, List.filterMap_cons_none rfl]
    | poll => rw [heard, ih h.2, List.filterMap_cons_none rfl]
    | release => rw [heard, ih h.2, List.filterMap_cons_none rfl]
    | yield a => rw [heard, ih h.2, filterMap_yield]

/-- All steps are quiet for someone who hears no signal. -/
theorem allQuiet_deaf (steps : List (Step α)) : allQuiet (fun _ => false) steps = true := by
  apply List.all_eq_true.2
  intro step _
  cases step <;> rfl

theorem filterMap_of_silent {steps : List (Step α)} (h : allSilent steps = true) :
    steps.filterMap result? = [] := by
  rw [← heard_of_quiet (allQuiet_deaf steps), heard_of_silent h]

theorem isQuiet_of_isYield {step : Step α} (h : step.isYield = true) :
    step.isQuiet hears = true := by
  cases step <;> simp_all [isYield, isQuiet]

/-- Leaving out what is yielded leaves out no visit. -/
theorem allQuiet_filter_silent (steps : List (Step α)) :
    allQuiet hears (steps.filter (!·.isYield)) = allQuiet hears steps := by
  induction steps with
  | nil => rfl
  | cons step rest ih =>
    rw [List.filter_cons]
    cases h : step.isYield with
    | true => simp [ih, isQuiet_of_isYield h]
    | false => simp [ih]

theorem allSilent_filter_silent (steps : List (Step α)) :
    allSilent (steps.filter (!·.isYield)) = true := by
  simp [allSilent]

end Step

namespace Script

variable {hears : List SignalId → Bool}

/-- The nodes of a script before the first visit that is heard. -/
def heard (hears : List SignalId → Bool) (s : Script) : List Node := Step.heard hears s.steps

/-- Nothing is heard in a script, and it has no fault. -/
structure Clean (hears : List SignalId → Bool) (s : Script) : Prop where
  fault : s.fault = none
  quiet : Step.allQuiet hears s.steps = true

theorem Clean.heard {s : Script} (h : s.Clean hears) : s.heard hears = s.nodes :=
  Step.heard_of_quiet h.quiet

theorem clean_empty : empty.Clean hears := ⟨rfl, rfl⟩

theorem heard_after_of_quiet {s : Script} {steps : List (Step Node)}
    (h : Step.allQuiet hears steps = true) :
    (s.after steps).heard hears = Step.heard hears steps ++ s.heard hears :=
  Step.heard_append_of_quiet h

theorem heard_after_of_not_quiet {s : Script} {steps : List (Step Node)}
    (h : Step.allQuiet hears steps = false) :
    (s.after steps).heard hears = Step.heard hears steps :=
  Step.heard_append_of_not_quiet h

theorem clean_after {s : Script} {steps : List (Step Node)} :
    (s.after steps).Clean hears ↔ Step.allQuiet hears steps = true ∧ s.Clean hears := by
  constructor
  · intro h
    have hquiet : Step.allQuiet hears (steps ++ s.steps) = true := h.quiet
    rw [Step.allQuiet_append, Bool.and_eq_true] at hquiet
    exact ⟨hquiet.1, h.fault, hquiet.2⟩
  · rintro ⟨hsteps, hs⟩
    refine ⟨hs.fault, ?_⟩
    show Step.allQuiet hears (steps ++ s.steps) = true
    rw [Step.allQuiet_append, hsteps, hs.quiet]; rfl

theorem ofNodes_cons (node : Node) (rest : List Node) :
    ofNodes (node :: rest) = (ofNodes rest).after [.poll, .yield node] := rfl

theorem clean_ofNodes (nodes : List Node) : (ofNodes nodes).Clean hears := by
  induction nodes with
  | nil => exact clean_empty
  | cons node rest ih => exact clean_after.2 ⟨rfl, ih⟩

@[simp] theorem heard_ofNodes (nodes : List Node) : (ofNodes nodes).heard hears = nodes := by
  induction nodes with
  | nil => rfl
  | cons node rest ih => rw [ofNodes_cons, heard_after_of_quiet rfl, ih]; rfl

theorem nodes_ofNodes (nodes : List Node) : (ofNodes nodes).nodes = nodes := by
  have hclean : (ofNodes nodes).Clean fun _ => false := clean_ofNodes nodes
  rw [← hclean.heard, heard_ofNodes]

/-- The other script yields at least the same nodes, and exactly these if this one is clean. -/
structure ServedBy (hears : List SignalId → Bool) (s t : Script) : Prop where
  nodes : s.heard hears <+: t.heard hears
  complete : s.Clean hears → t.Clean hears ∧ t.heard hears = s.heard hears

namespace ServedBy

theorem refl (s : Script) : s.ServedBy hears s := ⟨List.prefix_rfl, fun h => ⟨h, rfl⟩⟩

theorem trans {s t u : Script} (h : s.ServedBy hears t) (h' : t.ServedBy hears u) :
    s.ServedBy hears u := by
  refine ⟨h.nodes.trans h'.nodes, ?_⟩
  intro hs
  obtain ⟨ht, hst⟩ := h.complete hs
  obtain ⟨hu, htu⟩ := h'.complete ht
  exact ⟨hu, htu.trans hst⟩

/-- A clean script serves a clean script with the same nodes. -/
theorem of_clean {s t : Script} (ht : t.Clean hears) (h : t.heard hears = s.heard hears) :
    s.ServedBy hears t :=
  ⟨h ▸ List.prefix_rfl, fun _ => ⟨ht, h⟩⟩

/-- A script that is cut before its first node is served by any script. -/
theorem of_failed {s : Script} (t : Script) (hnodes : s.heard hears = [])
    (hs : ¬ s.Clean hears) : s.ServedBy hears t :=
  ⟨hnodes ▸ List.nil_prefix, fun h => absurd h hs⟩

/-- The same quiet beginning may be put in front, whatever polls and releases it has. -/
theorem after {s t : Script} (h : s.ServedBy hears t) {before before' : List (Step Node)}
    (hquiet : Step.allQuiet hears before' = true)
    (hsame : Step.heard hears before = Step.heard hears before') :
    (s.after before).ServedBy hears (t.after before') := by
  by_cases hbefore : Step.allQuiet hears before = true
  · constructor
    · rw [heard_after_of_quiet hbefore, heard_after_of_quiet hquiet, hsame]
      exact (List.prefix_append_right_inj _).2 h.nodes
    · intro hs
      obtain ⟨ht, hnodes⟩ := h.complete (clean_after.1 hs).2
      refine ⟨clean_after.2 ⟨hquiet, ht⟩, ?_⟩
      rw [heard_after_of_quiet hbefore, heard_after_of_quiet hquiet, hsame, hnodes]
  · have hloud : Step.allQuiet hears before = false := by simpa using hbefore
    refine ⟨?_, fun hs => absurd (clean_after.1 hs).1 hbefore⟩
    rw [heard_after_of_not_quiet hloud, heard_after_of_quiet hquiet, hsame]
    exact List.prefix_append _ _

end ServedBy

namespace Stretch

variable {α β : Type}

theorem pure_bind (a : α) (next : α → Stretch β) : (pure a).bind next = next a := rfl

theorem bind_assoc {γ : Type} (s : Stretch α) (next : α → Stretch β) (last : β → Stretch γ) :
    (s.bind next).bind last = s.bind fun a => (next a).bind last := by
  obtain ⟨steps, result⟩ := s
  cases result with
  | error => rfl
  | ok a =>
    simp only [bind]
    cases (next a).result with
    | error => rfl
    | ok b => simp only [List.append_assoc]

/-- A stretch leads to a result, and nothing is heard in it. -/
structure Clean (hears : List SignalId → Bool) (st : Stretch α) (a : α) : Prop where
  result : st.result = .ok a
  quiet : Step.allQuiet hears st.steps = true

/-- A stretch yields nothing. -/
def Silent (st : Stretch α) : Prop := Step.allSilent st.steps = true

theorem clean_pure {a b : α} : (pure a).Clean hears b ↔ a = b := by
  constructor
  · intro h
    have hresult : (Except.ok a : Except Fault α) = .ok b := h.result
    exact Except.ok.inj hresult
  · intro h
    exact ⟨by rw [pure, h], rfl⟩

theorem clean_bind {s : Stretch α} {next : α → Stretch β} {b : β} :
    (s.bind next).Clean hears b ↔ ∃ a, s.Clean hears a ∧ (next a).Clean hears b := by
  obtain ⟨steps, result⟩ := s
  cases result with
  | error fault =>
    constructor
    · intro h
      have hresult : Except.error fault = Except.ok b := h.result
      cases hresult
    · rintro ⟨a, ha, _⟩
      cases ha.result
  | ok a =>
    constructor
    · intro h
      have hquiet := h.quiet
      simp only [bind, Step.allQuiet_append, Bool.and_eq_true] at hquiet
      exact ⟨a, ⟨rfl, hquiet.1⟩, h.result, hquiet.2⟩
    · rintro ⟨c, ⟨hc, hquiet⟩, hnext⟩
      obtain rfl : a = c := Except.ok.inj hc
      refine ⟨hnext.result, ?_⟩
      simp only [bind, Step.allQuiet_append, Bool.and_eq_true]
      exact ⟨hquiet, hnext.quiet⟩

theorem silent_pure (a : α) : (pure a).Silent := rfl

theorem silent_bind {s : Stretch α} {next : α → Stretch β} (hs : s.Silent)
    (hnext : ∀ a, (next a).Silent) : (s.bind next).Silent := by
  unfold bind
  split
  · exact hs
  · rename_i a _
    show Step.allSilent (s.steps ++ (next a).steps) = true
    rw [Step.allSilent_append, Bool.and_eq_true]
    exact ⟨hs, hnext a⟩

end Stretch

end Script

end XmlStore
