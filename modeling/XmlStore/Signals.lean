/-!
# Cancellation signals

Every query observes one signal, and raising it asks the query to stop.  Signals are numbered as
they are made, and `Signals` is the state of all of them; a signal that was never made is never
raised.
-/

namespace XmlStore

/-- The number of a signal. -/
abbrev SignalId := Nat

/-- The state of all signals: the one at position `i` has number `i`. -/
structure Signals where
  raised : Array Bool := #[]
  deriving DecidableEq, Repr

namespace Signals

/-- No signals yet. -/
def empty : Signals := {}

/-- Whether a signal is raised. -/
def isRaised (s : Signals) (id : SignalId) : Bool := s.raised[id]?.getD false

/-- A new signal, which is not raised. -/
def fresh (s : Signals) : SignalId × Signals := (s.raised.size, ⟨s.raised.push false⟩)

/-- Raises a signal. -/
def raise (s : Signals) (id : SignalId) : Signals := ⟨s.raised.setIfInBounds id true⟩

/-- Takes a signal back. -/
def reset (s : Signals) (id : SignalId) : Signals := ⟨s.raised.setIfInBounds id false⟩

/-- Raises several signals. -/
def raiseAll (s : Signals) (ids : List SignalId) : Signals := ids.foldl raise s

theorem size_fresh (s : Signals) : s.fresh.2.raised.size = s.raised.size + 1 := by
  simp [fresh]

theorem size_raise (s : Signals) (id : SignalId) : (s.raise id).raised.size = s.raised.size := by
  simp [raise]

theorem size_reset (s : Signals) (id : SignalId) : (s.reset id).raised.size = s.raised.size := by
  simp [reset]

@[simp] theorem size_raiseAll (s : Signals) (ids : List SignalId) :
    (s.raiseAll ids).raised.size = s.raised.size := by
  induction ids generalizing s with
  | nil => rfl
  | cons id rest ih =>
    show ((s.raise id).raiseAll rest).raised.size = s.raised.size
    rw [ih, size_raise]

theorem isRaised_fresh (s : Signals) : s.fresh.2.isRaised s.fresh.1 = false := by
  simp [fresh, isRaised]

/-- A new signal leaves all others as they are. -/
theorem isRaised_fresh_eq (s : Signals) (id : SignalId) :
    s.fresh.2.isRaised id = s.isRaised id := by
  simp only [fresh, isRaised, Array.getElem?_push]
  split
  · rename_i heq
    simp [heq]
  · rfl

theorem isRaised_raise_of_ne (s : Signals) {a b : SignalId} (h : a ≠ b) :
    (s.raise a).isRaised b = s.isRaised b := by
  simp [raise, isRaised, Array.getElem?_setIfInBounds_ne h]

theorem isRaised_reset_of_ne (s : Signals) {a b : SignalId} (h : a ≠ b) :
    (s.reset a).isRaised b = s.isRaised b := by
  simp [reset, isRaised, Array.getElem?_setIfInBounds_ne h]

theorem lt_of_isRaised {s : Signals} {id : SignalId} (h : s.isRaised id = true) :
    id < s.raised.size := by
  apply Nat.lt_of_not_le
  intro hle
  simp [isRaised, Array.getElem?_eq_none hle] at h

end Signals

end XmlStore
