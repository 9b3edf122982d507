import XmlStore.Text.Utf8

/-!
# Names

Rows refer to the names of elements, attributes and processing instructions by number.

* `Names.intern` — the number of a name; the same name always gets the same number, and new
  names are numbered from 1 in order of first appearance.
* `Names.get?` — the name behind a number.  Number 0 stands for no name; the empty name has it.

Numbers are not bounded.  Where they are stored in 32 bits, this is the same as long as fewer than
2^32 names are in use, so that no number is given twice.
-/

namespace XmlStore

/-- The names in use; the one at position `i` has number `i + 1`. -/
structure Names where
  entries : Array Bytes := #[]
  deriving DecidableEq, Repr

namespace Names

/-- No names yet. -/
def empty : Names := {}

/-- How many names are in use. -/
def count (names : Names) : Nat := names.entries.size

/-- The number of `name`, which is added if it is new. -/
def intern (names : Names) (name : Bytes) : Nat × Names :=
  if name.isEmpty then (0, names)
  else match names.entries.findIdx? (· == name) with
    | some i => (i + 1, names)
    | none => (names.entries.size + 1, ⟨names.entries.push name⟩)

/-- The name with the given number. -/
def get? (names : Names) : Nat → Option Bytes
  | 0 => none
  | i + 1 => names.entries[i]?

theorem intern_nil (names : Names) : names.intern [] = (0, names) := rfl

/-- An interned name is found again under its number. -/
theorem get?_intern (names : Names) {name : Bytes} (h : name ≠ []) :
    (names.intern name).2.get? (names.intern name).1 = some name := by
  have hne : name.isEmpty = false := by simpa using h
  simp only [intern, hne, Bool.false_eq_true, if_false]
  cases hfound : names.entries.findIdx? (· == name) with
  | none => simp [get?]
  | some i =>
    obtain ⟨hi, hname, _⟩ := Array.findIdx?_eq_some_iff_getElem.1 hfound
    simpa [get?, Array.getElem?_eq_getElem hi] using hname

end Names

end XmlStore
