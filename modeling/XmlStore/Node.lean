/-!
# Nodes and document order

A node is a position in a snapshot.  Nodes are ordered by snapshot first, older snapshots before
newer ones, and by position within a snapshot, which is document order.

* `Node.diff` compares two nodes.
* `isAscending` tells whether a list ascends strictly, so that it is in order and without
  duplicates; `sortDistinct` makes such a list of any nodes.

Both numbers are plain ones.  Where they are stored in 32 bits, this is the same as long as fewer
than 2^32 snapshots are made, each of fewer than 2^32 rows: then a newer snapshot has the greater
number, and nothing wraps.
-/

namespace XmlStore

/-- A position in a snapshot. -/
structure Node where
  snapshot : Nat
  pre : Nat
  deriving DecidableEq, Repr

namespace Node

instance : LT Node where
  lt a b := a.snapshot < b.snapshot ∨ (a.snapshot = b.snapshot ∧ a.pre < b.pre)

instance : LE Node where
  le a b := a < b ∨ a = b

theorem lt_def {a b : Node} :
    a < b ↔ a.snapshot < b.snapshot ∨ (a.snapshot = b.snapshot ∧ a.pre < b.pre) := Iff.rfl

theorem le_def {a b : Node} : a ≤ b ↔ a < b ∨ a = b := Iff.rfl

instance (a b : Node) : Decidable (a < b) := decidable_of_iff' _ lt_def

instance (a b : Node) : Decidable (a ≤ b) := decidable_of_iff' _ le_def

/-- Where the first node stands in relation to the second one. -/
def diff (a b : Node) : Ordering :=
  if a < b then .lt else if a = b then .eq else .gt

/-- The earlier of two nodes. -/
def earlier (a b : Node) : Node := if b < a then b else a

/-- The later of two nodes. -/
def later (a b : Node) : Node := if a < b then b else a

theorem earlier_eq_or (a b : Node) : earlier a b = a ∨ earlier a b = b := by
  unfold earlier; split <;> simp

theorem later_eq_or (a b : Node) : later a b = a ∨ later a b = b := by
  unfold later; split <;> simp

/-- The earliest of some nodes. -/
def earliest? : List Node → Option Node
  | [] => none
  | a :: rest => some (rest.foldl earlier a)

/-- The latest of some nodes. -/
def latest? : List Node → Option Node
  | [] => none
  | a :: rest => some (rest.foldl later a)

/-- A choice between two nodes, repeated over a list, ends with a member of it. -/
theorem foldl_mem {choose : Node → Node → Node}
    (either : ∀ a b, choose a b = a ∨ choose a b = b) (a : Node) (rest : List Node) :
    rest.foldl choose a ∈ a :: rest := by
  induction rest generalizing a with
  | nil => simp
  | cons b rest ih =>
    rw [List.foldl_cons]
    rcases either a b with h | h <;> rw [h]
    · rcases List.mem_cons.1 (ih a) with h' | h'
      · simp [h']
      · simp [h']
    · exact List.mem_cons_of_mem a (ih b)

theorem earliest?_mem {nodes : List Node} {node : Node} (h : earliest? nodes = some node) :
    node ∈ nodes := by
  cases nodes with
  | nil => simp [earliest?] at h
  | cons a rest =>
    simp only [earliest?, Option.some.injEq] at h
    exact h ▸ foldl_mem earlier_eq_or a rest

theorem latest?_mem {nodes : List Node} {node : Node} (h : latest? nodes = some node) :
    node ∈ nodes := by
  cases nodes with
  | nil => simp [latest?] at h
  | cons a rest =>
    simp only [latest?, Option.some.injEq] at h
    exact h ▸ foldl_mem later_eq_or a rest

end Node

/-- Whether every member of a list is less than the next one. -/
def isAscending {α : Type} [LT α] [DecidableLT α] : List α → Bool
  | a :: b :: rest => decide (a < b) && isAscending (b :: rest)
  | _ => true

/-- Keeps one of each run of equal neighbours. -/
def dropRepeats : List Node → List Node
  | a :: b :: rest => if a = b then dropRepeats (b :: rest) else a :: dropRepeats (b :: rest)
  | nodes => nodes

/-- The nodes in document order, each of them once. -/
def sortDistinct (nodes : List Node) : List Node :=
  dropRepeats (nodes.mergeSort fun a b => decide (a ≤ b))

end XmlStore
