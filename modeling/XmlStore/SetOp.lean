/-!
# Set operators

The operators that combine the nodes of several operands: the union of all, the intersection of
all, and the first without the nodes of the later ones.
-/

namespace XmlStore

/-- An operator on any number of operands. -/
inductive SetOp where
  | union
  | intersect
  | except
  deriving DecidableEq, Repr

namespace SetOp

/-- The name of an operator. -/
def name : SetOp → String
  | union => "union"
  | intersect => "intersect"
  | except => "except"

/-- What stands between two operands in a written expression. -/
def separator : SetOp → String
  | union => " | "
  | intersect => " intersect "
  | except => " except "

end SetOp

end XmlStore
