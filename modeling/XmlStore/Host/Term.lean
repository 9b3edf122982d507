import XmlStore.Options
import XmlStore.Text.Utf8

/-!
# Host terms

The host passes arguments and results as terms.  `Term.ofCells` makes the list of given items and a
tail, which is a proper list only if the tail is one.
-/

namespace XmlStore

/-- A value of the host. -/
inductive Term where
  | atom (name : String)
  | integer (value : Int)
  | binary (bytes : Bytes)
  /-- A proper list. -/
  | list (items : List Term)
  /-- A list whose last tail is no list. -/
  | improper (items : List Term) (tail : Term)
  | tuple (items : List Term)
  /-- The reference of a hosted database. -/
  | database (number : Nat)
  /-- A value of any other type. -/
  | other
  deriving Repr, Inhabited

namespace Term

/-- The list of some items in front of a tail. -/
def ofCells (items : List Term) : Term → Term
  | list more => list (items ++ more)
  | improper more tail => improper (items ++ more) tail
  | tail => if items.isEmpty then tail else improper items tail

/-- The absent value. -/
def nil : Term := atom "nil"

/-- A truth value. -/
def ofBool (b : Bool) : Term := atom (toString b)

/-- A number. -/
def ofNat (n : Nat) : Term := integer n

/-- The binary of a text. -/
def ofText (text : String) : Term := binary (Utf8.encode text)

/-- A result that is no failure. -/
def ok (result : Term) : Term := tuple [atom "ok", result]

/-- A failure of some kind, with a message. -/
def failure (kind message : String) : Term :=
  tuple [atom "error", tuple [atom kind, ofText message]]

end Term

end XmlStore
