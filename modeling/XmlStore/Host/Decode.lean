import XmlStore.Host.Term
import XmlStore.Query
import XmlStore.Table.Fragment

/-!
# Reading host terms

The first mismatch refuses the whole call.  A tuple is told by its length and its tag; then its
members are read from left to right, but the attributes of an element are read before its name.  A
list is read item by item, so the end of an improper list is met only after all its items were read;
what happens then is a refusal of its own kind.

* Queries: the atom `empty`, `{text, v}`, `{attribute, v}`, `{text_range, min, max, mi, ma}`,
  `{attribute_range, min, max, mi, ma}`, `{nodes, [pre]}` and `{union, [q]}`, `{intersect, [q]}`,
  `{except, [q]}`.  A bound of a range is a binary, or `nil` if there is none.
* Fragments: a binary is a text; `{comment, v}`, `{pi, target, data}`, and
  `{name, [{attribute, value}], [fragment]}`.
-/

namespace XmlStore

/-- Why arguments were refused. -/
inductive Host.Refusal where
  /-- A term is not of the expected form. -/
  | badArgument
  /-- A list has no proper end. -/
  | brokenList
  deriving DecidableEq, Repr

namespace Term

/-- A binary. -/
def toBytes : Term → Except Host.Refusal Bytes
  | binary bytes => .ok bytes
  | _ => .error .badArgument

/-- A binary that is text. -/
def toText : Term → Except Host.Refusal String
  | binary bytes =>
    match Utf8.decode? bytes with
    | some text => .ok text
    | none => .error .badArgument
  | _ => .error .badArgument

/-- A truth value. -/
def toBool : Term → Except Host.Refusal Bool
  | atom "true" => .ok true
  | atom "false" => .ok false
  | _ => .error .badArgument

/-- A position: an integer of 32 bits without sign. -/
def toPre : Term → Except Host.Refusal Nat
  | integer n => if 0 ≤ n ∧ n.toNat < UInt32.size then .ok n.toNat else .error .badArgument
  | _ => .error .badArgument

/-- A bound of a range. -/
def toBound : Term → Except Host.Refusal (Option Bytes)
  | atom "nil" => .ok none
  | term => term.toBytes.map some

/-- A pair. -/
def toPair {α β : Type} (first : Term → Except Host.Refusal α)
    (second : Term → Except Host.Refusal β) : Term → Except Host.Refusal (α × β)
  | tuple [a, b] => do .ok (← first a, ← second b)
  | _ => .error .badArgument

/-- A list whose items are all of one form. -/
def toList {α : Type} (item : Term → Except Host.Refusal α) :
    Term → Except Host.Refusal (List α)
  | list items => items.mapM item
  | improper items _ => do
    let _ ← items.mapM item
    .error .brokenList
  | _ => .error .badArgument

/-- The operator with the given tag. -/
def operator? : String → Option SetOp
  | "union" => some .union
  | "intersect" => some .intersect
  | "except" => some .except
  | _ => none

/-- A range of values of a kind. -/
def toInterval (kind : ValueKind) (min max minIncluded maxIncluded : Term) :
    Except Host.Refusal Interval := do
  let min ← min.toBound
  let max ← max.toBound
  let minIncluded ← minIncluded.toBool
  let maxIncluded ← maxIncluded.toBool
  .ok { kind, min, minIncluded, max, maxIncluded }

mutual

/-- A query. -/
def toQuery : Term → Except Host.Refusal Query
  | atom "empty" => .ok .empty
  | tuple [atom "text", value] => do .ok (.lookup (.exact .text (← value.toBytes)))
  | tuple [atom "attribute", value] => do .ok (.lookup (.exact .attribute (← value.toBytes)))
  | tuple [atom "text_range", min, max, minIncluded, maxIncluded] => do
    .ok (.lookup (.range (← toInterval .text min max minIncluded maxIncluded)))
  | tuple [atom "attribute_range", min, max, minIncluded, maxIncluded] => do
    .ok (.lookup (.range (← toInterval .attribute min max minIncluded maxIncluded)))
  | tuple [atom "nodes", pres] => do .ok (.nodes (← pres.toList toPre))
  | tuple [atom tag, operands] =>
    match operator? tag with
    | none => .error .badArgument
    | some op => do .ok (.set op (← toQueries operands))
  | _ => .error .badArgument

/-- A list of queries. -/
def toQueries : Term → Except Host.Refusal (List Query)
  | list items => toQueryItems items
  | improper items _ => do
    let _ ← toQueryItems items
    .error .brokenList
  | _ => .error .badArgument

/-- The queries among the items of a list, which all have to be queries. -/
def toQueryItems : List Term → Except Host.Refusal (List Query)
  | [] => .ok []
  | t :: rest => do
    let q ← toQuery t
    .ok (q :: (← toQueryItems rest))

end

mutual

/-- A fragment. -/
def toFragment : Term → Except Host.Refusal Fragment
  | binary value => .ok (.text value)
  | tuple [atom "comment", value] => do .ok (.comment (← value.toBytes))
  | tuple [atom "pi", target, data] => do .ok (.instruction (← target.toBytes) (← data.toBytes))
  | tuple [name, attributes, children] => do
    let attributes ← attributes.toList (toPair toBytes toBytes)
    let name ← name.toBytes
    .ok (.element name attributes (← toFragments children))
  | _ => .error .badArgument

/-- A list of fragments. -/
def toFragments : Term → Except Host.Refusal (List Fragment)
  | list items => toFragmentItems items
  | improper items _ => do
    let _ ← toFragmentItems items
    .error .brokenList
  | _ => .error .badArgument

/-- The fragments among the items of a list, which all have to be fragments. -/
def toFragmentItems : List Term → Except Host.Refusal (List Fragment)
  | [] => .ok []
  | t :: rest => do
    let f ← toFragment t
    .ok (f :: (← toFragmentItems rest))

end

end Term

end XmlStore
