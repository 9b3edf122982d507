import XmlStore.Expr.Basic

/-!
# Written expressions

* `Expr.text` writes an expression as a single line, in the syntax of the functions that read the
  database.
* `Expr.plan` lists its nodes in depth-first order, one on a line, indented by two spaces for each
  operator above it.
-/

namespace XmlStore

/-- The function that performs a lookup. -/
def Lookup.function : Lookup → String
  | .exact .text _ => "db:text"
  | .exact .attribute _ => "db:attribute"
  | .range { kind := .text, .. } => "db:text-range"
  | .range { kind := .attribute, .. } => "db:attribute-range"

/-- The call of the function that performs a lookup. -/
def Lookup.call (lookup : Lookup) (name : String) : String :=
  let argument := match lookup with
    | .exact _ value => s!"\"{Utf8.lossy value}\""
    | .range interval => interval.text
  s!"{lookup.function}(\"{name}\", {argument})"

namespace Expr

mutual

/-- An expression on one line. -/
def text : Expr → String
  | empty => "()"
  | nodes binding pres =>
    let listed := ", ".intercalate (pres.map toString)
    s!"db:node-pre(\"{binding.name}\", ({listed}))"
  | access binding lookup _ => lookup.call binding.name
  | set op operands _ => "(" ++ op.separator.intercalate (texts operands) ++ ")"

/-- Expressions on one line each. -/
def texts : List Expr → List String
  | [] => []
  | e :: rest => e.text :: texts rest

end

/-- What the plan says about the root of an expression. -/
def label : Expr → String
  | empty => "empty"
  | nodes binding pres =>
    s!"nodes data=\"{binding.name}\" count={pres.length} iterable={isAscending pres}"
  | access binding lookup iterable =>
    s!"{lookup.function} data=\"{binding.name}\" {lookup.text} iterable={iterable}"
  | set op _ iterable => s!"{op.name} iterable={iterable}"

/-- Two spaces for each operator above. -/
def indent (depth : Nat) : String := String.ofList (List.replicate (2 * depth) ' ')

mutual

/-- The lines of a plan that starts below `depth` operators. -/
def planLines (depth : Nat) : Expr → List String
  | set op operands iterable =>
    (indent depth ++ label (set op operands iterable)) :: planLinesAll (depth + 1) operands
  | e => [indent depth ++ label e]

/-- The lines of several plans. -/
def planLinesAll (depth : Nat) : List Expr → List String
  | [] => []
  | e :: rest => planLines depth e ++ planLinesAll depth rest

end

/-- The listing of an expression; every line is ended by a line feed. -/
def plan (e : Expr) : String := String.join ((planLines 0 e).map (· ++ "\n"))

end Expr

end XmlStore
