import XmlStore.Expr.Compile

/-!
# Events

What the store tells an observer of its work.  `Event.level` and `Event.text` are the form in which
an event is logged; how long an addition took is measured outside and handed in as text.
-/

namespace XmlStore

/-- How a query is evaluated. -/
inductive Mode where
  /-- Node by node, as they are asked for. -/
  | lazy
  /-- All nodes at once. -/
  | eager
  deriving DecidableEq, Repr

/-- The name of a mode. -/
def Mode.name : Mode → String
  | .lazy => "Lazy"
  | .eager => "Eager"

/-- How important an event is. -/
inductive Level where
  | info
  | debug
  | trace
  deriving DecidableEq, Repr

/-- The name of a level. -/
def Level.name : Level → String
  | info => "INFO"
  | debug => "DEBUG"
  | trace => "TRACE"

/-- Something the store has done. -/
inductive Event where
  | builtIndex (textKeys attributeKeys maxLength : Nat)
  | created (database : String)
  | skipped (document : Bytes)
  | added (database : String) (document : Bytes)
  | reported (report : Diagnostic)
  | compiled (e : Expr)
  | evaluating (mode : Mode) (e : Expr)
  | reading (lookup : Lookup) (database : String) (indexed : Bool)

/-- The message about a document that was added. -/
def addedMessage (document : Bytes) (elapsed : String) : String :=
  s!"Path \"{Utf8.lossy document}\" added in {elapsed}."

namespace Event

/-- The level of an event. -/
def level : Event → Level
  | added .. => .info
  | evaluating .. => .trace
  | reading .. => .trace
  | _ => .debug

/-- The wording of an event. -/
def text (elapsed : String) : Event → String
  | builtIndex textKeys attributeKeys maxLength =>
    s!"built value index: {textKeys} text keys, {attributeKeys} attribute keys, " ++
      s!"maxlen {maxLength}"
  | created database => s!"created database \"{database}\""
  | skipped document => s!"skipping empty fragment \"{Utf8.lossy document}\""
  | added database document => s!"{database}: {addedMessage document elapsed}"
  | reported report => report.message
  | compiled e => s!"compiled query: {e.text}"
  | evaluating mode e => s!"evaluating {mode.name}: {e.text}"
  | reading lookup database indexed =>
    lookup.text ++ s!" on \"{database}\" via " ++ (if indexed then "index" else "scan")

/-- The event of building the index of a table. -/
def ofIndex (index : BuiltIndex) : Event :=
  builtIndex (index.keyCount .text) (index.keyCount .attribute) index.maxLength

/-- The events of compiling an expression. -/
def ofCompile (compiled : Expr × List Diagnostic) : List Event :=
  compiled.2.map reported ++ [Event.compiled compiled.1]

end Event

end XmlStore
